import RakeLang.Proofs.Accepting.Predicate
import RakeLang.Proofs.Rereading.Course
import RakeLang.Proofs.Settling.SourceFile

/-!
# Phrases that are read again

The text of an expression or of a predicate that stands in a phrase is read again as the same tree,
up to spans: the tokens of the text settle to those that spell the tree, and a spelling of a
canonical tree is read as that tree.

## Main definitions

* `RakeLang.Node.Found` — an expression or a predicate that settled tokens spell.
* `RakeLang.Node.Grounded` — so are all expressions and predicates inside a part.

## Main results

* `RakeLang.Expression.parse_slice`, `RakeLang.Predicate.parse_slice` — the text of an expression
  and of a predicate is read as what it was found as.
* `RakeLang.Node.grounded_of_settle` — all that stands inside a phrase is found.
-/

set_option relaxedAutoImplicit false
set_option autoImplicit false

namespace RakeLang

open Token Spelling

/-! ## Settled tokens are read as the tokens that settle to them -/

/-- Settled tokens stay as they are.

**Proof sketch.** By strong induction on the number of tokens.  A token that stayed stays again.
The pieces of one that was split stay too: the first piece is no token that is split, and behind it
the mode is the one before an operand, where nothing is. -/
lemma settle_settle (n : Nat) :
    ∀ {σ : Mode} {ts : List Token}, ts.length ≤ n → settle σ (settle σ ts) = settle σ ts := by
  induction n using Nat.strong_induction_on with
  | h n ih =>
    intro σ ts hn
    rcases ts with _ | ⟨t, ts⟩
    · simp
    rw [List.length_cons] at hn
    rcases settle_cases σ t ts with hstays | ⟨depth, first, second, more, rfl, hhalves, hsettle⟩
    · rw [hstays, hstays, ih ts.length (by omega) le_rfl]
    · obtain ⟨taken, hne, htaken, -⟩ := hhalves.exists_append
      have hlength := congrArg List.length htaken
      have hpos := List.length_pos_iff.2 hne
      rw [List.length_cons, List.length_append] at hlength
      have hkeeps : (Mode.behind depth).keeps first.kind = true := by
        rcases hhalves.first_kind with hkind | hkind <;> rw [hkind] <;> rfl
      rw [hsettle _ _ hhalves, settle_cons hkeeps, Mode.step_of_halves hhalves,
        settle_of_split (Mode.split_of_isBehind rfl _), ih more.length (by omega) le_rfl]

section Cursor

variable {depth : Nat}

/-- The cursors before some tokens and before what they settle to. -/
lemma settles_settle (c : Cursor) :
    Settles (.operand depth) { c with ahead := settle (.operand depth) c.ahead } (.operand depth)
      { c with ahead := settle (.operand depth) c.ahead } c :=
  ⟨rfl, rfl, settle_settle _ le_rfl, nofun, ⟨[], rfl, .nil _, rfl⟩⟩

/-- Where nothing is ahead, nothing is ahead of the settled tokens. -/
lemma Settles.ahead_eq_nil {first σ : Mode} {start c d : Cursor} (h : Settles first start σ c d)
    (hc : c.ahead = []) : d.ahead = [] := by
  have hahead := h.ahead
  rw [hc, settle_nil] at hahead
  exact settle_eq_nil.1 hahead.symm

end Cursor

/-! ## Signs in front -/

/-- Behind a minus sign with which an expression begins stands an operand.

**Proof sketch.** Induction on the expression.  In an expression that begins with another one, the
minus sign is that of the first; a minus sign that is an operator has its operand behind it; and all
other expressions begin with other tokens or are numbers, which are one token. -/
lemma Expression.opensExpression_of_minus :
    ∀ {e : Expression} {t : Token} {ts : List Token}, e.Canonical → t :: ts ∈ e.spelling →
      t.kind = .symbol .minus → ∀ rest, (headKind (ts ++ rest)).opensExpression = true
  | .binary op lhs rhs span, t, ts, hcan, hts, ht, rest => by
    rw [Expression.spelling] at hts
    rw [Canonical, Everywhere] at hcan
    have hlhs : lhs.Canonical := hcan.2.1
    obtain ⟨us, vs, hus, -, rfl⟩ := exists_of_cons_mem_mul hlhs.nil_notMem_spelling hts
    rw [List.append_assoc]
    exact opensExpression_of_minus hlhs hus ht _
  | .unary op operand span, t, ts, hcan, hts, ht, rest => by
    rw [Canonical, Everywhere] at hcan
    rw [Expression.spelling, UnaryOp.spelling, cons_mem_token_mul] at hts
    exact opensExpression_of_mem hcan.2 hts.2 rest
  | .lambda params body span, t, ts, hcan, hts, ht, rest => by
    rw [Expression.spelling] at hts
    have hkind : t.kind = .keyword .funKw := (cons_mem_token_mul.1 hts).1
    rw [ht] at hkind
    cases hkind
  | .letIn name value body span, t, ts, hcan, hts, ht, rest => by
    rw [Expression.spelling] at hts
    have hkind : t.kind = .keyword .letKw := (cons_mem_token_mul.1 hts).1
    rw [ht] at hkind
    cases hkind
  | .call .., t, ts, hcan, hts, ht, rest | .field .., t, ts, hcan, hts, ht, rest
  | .scalar .., t, ts, hcan, hts, ht, rest | .record .., t, ts, hcan, hts, ht, rest
  | .reduce .., t, ts, hcan, hts, ht, rest | .scan .., t, ts, hcan, hts, ht, rest
  | .shuffle .., t, ts, hcan, hts, ht, rest | .ident .., t, ts, hcan, hts, ht, rest
  | .number .., t, ts, hcan, hts, ht, rest | .bool .., t, ts, hcan, hts, ht, rest
  | .laneIndex .., t, ts, hcan, hts, ht, rest | .lanes .., t, ts, hcan, hts, ht, rest
  | .unit .., t, ts, hcan, hts, ht, rest | .paren .., t, ts, hcan, hts, ht, rest
  | .tuple .., t, ts, hcan, hts, ht, rest => by
    have hopens := opensPrimary_of_mem hcan (by rfl) hts []
    rw [List.append_nil, headKind_cons, ht] at hopens
    cases hopens

/-- A canonical predicate is spelled by at least one token. -/
lemma Predicate.Canonical.nil_notMem_plainSpelling {p : Predicate} (h : p.Canonical) :
    [] ∉ p.plainSpelling := by
  intro hnil
  have hopens := opens_of_mem h hnil []
  simp [Kind.opensExpression, Kind.opensPrimary] at hopens

/-- Behind a minus sign with which a predicate begins stands an operand.

**Proof sketch.** Induction on the predicate.  A predicate that begins with another one has the
minus sign of the first; a comparison begins with its left operand; and negations, groups and tines
begin with other tokens. -/
lemma Predicate.opensExpression_of_minus {p : Predicate} :
    ∀ {t : Token} {ts : List Token}, p.Canonical → t :: ts ∈ p.plainSpelling →
      t.kind = .symbol .minus → ∀ rest, (headKind (ts ++ rest)).opensExpression = true := by
  induction p with
  | or lhs rhs span ihl ihr =>
    intro t ts hcan hts ht rest
    obtain ⟨us, vs, hus, -, rfl⟩ := exists_of_cons_mem_mul hcan.2.1.nil_notMem_plainSpelling hts
    rw [List.append_assoc]
    exact ihl hcan.2.1 hus ht _
  | and lhs rhs span ihl ihr =>
    intro t ts hcan hts ht rest
    obtain ⟨us, vs, hus, -, rfl⟩ := exists_of_cons_mem_mul hcan.2.2.1.nil_notMem_plainSpelling hts
    rw [List.append_assoc]
    exact ihl hcan.2.2.1 hus ht _
  | not operand span ih =>
    intro t ts hcan hts ht rest
    have hkind := (cons_mem_token_mul.1 hts).1
    simp [ht] at hkind
  | compare op lhs rhs span =>
    intro t ts hcan hts ht rest
    have hlhs : lhs.Canonical := hcan.1.1
    obtain ⟨us, vs, hus, -, rfl⟩ :=
      exists_of_cons_mem_mul (fun h => hlhs.nil_notMem_spelling h.1) hts
    rw [List.append_assoc]
    exact Expression.opensExpression_of_minus hlhs hus.1 ht _
  | tineTest tine =>
    intro t ts hcan hts ht rest
    obtain ⟨u, hu, heq⟩ := hts
    obtain rfl := (List.cons.inj heq).1
    simp [ht] at hu
  | group inner span ih =>
    intro t ts hcan hts ht rest
    have hkind : t.kind = .symbol .lParen := (cons_mem_token_mul.1 hts).1
    rw [ht] at hkind
    cases hkind
  | const value span =>
    intro t ts hcan hts ht rest
    cases value <;>
    · obtain ⟨u, hu, heq⟩ := hts
      obtain rfl := (List.cons.inj heq).1
      simp [ht] at hu

/-! ## Reading again -/

section Parse

variable {source : String} {eof : Token} {tokens part : List Token} {depth : Nat}

/-- **The text of an expression** is read as the expression, up to spans.

**Proof sketch.** The tokens of the text settle to a spelling of the expression, so the expression
  is read from what they settle to, and likewise from the tokens themselves. -/
theorem Expression.parse_slice {e : Expression} (hsource : tokenize source = .ok (tokens ++ [eof]))
    (htokens : Faithful source.toList tokens) (hcan : e.Canonical) (hpart : part ∈ e.placed)
    (hcovers : e.span.Covers part) (h : Lies tokens depth part) :
    ∃ e', parseExpression (e.span.slice source) = .ok e' ∧ e'.withoutSpans = e.withoutSpans := by
  have hspelling := e.placed_le hpart
  obtain ⟨k, us, eof', hread, heof, hshifted⟩ := h.exists_tokenize hsource htokens hcovers
    fun t ts heq ht => by
      have hopens := Expression.opensExpression_of_minus hcan (heq ▸ hspelling) ht []
      rwa [List.append_nil] at hopens
  have hsettled := e.stable_spelling part hspelling _ (map_content_of_shifted hshifted)
  obtain ⟨e', he', hok⟩ := Parser.expression_accepts hcan hsettled
    (endsExpression_of_headKind (by simp : headKind [] = _ ∨ _))
    ⟨[], settle (.operand depth) us, eof', heof⟩ (List.append_nil _).symm
  obtain ⟨e'', d', τ, hok', ⟨⟨halike, -⟩, -⟩, hrel⟩ := (Parser.expression_simulates
    (S := settling (.operand depth) _) depth _ _
      (settles_settle ⟨[], us, eof', heof⟩)).ok _ _ hok (Nat.zero_le _)
  rw [← Cursor.ofTokens_append heof] at hok'
  refine ⟨e'', parseWith_eq_ok_iff.2 ⟨_, hread, d', Parser.wholeInput_eq_ok_iff.2 ⟨hok', ?_⟩⟩, ?_⟩
  · exact Cursor.peek_kind_of_ahead_nil (hrel.ahead_eq_nil rfl)
  · exact halike.symm.trans he'

/-- **The text of a predicate** is read as the predicate, up to spans.

**Proof sketch.** As for expressions: the tokens of the text settle to a spelling of the
predicate, which is read as the predicate, and unsettled tokens are read as the settled ones are. -/
theorem Predicate.parse_slice {p : Predicate} (hsource : tokenize source = .ok (tokens ++ [eof]))
    (htokens : Faithful source.toList tokens) (hcan : p.Canonical) (hpart : part ∈ p.placed)
    (hcovers : p.span.Covers part) (h : Lies tokens depth part) :
    ∃ p', parsePredicate (p.span.slice source) = .ok p' ∧ p'.withoutSpans = p.withoutSpans := by
  have hspelling := p.placed_le hpart
  obtain ⟨k, us, eof', hread, heof, hshifted⟩ := h.exists_tokenize hsource htokens hcovers
    fun t ts heq ht => by
      have hopens := Predicate.opensExpression_of_minus hcan (heq ▸ hspelling) ht []
      rwa [List.append_nil] at hopens
  have hsettled := p.stable_plainSpelling part hspelling _ (map_content_of_shifted hshifted)
  have hends : EndsPredicate 0 [] := .inr (.inl rfl)
  obtain ⟨p', hp', hok⟩ := Parser.predicate_accepts hcan hsettled hends
    ⟨[], settle (.operand depth) us, eof', heof⟩ (List.append_nil _).symm
  obtain ⟨p'', d', τ, hok', ⟨rfl, -⟩, hrel⟩ := (Parser.predicate_simulates (.operand depth) _ depth
    _ _ (settles_settle ⟨[], us, eof', heof⟩)).ok _ _ hok (Nat.zero_le _)
  rw [← Cursor.ofTokens_append heof] at hok'
  have hafresh : ∃ c', Parser.predicateAfresh.wholeInput (.ofTokens (us ++ [eof'])) = .ok p' c' :=
    ⟨d', Parser.wholeInput_eq_ok_iff.2
      ⟨hok', Cursor.peek_kind_of_ahead_nil (hrel.ahead_eq_nil rfl)⟩⟩
  exact ⟨p', parseWith_eq_ok_iff.2
    ⟨_, hread, (Parser.wholeInput_predicate_iff _ p').2 hafresh⟩, hp'⟩

end Parse

/-! ## All that stands inside a phrase -/

namespace Node

/-- An expression or a predicate that a part of what the tokens settle to spells, or a type that a
part of the tokens spells; for any other part this says nothing. -/
def Found (tokens : List Token) : Node → Prop
  | expression e => ∃ depth part, part ∈ e.placed ∧ e.Canonical ∧ Lies tokens depth part
  | predicate p => ∃ depth part, part ∈ p.placed ∧ p.Canonical ∧ Lies tokens depth part
  | dataType t =>
    ∃ before part after, part ∈ t.placed ∧ t.Canonical ∧ tokens = before ++ (part ++ after)
  | _ => True

/-- The part and all parts inside it are found. -/
def Grounded (tokens : List Token) (n : Node) : Prop := ∀ m, n.Has m → m.Found tokens

/-- Is the part an expression, a field of a record expression or a predicate? -/
def isPhrase : Node → Bool
  | expression _ | fieldInit _ | predicate _ => true
  | _ => false

/-- The part keeps the rules for expressions, for predicates or for parameters. -/
def Canonical : Node → Prop
  | expression e => e.Canonical
  | fieldInit i => i.Everywhere fun e => e.Ranked ∧ e.Furnished
  | predicate p => p.Canonical
  | parameter p => p.Canonical
  | _ => True

section Grounded

variable {tokens before us after : List Token} {n m : Node}

/-- A part is found with all that stands inside of it, if it is found and its children are. -/
lemma grounded_of_children (hn : n.Found tokens) (h : ∀ m ∈ n.children, m.Grounded tokens) :
    n.Grounded tokens := by
  intro m hm
  rcases hm.cases_head with rfl | ⟨k, hk, hm⟩
  · exact hn
  · exact h k hk m hm

/-- The children of a part are found with all that stands inside of them. -/
lemma Grounded.child (h : n.Grounded tokens) (hm : m ∈ n.children) : m.Grounded tokens :=
  fun k hk => h k (.head hm hk)

/-- Inside a type there are types only, and they keep the rules that the type keeps. -/
lemma grounded_dataType {t : DataType} (hcan : t.Canonical)
    (htokens : tokens = before ++ (us ++ after)) (hus : us ∈ t.placed) :
    (dataType t).Grounded tokens := by
  intro m hm
  have htype : ∃ t', m = dataType t' ∧ t'.Canonical := by
    induction hm with
    | refl => exact ⟨t, rfl, hcan⟩
    | @tail k m _ hm ih =>
      obtain ⟨t', rfl, ht'⟩ := ih
      cases t' <;> simp only [children, List.mem_append, List.mem_map, List.mem_singleton,
        List.not_mem_nil, DataType.Canonical] at hm ht' <;> grind
  obtain ⟨t', rfl, ht'⟩ := htype
  obtain ⟨inner, vs, outer, rfl, hvs⟩ := hm.exists_placed hus
  exact ⟨before ++ inner, vs, outer ++ after, hvs, ht', by simp [htokens]⟩

/-- A reference to a tine has nothing inside of it that would have to be found. -/
lemma grounded_tineRef (r : TineRef) : (tineRef r).Grounded tokens :=
  grounded_of_children trivial fun _ h => nomatch h

/-- An operand among whose tokens nothing is split. -/
lemma found_of_calm {e : Expression} {τ : Mode} (hprimary : e.IsPrimary) (hcan : e.Canonical)
    (htokens : tokens = before ++ (us ++ after)) (hus : us ∈ e.placed)
    (hcalm : us ∈ Mode.calm (.operand 0) τ) : (expression e).Found tokens := by
  refine ⟨0, us, hus, hcan, .whole before us after htokens hcalm.settle_eq fun hminus => ?_⟩
  have hopens := hprimary.opensPrimary_of_mem (e.placed_le hus) []
  rw [List.append_nil, hminus] at hopens
  cases hopens

/-- A scalar literal is found: nothing is split in it. -/
lemma grounded_scalar {l : ScalarLiteral} (htokens : tokens = before ++ (us ++ after))
    (hus : us ∈ l.placed) : (expression (.scalar l)).Grounded tokens := by
  refine grounded_of_children ?_ fun _ h => nomatch h
  refine found_of_calm trivial ?_ htokens ?_
    (l.spelling_le_calm (Mode.angles_operand 0) (covering_le hus))
  · simp [Expression.Canonical, Expression.Everywhere, Expression.Ranked, Expression.Furnished]
  · rw [Expression.placed]
    exact hus

/-- All that stands inside a parameter that no token was split in is found. -/
lemma grounded_parameter {p : Parameter} (hcan : p.Canonical)
    (htokens : tokens = before ++ (us ++ after)) (hus : us ∈ p.placed) :
    (parameter p).Grounded tokens := by
  refine grounded_of_children trivial fun m hm => ?_
  obtain ⟨inner, vs, outer, rfl, hvs⟩ := (placed_le_rows (parameter p) hus).exists_placed hm
  have hplace : tokens = (before ++ inner) ++ (vs ++ (outer ++ after)) := by simp [htokens]
  rcases p with ⟨name, type, span⟩ | ⟨literal, type, span⟩
  · obtain ⟨t, ht, rfl⟩ := List.mem_map.1 hm
    exact grounded_dataType (hcan t (Option.mem_toList.1 ht)) hplace hvs
  · rcases List.mem_cons.1 hm with rfl | hm
    · rw [placed, Expression.placed] at hvs
      exact grounded_scalar hplace hvs
    · obtain ⟨t, ht, rfl⟩ := List.mem_map.1 hm
      exact grounded_dataType (hcan t (Option.mem_toList.1 ht)) hplace hvs

end Grounded

/-! ### The way down from a phrase -/

section Stands

variable {tokens outer rest settled : List Token} {n m : Node} {d : Nat}

/-- The part stands among settled tokens in a mode where it can. -/
structure Stands (settled : List Token) (d : Nat) (n : Node) : Prop where
  canonical : n.Canonical
  placed : ∃ before us after, settled = before ++ (us ++ after) ∧ us ∈ n.placed
    ∧ n.Opens ((Mode.operand d).after before)

/-- A phrase stands before an operand and leads behind one. -/
lemma placed_le_courses_of_isPhrase (hn : n.isPhrase = true) (depth : Nat) :
    n.placed ≤ courses (.operand depth) n.children (.behind depth) := by
  cases n with
  | expression e => exact e.placed_le_courses depth
  | fieldInit i => exact i.placed_le_courses depth
  | predicate p => exact p.placed_le_courses depth
  | _ => cases hn

/-- A phrase stands before an operand. -/
lemma Opens.exists_operand {σ : Mode} (h : n.Opens σ) (hn : n.isPhrase = true) :
    ∃ depth, σ = .operand depth := by
  cases n <;> first | exact h | cases hn

/-- Directly inside of a phrase there are phrases, parameters and names of tines. -/
lemma child_cases (hn : n.isPhrase = true) (hm : m ∈ n.children) :
    m.isPhrase = true ∨ (∃ p, m = parameter p) ∨ ∃ r, m = tineRef r := by
  cases n with
  | expression e => cases e <;> simp only [children] at hm <;> grind [isPhrase]
  | fieldInit i => cases i; simp only [children] at hm; grind [isPhrase]
  | predicate p => cases p <;> simp only [children] at hm <;> grind [isPhrase]
  | _ => cases hn

/-- What stands directly inside of a phrase keeps the rules that the phrase keeps.

**Proof sketch.** By the form of the phrase: being canonical is asked of everything that stands
inside of it. -/
lemma Canonical.child (h : n.Canonical) (hn : n.isPhrase = true) (hm : m ∈ n.children) :
    m.Canonical := by
  cases n with
  | expression e =>
    have h : e.Canonical := h
    cases e with
    | lambda params body span =>
      have hparams : ∀ p ∈ params, p.Canonical := h.root.2.2
      simp only [children, Expression.Canonical, Expression.Everywhere] at hm h
      grind [Canonical, Expression.Canonical]
    | _ =>
      simp only [children, Expression.Canonical, Expression.Everywhere] at hm h
      grind [Canonical, Expression.Canonical]
  | fieldInit i =>
    rcases i with ⟨name, value, span⟩
    obtain rfl := List.mem_singleton.1 hm
    have h : (FieldInit.mk name value span).Everywhere fun e => e.Ranked ∧ e.Furnished := h
    rwa [FieldInit.Everywhere] at h
  | predicate p =>
    have h : p.Canonical := h
    cases p <;> simp only [children, Predicate.Canonical, Expression.IsComparand] at hm h <;>
      grind [Canonical]
  | _ => cases hn

/-- What stands directly inside of a phrase stands among the settled tokens. -/
lemma Stands.child (h : n.Stands settled d) (hn : n.isPhrase = true) (hm : m ∈ n.children) :
    m.Stands settled d := by
  obtain ⟨before, us, after, rfl, hus, hopens⟩ := h.placed
  obtain ⟨depth, hdepth⟩ := hopens.exists_operand hn
  obtain ⟨inner, vs, outer, rfl, hvs, hm'⟩ :=
    (placed_le_courses_of_isPhrase hn depth hus).exists_part hm
  refine ⟨h.canonical.child hn hm, before ++ inner, vs, outer ++ after, by simp, hvs, ?_⟩
  rwa [Mode.after_append, hdepth]

/-- A phrase that stands among the settled tokens is found. -/
lemma Stands.found (htokens : tokens = outer ++ rest)
    (hminus : headKind rest = .symbol .minus → ∀ p ∈ outer.getLast?, p.kind.endsOperand = false)
    (h : n.Stands (settle (.operand d) rest) d) (hn : n.isPhrase = true) : n.Found tokens := by
  obtain ⟨before, us, after, heq, hus, hopens⟩ := h.placed
  obtain ⟨depth, hdepth⟩ := hopens.exists_operand hn
  have hlies := lies_of_settle htokens hminus heq hdepth
    (placed_le_courses_of_isPhrase hn depth hus).after_eq
  cases n with
  | expression e => exact ⟨depth, us, hus, h.canonical, hlies⟩
  | predicate p => exact ⟨depth, us, hus, h.canonical, hlies⟩
  | fieldInit i => exact trivial
  | _ => cases hn

/-- No token was split in a parameter that stands among the settled tokens. -/
lemma Stands.grounded_parameter {p : Parameter} (htokens : tokens = outer ++ rest)
    (h : (parameter p).Stands (settle (.operand d) rest) d) : (parameter p).Grounded tokens := by
  obtain ⟨before, us, after, heq, hus, depth, hdepth⟩ := h.placed
  obtain ⟨passed, rest', rfl, ⟨hsettle, -⟩ | ⟨_, _, _, _, -, hoperand, -⟩⟩ :=
    exists_settle_suffix before.length le_rfl heq
  · rw [hdepth] at hsettle
    obtain ⟨more, rfl⟩ := (p.spelling_le_calm (some depth) (p.placed_le hus)).exists_append hsettle
    have hplace : tokens = (outer ++ passed) ++ (us ++ more) := by simp [htokens]
    exact Node.grounded_parameter h.canonical hplace hus
  · rw [hdepth] at hoperand
    cases hoperand

/-- **All that stands inside a phrase is found**: the expressions, the predicates and the types in a
phrase with which settled tokens begin lie in the tokens.

**Proof sketch.** On the way down, a part is a phrase that stands among the settled tokens, or it is
  a part of a parameter or the name of a tine, where nothing is split. -/
theorem grounded_of_settle {us after : List Token} (htokens : tokens = outer ++ rest)
    (hminus : headKind rest = .symbol .minus → ∀ p ∈ outer.getLast?, p.kind.endsOperand = false)
    (h : settle (.operand 0) rest = us ++ after) (hn : n.isPhrase = true) (hcan : n.Canonical)
    (hus : us ∈ n.placed) : n.Grounded tokens := by
  have hstands : n.Stands (settle (.operand 0) rest) 0 := by
    refine ⟨hcan, [], us, after, h, hus, ?_⟩
    cases n <;> first | exact ⟨0, rfl⟩ | cases hn
  have hway : ∀ m, n.Has m → m.isPhrase = true ∧ m.Stands (settle (.operand 0) rest) 0
      ∨ m.Grounded tokens := by
    intro m hm
    induction hm with
    | refl => exact .inl ⟨hn, hstands⟩
    | @tail k m _ hm ih =>
      rcases ih with ⟨hk, hstands⟩ | hk
      · have hm' := hstands.child hk hm
        rcases child_cases hk hm with hphrase | ⟨p, rfl⟩ | ⟨r, rfl⟩
        · exact .inl ⟨hphrase, hm'⟩
        · exact .inr (hm'.grounded_parameter htokens)
        · exact .inr (grounded_tineRef r)
      · exact .inr (hk.child hm)
  intro m hm
  rcases hway m hm with ⟨hphrase, hm'⟩ | hground
  · exact hm'.found htokens hminus hphrase
  · exact hground m .refl

end Stands

end Node

end RakeLang
