import RakeLang.Proofs.Accepting.Trial
import RakeLang.Proofs.Reading.Predicate

/-!
# What the reader of predicates accepts

Every canonical predicate is read from each of its plain spellings, before a closing parenthesis or
the end of the input.  At a parenthesis a comparison is tried first.  Where the parenthesis belongs
to an operand, the comparison is accepted; where it opens a group, the comparison is refused, since
the group is refused as an expression or gives one with no comparison behind it.  The refused trial
has split nothing, so that the group is read from the tokens as they were.

## Main definitions

* `RakeLang.Parser.Covers` — the predicates of a layer are accepted.

## Main results

* `RakeLang.Parser.comparison_refuses` — the tokens of a group are no comparison.
* `RakeLang.Parser.predicate_accepts` — predicates.
* `RakeLang.Parser.predicate_exact` — predicates are read from their spellings and from nothing
  else.
-/

set_option relaxedAutoImplicit false
set_option autoImplicit false

namespace RakeLang

open Spelling Token Expression

/-- The first token behind a predicate. -/
lemma EndsPredicate.headKind_of {n : Nat} {rest : List Token} (h : EndsPredicate n rest) :
    headKind rest = .symbol .rParen ∨ headKind rest = .eof
      ∨ (headKind rest = .symbol .pipePipe ∨ headKind rest = .keyword .or)
      ∨ (headKind rest = .symbol .ampAmp ∨ headKind rest = .keyword .and) := by
  rcases h with h | h | ⟨m, -, hop⟩
  · exact .inl h
  · exact .inr (.inl h)
  · rcases m with _ | m
    · exact .inr (.inr (.inl (Kind.binaryOp?_eq_or.1 hop)))
    · exact .inr (.inr (.inr (Kind.binaryOp?_eq_and.1 hop)))

/-- The operator of a layer does not stand behind a predicate of the layer. -/
lemma EndsPredicate.binaryOp?_ne {n : Nat} {rest : List Token} (hn : n < 2)
    (h : EndsPredicate n rest) : (headKind rest).binaryOp? ≠ some (Predicate.jointOp n) := by
  rcases h with h | h | ⟨m, hm, hop⟩
  · simp [h, Kind.binaryOp?]
  · simp [h, Kind.binaryOp?]
  · obtain ⟨rfl, rfl⟩ : m = 0 ∧ n = 1 := by omega
    simp [hop]

/-- An atom begins with no sign of negation.

**Proof sketch.** By the constructor of the atom.  That the left operand of a comparison begins with
no such sign is a condition on its spelling. -/
lemma Predicate.headKind_ne_of_isAtom {p : Predicate} (hatom : p.isAtom = true)
    (hcan : p.Canonical) {ts : List Token} (hts : ts ∈ p.plainSpelling) (rest : List Token) :
    headKind (ts ++ rest) ≠ .symbol .bang ∧ headKind (ts ++ rest) ≠ .keyword .not := by
  cases p with
  | or | and | not => cases hatom
  | compare op lhs rhs span =>
    obtain ⟨us, ⟨hus, hhead⟩, vs, -, rfl⟩ := Language.mem_mul.1 hts
    have hne : us ≠ [] := fun h => hcan.1.1.nil_notMem_spelling (h ▸ hus)
    rw [List.append_assoc, headKind_append hne]
    simpa using hhead
  | tineTest tine =>
    obtain ⟨t, ht, rfl⟩ := hts
    simp [ht.1]
  | group inner span =>
    obtain ⟨t, us, ht, -, rfl⟩ := mem_token_mul.1 hts
    simp [ht]
  | const value span =>
    cases value
    all_goals
      obtain ⟨t, ht, rfl⟩ := hts
      simp [ht]

namespace Parser

variable {ts us os rest : List Token}

/-! ## Comparisons -/

/-- An operand of a comparison is accepted from each of its spellings, before what does not go on
with it. -/
lemma comparand_accepts {e : Expression} (he : e.IsComparand) (hts : ts ∈ e.spelling)
    (hrest : EndsChain Level.arithmetic rest) :
    comparand.Accepts ts rest fun e' => e'.withoutSpans = e.withoutSpans := by
  have hinner : Complete expression ts.length :=
    fun e hcan ts hts _ rest hrest => expression_accepts hcan hts hrest
  exact chain_accepts hinner Level.pairwise_arithmetic he hts (by omega) hrest

/-- Where no left arrow stands, none is split. -/
lemma splitArrow_bind_accepts {α : Type} {f : Unit → Parser α} {Q : α → Prop}
    (harrow : headKind (ts ++ rest) ≠ .symbol .leftArrow) (h : (f ()).Accepts ts rest Q) :
    ((modify splitArrow : Parser Unit) >>= f).Accepts ts rest Q := by
  intro c hc
  obtain ⟨a, ha, hf⟩ := h c hc
  have hsplit : splitArrow c = c := by
    rw [← hc] at harrow
    have hnone : Token.splitArrow? c.ahead = none := by
      rcases hahead : c.ahead with _ | ⟨t, more⟩
      · rfl
      · rw [Token.splitArrow?, if_neg (by simpa [hahead] using harrow)]
    simp [splitArrow, Cursor.splitArrow?, hnone]
  refine ⟨a, ha, bind_eq_ok.2 ⟨(), c, ?_, hf⟩⟩
  change EStateM.Result.ok () (splitArrow c) = _
  rw [hsplit]

/-- A comparison is accepted; behind the word `is` the word `not` would belong to it.

**Proof sketch.** No comparison is spelled by an arrow, so that nothing is split.  The word `is` and
the two words `is not` are told apart by what follows the first; the other comparisons are single
signs. -/
lemma compareOperator?_accepts {op : CompareOp} (hos : os ∈ op.spelling)
    (hnot : op = .is → headKind rest ≠ .keyword .not) :
    compareOperator?.Accepts os rest (· = some op) := by
  have harrow : headKind (os ++ rest) ≠ .symbol .leftArrow := by
    rcases CompareOp.headKind_of_mem hos with h | ⟨t, rfl, ht⟩
    · have hne : os ≠ [] := by
        rintro rfl
        simp at h
      simp [headKind_append hne, h]
    · intro h
      rw [List.singleton_append, headKind_cons] at h
      simp [h, Kind.compareOp?] at ht
  unfold compareOperator?
  refine splitArrow_bind_accepts harrow (.peekKind_bind ?_)
  rcases hop : op
  case is =>
    obtain ⟨t, ht, rfl⟩ : os ∈ CompareOp.spelling .is := hop ▸ hos
    rw [List.singleton_append, headKind_cons, ht]
    exact .advance_bind (.eat_bind_false (hnot hop) (.pure rfl))
  case isNot =>
    obtain ⟨t, _, ht, ⟨u, hu, rfl⟩, rfl⟩ := mem_token_mul.1 (show os ∈ _ * _ from hop ▸ hos)
    rw [List.cons_append, headKind_cons, ht]
    exact .advance_bind (.eat_bind_true hu (.pure rfl))
  all_goals
    obtain ⟨t, ht, rfl⟩ : os ∈ token fun t => t.kind.compareOp? = some op := by rwa [hop] at hos ⊢
    rw [hop] at ht
    rw [List.singleton_append, headKind_cons]
    split
    · rename_i his
      simp [his, Kind.compareOp?] at ht
    · rw [ht]
      exact .advance_bind (.pure rfl)

/-- No comparison stands behind a predicate. -/
lemma compareOperator?_stops (hrest : EndsPredicate 2 rest) :
    compareOperator?.Accepts [] rest (· = none) := by
  unfold compareOperator?
  refine splitArrow_bind_accepts ?_ (.peekKind_bind ?_)
  · rcases hrest.headKind_of with h | h | (h | h) | (h | h) <;> simp [h]
  · rw [List.nil_append]
    rcases hrest.headKind_of with h | h | (h | h) | (h | h)
    all_goals
      rw [h]
      exact .pure rfl

/-- A comparison of two operands is read.

**Proof sketch.** The sign ends the left operand, since it binds looser than arithmetic, and the
right operand ends where the predicate does.  Behind the word `is` the right operand begins with no
`not`. -/
lemma compare_accepts {op : CompareOp} {lhs rhs : Expression} {span : Span}
    (hcan : (Predicate.compare op lhs rhs span).Canonical)
    (hts : ts ∈ (Predicate.compare op lhs rhs span).plainSpelling) (hrest : EndsPredicate 2 rest) :
    comparison.Accepts ts rest fun p =>
      p.withoutSpans = (Predicate.compare op lhs rhs span).withoutSpans := by
  obtain ⟨ls, ⟨hls, -⟩, _, hws, rfl⟩ := Language.mem_mul.1 hts
  obtain ⟨os, hos, rs, ⟨hrs, hhead⟩, rfl⟩ := Language.mem_mul.1 hws
  have hends : EndsChain Level.arithmetic (os ++ rs ++ rest) := by
    rw [List.append_assoc]
    rcases CompareOp.headKind_of_mem hos with h | ⟨t, rfl, ht⟩
    · refine endsChain_of_is ?_
      rwa [headKind_append]
      rintro rfl
      simp at h
    · obtain ⟨op', hop', hlevel⟩ := Kind.binaryOp?_of_compareOp? ht
      exact endsChain_of_binaryOp? hop' (by simp [hlevel, Level.arithmetic])
  have hnot : op = .is → headKind (rs ++ rest) ≠ .keyword .not := by
    rintro rfl
    rw [headKind_append fun h => hcan.2.1.nil_notMem_spelling (h ▸ hrs)]
    simpa using hhead
  unfold comparison
  refine (comparand_accepts hcan.1 hls hends).bind fun lhs' hlhs' => ?_
  refine (compareOperator?_accepts hos hnot).bind ?_
  rintro _ rfl
  refine (comparand_accepts hcan.2 hrs (hrest.endsChain (by decide))).bind_nil fun rhs' hrhs' => ?_
  exact .pure (by simp [Predicate.withoutSpans, hlhs', hrhs'])

/-- A truth value that stands alone is read as a constant.

**Proof sketch.** The word is the spelling of a truth value as an expression too, and is read as a
comparand.  No comparison follows by `hrest`, and the expression that was read differs from the
truth value in its spans at most, so it is one, and a truth value alone is a constant. -/
lemma const_accepts {value : Bool} {span : Span}
    (hts : ts ∈ (Predicate.const value span).plainSpelling) (hrest : EndsPredicate 2 rest) :
    comparison.Accepts ts rest fun p =>
      p.withoutSpans = (Predicate.const value span).withoutSpans := by
  have hspelled : ts ∈ (Expression.bool value .origin).spelling := by
    rw [Expression.spelling]
    exact hts
  unfold comparison
  refine (comparand_accepts (isChain_bool _ _) hspelled (hrest.endsChain (by decide))).bind_nil
    fun e he => (compareOperator?_stops hrest).bind_nil ?_
  rintro _ rfl
  rw [Expression.withoutSpans] at he
  cases e
  case bool value' span' =>
    rw [Expression.withoutSpans] at he
    obtain ⟨rfl, -⟩ := Expression.bool.inj he
    exact .pure rfl
  all_goals
    rw [Expression.withoutSpans] at he
    cases he

/-- The tokens of a group are no comparison: this is refused, and no token is split meanwhile. -/
theorem comparison_refuses {p : Predicate} {span : Span} {c : Cursor}
    (hcan : (Predicate.group p span).Canonical)
    (hts : ts ∈ (Predicate.group p span).plainSpelling) (hrest : EndsPredicate 2 rest)
    (hc : c.ahead = ts ++ rest) : comparison.Ensures Eq c fun _ _ _ => False := by
  unfold comparison
  refine (comparand_encloses hcan hts hrest hc).bind fun e us c₁ _ he => ?_
  refine ((compareOperator?_stops hrest).ensures he.2).bind ?_
  rintro _ _ c₂ - ⟨rfl, -⟩
  cases e
  case bool value span => exact absurd rfl (he.1 value span)
  all_goals exact .unexpected

/-! ## Choices -/

section Choices

variable {α : Type} {first second : Parser α} {Q : α → Prop}

/-- What the first alternative accepts is accepted by the choice. -/
lemma Accepts.orElseHere_left (h : first.Accepts ts rest Q) :
    (orElseHere first second).Accepts ts rest Q := by
  intro c hc
  obtain ⟨a, ha, hp⟩ := h c hc
  exact ⟨a, ha, by simp [orElseHere, hp]⟩

/-- Where the first alternative is refused and splits nothing, what the second one accepts is
accepted by the choice: the cursor goes back to the tokens as they were. -/
lemma Accepts.orElseHere_right
    (hfirst : ∀ c : Cursor, c.ahead = ts ++ rest → first.Ensures Eq c fun _ _ _ => False)
    (hsecond : second.Accepts ts rest Q) : (orElseHere first second).Accepts ts rest Q := by
  intro c hc
  obtain ⟨a, ha, hp⟩ := hsecond c hc
  refine ⟨a, ha, ?_⟩
  rcases h₁ : first c with ⟨b, c₁⟩ | ⟨fault, c₁⟩
  · obtain ⟨_, -, hfalse⟩ := (hfirst c hc).ok b c₁ h₁
    exact hfalse.elim
  · obtain ⟨read, hread⟩ := (hfirst c hc).error fault c₁ h₁
    have hback : c₁.seek c.position = c := by rw [hread.seek, ← hread.ahead]
    simp [orElseHere, h₁, hback, hp]

end Choices

/-! ## Atoms -/

/-- The predicates of tightness `layer` or more with at most `n` tokens are accepted. -/
def Covers (parser : Parser Predicate) (layer n : Nat) : Prop :=
  ∀ p : Predicate, p.Canonical → layer ≤ p.tightness → ∀ ts ∈ p.plainSpelling, ts.length ≤ n →
    ∀ rest, EndsPredicate layer rest →
      parser.Accepts ts rest fun p' => p'.withoutSpans = p.withoutSpans

variable {inner : Parser Predicate} {n : Nat}

/-- The test of a tine is read. -/
lemma tineTest_accepts {tine : TineRef} (hts : ts ∈ (Predicate.tineTest tine).plainSpelling) :
    (predicateAtom inner).Accepts ts rest fun p =>
      p.withoutSpans = (Predicate.tineTest tine).withoutSpans := by
  obtain ⟨t, ht, rfl⟩ := hts
  unfold predicateAtom
  apply Accepts.peekKind_bind
  rw [List.singleton_append, headKind_cons, ht.1]
  have htine : tineRef.Accepts [t] rest fun tine' => tine'.name = tine.name := by
    unfold tineRef
    exact .expect_bind ht.1 (.pure ht.2)
  exact htine.bind_nil fun tine' htine' => .pure (by simp [Predicate.withoutSpans, htine'])

/-- A predicate in parentheses is read, as a group. -/
lemma group_accepts (hinner : Covers inner 0 n) {p : Predicate} {span : Span}
    (hcan : (Predicate.group p span).Canonical)
    (hts : ts ∈ (Predicate.group p span).plainSpelling) (hlen : ts.length ≤ n + 1) :
    (group inner).Accepts ts rest fun p' =>
      p'.withoutSpans = (Predicate.group p span).withoutSpans := by
  obtain ⟨lp, _, hlp, hws, rfl⟩ := mem_token_mul.1 hts
  obtain ⟨us, hus, _, ⟨rp, hrp, rfl⟩, rfl⟩ := Language.mem_mul.1 hws
  simp only [List.length_cons, List.length_append, List.length_nil] at hlen
  unfold group
  have hclose : EndsPredicate 0 ([rp] ++ rest) := .inl hrp
  refine .expect_bind hlp ?_
  refine (hinner p hcan (Nat.zero_le _) us hus (by omega) _ hclose).bind fun p' hp' => ?_
  exact .expect_bind hrp (.spanFrom_bind fun span' => .pure (by simp [Predicate.withoutSpans, hp']))

/-- A parenthesis at the head of a comparison belongs to its left operand, and one at the head of a
group opens the group.

**Proof sketch.** A comparison and a constant are read by the trial at a parenthesis too, since it
is tried first.  A group is no comparison (`comparison_refuses`), and the refused trial has split
nothing. -/
lemma predicateAtom_accepts (hinner : Covers inner 0 n) {p : Predicate} (hatom : p.isAtom = true)
    (hcan : p.Canonical) (hts : ts ∈ p.plainSpelling) (hlen : ts.length ≤ n + 1)
    (hrest : EndsPredicate 2 rest) :
    (predicateAtom inner).Accepts ts rest fun p' => p'.withoutSpans = p.withoutSpans := by
  have hcomparison : headKind (ts ++ rest) ≠ .tineRef →
      comparison.Accepts ts rest (fun p' => p'.withoutSpans = p.withoutSpans) →
      (predicateAtom inner).Accepts ts rest fun p' => p'.withoutSpans = p.withoutSpans := by
    intro htine haccepts
    unfold predicateAtom
    apply Accepts.peekKind_bind
    split
    · contradiction
    · exact haccepts.orElseHere_left
    · exact haccepts
  cases p with
  | or | and | not => cases hatom
  | compare op lhs rhs span =>
    refine hcomparison ?_ (compare_accepts hcan hts hrest)
    obtain ⟨us, ⟨hus, -⟩, vs, -, rfl⟩ := Language.mem_mul.1 hts
    rw [List.append_assoc]
    exact headKind_ne_of_mem hcan.1.1 hus rfl (vs ++ rest)
  | const value span =>
    refine hcomparison ?_ (const_accepts hts hrest)
    cases value
    all_goals
      obtain ⟨t, ht, rfl⟩ := hts
      simp [ht]
  | tineTest tine => exact tineTest_accepts hts
  | group p span =>
    have hgroup : (orElseHere comparison (group inner)).Accepts ts rest fun p' =>
        p'.withoutSpans = (Predicate.group p span).withoutSpans :=
      .orElseHere_right (fun c hc => comparison_refuses hcan hts hrest hc)
        (group_accepts hinner hcan hts hlen)
    obtain ⟨lp, us, hlp, -, rfl⟩ := mem_token_mul.1 hts
    unfold predicateAtom
    apply Accepts.peekKind_bind
    rw [List.cons_append, headKind_cons, hlp]
    exact hgroup

/-! ## Logic -/

/-- A negation is read. -/
lemma notOperator?_accepts {t : Token} (ht : [t] ∈ notSign) :
    notOperator?.Accepts [t] rest fun o => ∃ op, o = some op ∧ True := by
  unfold notOperator?
  apply Accepts.peekKind_bind
  rw [List.singleton_append, headKind_cons]
  rcases singleton_mem_token.1 ht with h | h
  all_goals
    rw [h]
    exact .advance_bind (.pure ⟨_, rfl, trivial⟩)

/-- Where no negation stands, none is read. -/
lemma notOperator?_stops (hbang : headKind rest ≠ .symbol .bang)
    (hnot : headKind rest ≠ .keyword .not) : notOperator?.Accepts [] rest (· = none) := by
  unfold notOperator?
  apply Accepts.peekKind_bind
  rw [List.nil_append]
  split
  · contradiction
  · contradiction
  · exact .pure rfl

/-- A predicate without a looser operator is read by the signs of negation in front of it and its
atom.

**Proof sketch.** Induction on the predicate. -/
lemma negation_prefixes (hinner : Covers inner 0 n) {p : Predicate} (hcan : p.Canonical)
    (htight : 2 ≤ p.tightness) (hrest : EndsPredicate 2 rest) :
    ∀ {ts : List Token}, ts ∈ p.plainSpelling → ts.length ≤ n + 1 →
      Prefixes notOperator? (predicateAtom inner) applyNot ts rest
        fun p' => p'.withoutSpans = p.withoutSpans := by
  have hatom : ∀ p : Predicate, p.isAtom = true → p.Canonical → ∀ {ts : List Token},
      ts ∈ p.plainSpelling → ts.length ≤ n + 1 →
      Prefixes notOperator? (predicateAtom inner) applyNot ts rest
        fun p' => p'.withoutSpans = p.withoutSpans := by
    intro p hatom hcan ts hts hlen
    obtain ⟨hbang, hnot⟩ := Predicate.headKind_ne_of_isAtom hatom hcan hts rest
    exact .of_operand (notOperator?_stops hbang hnot)
      (predicateAtom_accepts hinner hatom hcan hts hlen hrest)
  induction p with
  | or | and => simp [Predicate.tightness] at htight
  | not operand span ih =>
    intro ts hts hlen
    obtain ⟨t, us, ht, hus, rfl⟩ := mem_token_mul.1 hts
    rw [List.length_cons] at hlen
    rw [← List.singleton_append]
    refine .cons (notOperator?_accepts (singleton_mem_token.2 ht)) (by simp)
      (ih hcan.2 hcan.1 hus (by omega)) ?_
    exact fun start p' _ hp' => by simp [applyNot, Predicate.withoutSpans, hp']
  | compare | tineTest | group | const =>
    intro ts hts hlen
    exact hatom _ rfl hcan hts hlen

/-- The layer of negations and atoms is accepted. -/
lemma negation_covers (hinner : Covers inner 0 n) : Covers (negation inner) 2 (n + 1) :=
  fun _ hcan htight _ hts hlen _ hrest =>
    (negation_prefixes hinner hcan htight hrest hts hlen).accepts

section Layers

variable {operator : Parser (Option Unit)} {operand : Parser Predicate}
  {combine : Predicate → Unit → Predicate → Predicate} {k : Nat}

/-- A chain of predicates of a layer is in progress before what can stand behind a tighter one.

**Proof sketch.** Induction along the left parts, which shorten the list of tokens.  Behind the
left part the operator of the layer stands, and the right part is of a tighter layer. -/
lemma layer_chains (hn : n < 2)
    (hoperator : ∀ (t : Token) (rest : List Token),
      t.kind.binaryOp? = some (Predicate.jointOp n) →
        operator.Accepts [t] rest fun o => ∃ op, o = some op ∧ True)
    (hoperand : Covers operand (n + 1) k)
    (hcombine : ∀ p lhs rhs lhs' rhs' : Predicate, Predicate.Joins n p lhs rhs →
      lhs'.withoutSpans = lhs.withoutSpans → rhs'.withoutSpans = rhs.withoutSpans →
        (combine lhs' () rhs').withoutSpans = p.withoutSpans) {p : Predicate} (hcan : p.Canonical)
    (htight : n ≤ p.tightness) (hts : ts ∈ p.plainSpelling) (hlen : ts.length ≤ k)
    (hrest : EndsPredicate (n + 1) rest) :
    Chains operator operand combine ts rest fun p' => p'.withoutSpans = p.withoutSpans := by
  induction hlength : ts.length using Nat.strong_induction_on generalizing p ts rest with
  | _ length ih =>
    rcases Predicate.lt_tightness_or_joins hn htight with hlt | ⟨lhs, rhs, hjoins⟩
    · exact .of_first (hoperand p hcan hlt ts hts hlen rest hrest)
    · obtain ⟨⟨hlt, hlhs⟩, hrt, hrhs⟩ := hjoins.canonical hcan
      rw [hjoins.plainSpelling] at hts
      obtain ⟨us, hus, _, hws, rfl⟩ := Language.mem_mul.1 hts
      obtain ⟨t, vs, ht, hvs, rfl⟩ := mem_token_mul.1 hws
      simp only [List.length_append, List.length_cons] at hlen hlength
      have hleft : Chains operator operand combine us ([t] ++ (vs ++ rest))
          fun p' => p'.withoutSpans = lhs.withoutSpans :=
        ih us.length (by omega) hlhs hlt hus (by omega) (.inr (.inr ⟨n, by omega, ht⟩)) rfl
      have hright : operand.Accepts vs rest fun p' => p'.withoutSpans = rhs.withoutSpans :=
        hoperand rhs hrhs hrt vs hvs (by omega) rest hrest
      rw [← List.singleton_append]
      exact hleft.next (by simp) (hoperator t _ ht) hright
        fun lhs' _ rhs' hlhs' _ hrhs' => hcombine p lhs rhs lhs' rhs' hjoins hlhs' hrhs'

/-- The predicates of a layer are accepted, if those of the tighter layers are. -/
lemma layer_covers (hn : n < 2)
    (hoperator : ∀ (t : Token) (rest : List Token),
      t.kind.binaryOp? = some (Predicate.jointOp n) →
        operator.Accepts [t] rest fun o => ∃ op, o = some op ∧ True)
    (hstops : ∀ rest, (headKind rest).binaryOp? ≠ some (Predicate.jointOp n) →
      operator.Accepts [] rest (· = none))
    (hoperand : Covers operand (n + 1) k)
    (hcombine : ∀ p lhs rhs lhs' rhs' : Predicate, Predicate.Joins n p lhs rhs →
      lhs'.withoutSpans = lhs.withoutSpans → rhs'.withoutSpans = rhs.withoutSpans →
        (combine lhs' () rhs').withoutSpans = p.withoutSpans) :
    Covers (leftAssoc operator operand combine) n k :=
  fun _ hcan htight _ hts hlen rest hrest =>
    (layer_chains hn hoperator hoperand hcombine hcan htight hts hlen hrest.succ).leftAssoc
      (hstops rest (hrest.binaryOp?_ne hn))

end Layers

/-- The layer of conjunctions is accepted.

**Proof sketch.** An instance of `layer_covers`.  The operator of the layer is one of two tokens,
which is `Kind.binaryOp?_eq_and`; the same table shows that no token which ends the layer is one of
them. -/
lemma conjunction_covers (hinner : Covers inner 0 n) : Covers (conjunction inner) 1 (n + 1) := by
  refine layer_covers (by decide) ?_ ?_ (negation_covers hinner) ?_
  · intro t rest ht
    unfold andOperator?
    apply Accepts.peekKind_bind
    rw [List.singleton_append, headKind_cons]
    rcases Kind.binaryOp?_eq_and.1 ht with h | h
    all_goals
      rw [h]
      exact .advance_bind (.pure ⟨_, rfl, trivial⟩)
  · intro rest hrest
    unfold andOperator?
    apply Accepts.peekKind_bind
    rw [List.nil_append]
    split
    case h_1 h | h_2 h => simp [h, Kind.binaryOp?] at hrest
    case h_3 => exact .pure rfl
  · rintro _ lhs rhs lhs' rhs' ⟨⟩ hl hr
    simp [applyAnd, Predicate.withoutSpans, hl, hr]

/-- The layer of disjunctions is accepted.

**Proof sketch.** As in `conjunction_covers`, one layer up, with `Kind.binaryOp?_eq_or`. -/
lemma predicateWith_covers (hinner : Covers inner 0 n) :
    Covers (predicateWith inner) 0 (n + 1) := by
  refine layer_covers (by decide) ?_ ?_ (conjunction_covers hinner) ?_
  · intro t rest ht
    unfold orOperator?
    apply Accepts.peekKind_bind
    rw [List.singleton_append, headKind_cons]
    rcases Kind.binaryOp?_eq_or.1 ht with h | h
    all_goals
      rw [h]
      exact .advance_bind (.pure ⟨_, rfl, trivial⟩)
  · intro rest hrest
    unfold orOperator?
    apply Accepts.peekKind_bind
    rw [List.nil_append]
    split
    case h_1 h | h_2 h => simp [h, Kind.binaryOp?] at hrest
    case h_3 => exact .pure rfl
  · rintro _ lhs rhs lhs' rhs' ⟨⟩ hl hr
    simp [applyOr, Predicate.withoutSpans, hl, hr]

/-! ## Predicates -/

/-- The reader of predicates under a bound is complete for the spellings that are no longer than the
bound. -/
lemma predicateUpTo_covers (n : Nat) : Covers (predicateUpTo n) 0 n := by
  induction n with
  | zero =>
    intro p hcan _ ts hts hlen
    obtain rfl : ts = [] := by simpa using hlen
    have hopens := p.opens_of_mem hcan hts []
    simp [Kind.opensExpression, Kind.opensPrimary] at hopens
  | succ n ih => exact predicateWith_covers ih

/-- A canonical predicate is accepted from each of its plain spellings, before what can stand
behind a predicate. -/
theorem predicate_accepts {p : Predicate} (hcan : p.Canonical) (hts : ts ∈ p.plainSpelling)
    (hrest : EndsPredicate 0 rest) :
    predicate.Accepts ts rest fun p' => p'.withoutSpans = p.withoutSpans :=
  .of_remaining fun n hn => predicateUpTo_covers n p hcan (Nat.zero_le _) ts hts hn rest hrest

/-- Predicates are read from their spellings and from nothing else.  What is read at a cursor is
canonical and spells the tokens that were read, as they were split meanwhile.  Conversely, with a
plain spelling of a canonical predicate ahead and behind it a closing parenthesis or the end of the
input, that predicate is read up to its spans, and the cursor stops exactly behind its spelling. -/
theorem predicate_exact (c : Cursor) :
    (∀ p c', predicate c = .ok p c' →
      ∃ ts, c.Reads SplitsTo ts c' ∧ ts ∈ p.spelling ∧ p.Canonical)
    ∧ ∀ (p : Predicate) (ts rest : List Token), p.Canonical → ts ∈ p.plainSpelling →
      c.ahead = ts ++ rest → (headKind rest = .symbol .rParen ∨ headKind rest = .eof) →
        ∃ p' c', predicate c = .ok p' c' ∧ p'.withoutSpans = p.withoutSpans
          ∧ c'.past = ts.reverse ++ c.past ∧ c'.ahead = rest := by
  refine ⟨fun p c' h => (predicate_ensures c).ok p c' h, ?_⟩
  intro p ts rest hcan hts hc hrest
  have hends : EndsPredicate 0 rest := by
    rcases hrest with h | h
    · exact .inl h
    · exact .inr (.inl h)
  obtain ⟨p', hp', hread⟩ := predicate_accepts hcan hts hends c hc
  exact ⟨p', c.behind ts rest, hread, hp', rfl, rfl⟩

/-- A comparison in parentheses is read as a group, before another parenthesis. -/
theorem predicate_exact_group :
    ∃ p c', predicate ⟨[], [⟨.symbol .lParen, "(", .origin⟩, ⟨.ident, "a", .origin⟩,
        ⟨.symbol .less, "<", .origin⟩, ⟨.ident, "b", .origin⟩, ⟨.symbol .rParen, ")", .origin⟩,
        ⟨.symbol .rParen, ")", .origin⟩], ⟨.eof, "", .origin⟩, rfl⟩ = .ok p c'
      ∧ p.withoutSpans = .group (.compare .less (.ident "a" .origin) (.ident "b" .origin) .origin)
        .origin
      ∧ c'.ahead = [⟨.symbol .rParen, ")", .origin⟩] ∧ p.Canonical := by
  have hcomparand : ∀ name : String, (Expression.ident name .origin).IsComparand := fun name =>
    ⟨by simp [Expression.Canonical, Everywhere, Ranked, Furnished], trivial⟩
  have hcan : (Predicate.group (.compare .less (.ident "a" .origin) (.ident "b" .origin) .origin)
      .origin).Canonical := ⟨hcomparand "a", hcomparand "b"⟩
  have hts : [⟨.symbol .lParen, "(", .origin⟩, ⟨.ident, "a", .origin⟩,
      ⟨.symbol .less, "<", .origin⟩, ⟨.ident, "b", .origin⟩, ⟨.symbol .rParen, ")", .origin⟩]
      ∈ (Predicate.group (.compare .less (.ident "a" .origin) (.ident "b" .origin) .origin)
        .origin).plainSpelling := by
    have hname : ∀ (name : String) (kinds : List Kind), .ident ∉ kinds →
        [⟨.ident, name, .origin⟩] ∈ notBeginning kinds (Expression.ident name .origin).spelling :=
      fun name kinds h => ⟨by simp [Expression.spelling, word], h⟩
    have hinner : [⟨.ident, "a", .origin⟩, ⟨.symbol .less, "<", .origin⟩, ⟨.ident, "b", .origin⟩]
        ∈ (Predicate.compare .less (.ident "a" .origin) (.ident "b" .origin)
          .origin).plainSpelling := by
      have hless : [⟨.symbol .less, "<", .origin⟩] ∈ CompareOp.spelling .less := ⟨_, rfl, rfl⟩
      exact Language.append_mem_mul (hname "a" [.symbol .bang, .keyword .not] (by decide))
        (Language.append_mem_mul hless (hname "b" [] (by decide)))
    exact cons_mem_token_mul.2 ⟨rfl, append_singleton_mem hinner rfl⟩
  obtain ⟨p, c', hread, hp, -, hahead⟩ := (predicate_exact ⟨[], _, ⟨.eof, "", .origin⟩, rfl⟩).2
    _ _ [⟨.symbol .rParen, ")", .origin⟩] hcan hts rfl (.inl rfl)
  obtain ⟨-, -, -, hcan'⟩ := (predicate_exact _).1 p c' hread
  refine ⟨p, c', hread, ?_, hahead, hcan'⟩
  rw [hp]
  simp [Predicate.withoutSpans, Expression.withoutSpans]

end Parser

end RakeLang
