import RakeLang.Proofs.Accepting.Expression
import RakeLang.Proofs.Canonical.Predicate
import RakeLang.Proofs.Spelling.Definition

/-!
# What the reader of expressions makes of a predicate

A comparison is tried at every parenthesis, so the reader of expressions meets the tokens of
predicates.  It takes "and", "or", "not" and most comparisons for operators of its own, and goes
on until the word `is`, where it stops, or until the mention of a tine, where it is refused.  In
parentheses it succeeds only behind the counterpart, with an expression that is no truth value.
It splits nothing on its way, since a token that could be split stands behind no operand of a
predicate.

## Main definitions

* `RakeLang.Predicate.Joins` — the two predicates that an operator of logic joins.
* `RakeLang.EndsPredicate` — what can stand behind a predicate.
* `RakeLang.Expression.negateFirst` — the expression that the tokens of another one spell behind a
  sign of negation.
* `RakeLang.Parser.Tries` — a reading that splits nothing and stops before the word `is`, if not
  at the end.
* `RakeLang.Parser.Trial` — the predicates of a layer are tried.

## Main results

* `RakeLang.Parser.expression_trial` — the reader of expressions on the tokens of a predicate.
* `RakeLang.Parser.comparand_encloses` — the reader of operands on the tokens of a group.
-/

set_option relaxedAutoImplicit false
set_option autoImplicit false

namespace RakeLang

open Spelling Token Expression

/-! ## Layers -/

namespace Predicate

/-- The operator of logic that joins predicates of tightness `n`. -/
def jointOp : Nat → BinaryOp
  | 0 => .or
  | _ => .and

/-- The operator of the outer layer is "or". -/
@[simp] lemma jointOp_zero : jointOp 0 = .or := rfl

/-- The operator of the inner layer is "and". -/
@[simp] lemma jointOp_one : jointOp 1 = .and := rfl

/-- The predicate of tightness `n` joins two predicates by an operator of logic. -/
inductive Joins : Nat → Predicate → Predicate → Predicate → Prop
  | or (lhs rhs : Predicate) (span : Span) : Joins 0 (.or lhs rhs span) lhs rhs
  | and (lhs rhs : Predicate) (span : Span) : Joins 1 (.and lhs rhs span) lhs rhs

variable {n : Nat} {p lhs rhs : Predicate}

/-- A predicate of tightness `n` joins two others, unless it has no operator of logic. -/
lemma lt_tightness_or_joins (hn : n < 2) (h : n ≤ p.tightness) :
    n + 1 ≤ p.tightness ∨ ∃ lhs rhs, Joins n p lhs rhs := by
  cases p with
  | or lhs rhs span =>
    obtain rfl : n = 0 := Nat.le_zero.1 h
    exact .inr ⟨lhs, rhs, .or lhs rhs span⟩
  | and lhs rhs span =>
    rcases Nat.eq_zero_or_pos n with rfl | hpos
    · exact .inl le_rfl
    · obtain rfl : n = 1 := by omega
      exact .inr ⟨lhs, rhs, .and lhs rhs span⟩
  | not | compare | tineTest | group | const => exact .inl (Nat.succ_le_of_lt hn)

/-- The layers of a canonical predicate: the left part is of the same layer and the right part of
a tighter one. -/
lemma Joins.canonical (h : Joins n p lhs rhs) (hcan : p.Canonical) :
    (n ≤ lhs.tightness ∧ lhs.Canonical) ∧ n + 1 ≤ rhs.tightness ∧ rhs.Canonical := by
  cases h with
  | or => exact ⟨⟨Nat.zero_le _, hcan.2.1⟩, hcan.1, hcan.2.2⟩
  | and => exact ⟨⟨hcan.1, hcan.2.2.1⟩, hcan.2.1, hcan.2.2.2⟩

end Predicate

/-- The sign and the word for "or" spell one operator of expressions. -/
lemma Kind.binaryOp?_eq_or {kind : Kind} :
    kind.binaryOp? = some .or ↔ kind = .symbol .pipePipe ∨ kind = .keyword .or := by
  unfold binaryOp?
  split <;> simp_all

/-- The sign and the word for "and" spell one operator of expressions. -/
lemma Kind.binaryOp?_eq_and {kind : Kind} :
    kind.binaryOp? = some .and ↔ kind = .symbol .ampAmp ∨ kind = .keyword .and := by
  unfold binaryOp?
  split <;> simp_all

/-- The signs of logic spell operators of expressions. -/
lemma Predicate.Joins.plainSpelling {n : Nat} {p lhs rhs : Predicate} (h : Joins n p lhs rhs) :
    p.plainSpelling = lhs.plainSpelling * ((jointOp n).spelling * rhs.plainSpelling) := by
  cases h with
  | or =>
    rw [Predicate.plainSpelling, orSign, jointOp_zero, BinaryOp.spelling]
    simp only [Kind.binaryOp?_eq_or]
  | and =>
    rw [Predicate.plainSpelling, andSign, jointOp_one, BinaryOp.spelling]
    simp only [Kind.binaryOp?_eq_and]

/-- Is this a predicate without operators of logic outside of parentheses? -/
def Predicate.isAtom : Predicate → Bool
  | or .. | and .. | not .. => false
  | _ => true

/-- A predicate that binds tighter than a conjunction is an atom behind signs of negation.

**Proof sketch.** By induction on the predicate.  A negation gives its own sign to the signs of its
operand; disjunctions and conjunctions are excluded by the tightness, and every other predicate is
an atom behind no sign. -/
lemma Predicate.exists_atom {p : Predicate} (hcan : p.Canonical) (htight : 2 ≤ p.tightness) :
    ∀ {ts : List Token}, ts ∈ p.plainSpelling → ∃ (nots us : List Token) (q : Predicate),
      ts = nots ++ us ∧ (∀ t ∈ nots, t.kind.unaryOp? = some .not) ∧ us ∈ q.plainSpelling
        ∧ q.Canonical ∧ q.isAtom = true := by
  induction p with
  | or | and => simp [tightness] at htight
  | not operand span ih =>
    intro ts hts
    obtain ⟨t, vs, ht, hvs, rfl⟩ := mem_token_mul.1 hts
    obtain ⟨nots, us, q, rfl, hnots, hq⟩ := ih hcan.2 hcan.1 hvs
    refine ⟨t :: nots, us, q, rfl, ?_, hq⟩
    rintro u hu
    rcases List.mem_cons.1 hu with rfl | hu
    · rcases ht with h | h <;> simp [h, Kind.unaryOp?]
    · exact hnots u hu
  | compare | tineTest | group | const =>
    intro ts hts
    exact ⟨[], ts, _, rfl, by simp, hts, hcan, rfl⟩

/-- The first token of a canonical predicate.

**Proof sketch.** Induction along the left parts. -/
lemma Predicate.opens_of_mem {p : Predicate} (hcan : p.Canonical) :
    ∀ {ts : List Token}, ts ∈ p.plainSpelling → ∀ rest,
      headKind (ts ++ rest) = .tineRef ∨ (headKind (ts ++ rest)).opensExpression = true := by
  induction p with
  | or lhs rhs span ihl ihr =>
    intro ts hts rest
    obtain ⟨us, hus, vs, -, rfl⟩ := Language.mem_mul.1 hts
    rw [List.append_assoc]
    exact ihl hcan.2.1 hus (vs ++ rest)
  | and lhs rhs span ihl ihr =>
    intro ts hts rest
    obtain ⟨us, hus, vs, -, rfl⟩ := Language.mem_mul.1 hts
    rw [List.append_assoc]
    exact ihl hcan.2.2.1 hus (vs ++ rest)
  | not operand span =>
    intro ts hts rest
    obtain ⟨t, us, ht, -, rfl⟩ := mem_token_mul.1 hts
    rcases ht with h | h <;> simp [h, Kind.opensExpression]
  | compare op lhs rhs span =>
    intro ts hts rest
    obtain ⟨us, ⟨hus, -⟩, vs, -, rfl⟩ := Language.mem_mul.1 hts
    rw [List.append_assoc]
    exact .inr (Expression.opensExpression_of_mem hcan.1.1 hus (vs ++ rest))
  | tineTest tine =>
    intro ts hts rest
    obtain ⟨t, ht, rfl⟩ := hts
    exact .inl ht.1
  | group inner span =>
    intro ts hts rest
    obtain ⟨t, us, ht, -, rfl⟩ := mem_token_mul.1 hts
    simp [ht, Kind.opensExpression, Kind.opensPrimary]
  | const value span =>
    intro ts hts rest
    cases value
    all_goals
      obtain ⟨t, ht, rfl⟩ := hts
      simp [ht, Kind.opensExpression, Kind.opensPrimary]

/-! ## Signs of comparison -/

/-- A sign of comparison is an operator of expressions too. -/
lemma Kind.binaryOp?_of_compareOp? {kind : Kind} {op : CompareOp}
    (h : kind.compareOp? = some op) :
    ∃ op' : BinaryOp, kind.binaryOp? = some op' ∧ op'.level = .compare := by
  unfold compareOp? at h
  split at h <;> simp_all [binaryOp?, BinaryOp.level]

/-- A comparison begins with the word `is` or is a sign. -/
lemma CompareOp.headKind_of_mem {op : CompareOp} {ts : List Token} (h : ts ∈ op.spelling) :
    headKind ts = .keyword .is ∨ ∃ t, ts = [t] ∧ t.kind.compareOp? = some op := by
  cases op
  case is =>
    obtain ⟨t, ht, rfl⟩ := h
    exact .inl ht
  case isNot =>
    obtain ⟨t, us, ht, -, rfl⟩ := mem_token_mul.1 h
    exact .inl ht
  all_goals
    obtain ⟨t, ht, rfl⟩ := h
    exact .inr ⟨t, rfl, ht⟩

/-! ## What can stand behind -/

/-- What can stand behind a predicate of tightness `n` or more: a closing parenthesis, the end of
the input, or an operator of logic of a looser layer. -/
def EndsPredicate (n : Nat) (rest : List Token) : Prop :=
  headKind rest = .symbol .rParen ∨ headKind rest = .eof
    ∨ ∃ m < n, (headKind rest).binaryOp? = some (Predicate.jointOp m)

/-- What can stand behind a chain of operands with operators of the given levels, without going on
with it. -/
structure EndsChain (levels : List Level) (rest : List Token) : Prop extends
    EndsOperand rest where
  level : ∀ op, (headKind rest).binaryOp? = some op → op.level ∉ levels

section Ends

variable {levels : List Level} {n : Nat} {rest : List Token}

/-- What ends a chain of some levels ends one of fewer levels. -/
lemma EndsChain.mono {fewer : List Level} (hsub : fewer ⊆ levels) (h : EndsChain levels rest) :
    EndsChain fewer rest :=
  ⟨h.toEndsOperand, fun op hop hmem => h.level op hop (hsub hmem)⟩

/-- An operator of other levels ends a chain. -/
lemma endsChain_of_binaryOp? {op : BinaryOp} (hop : (headKind rest).binaryOp? = some op)
    (hlevel : op.level ∉ levels) : EndsChain levels rest := by
  rcases rest with _ | ⟨t, rest⟩
  · simp [Kind.binaryOp?] at hop
  · refine ⟨Parser.endsOperand_of_binaryOp? hop, fun op' hop' => ?_⟩
    obtain rfl : op = op' := Option.some.inj (hop.symm.trans hop')
    exact hlevel

/-- The word `is` ends a chain. -/
lemma endsChain_of_is (h : headKind rest = .keyword .is) : EndsChain levels rest := by
  refine ⟨⟨by simp [h, Kind.isSuffix], by simp [h], by simp [h], ?_⟩, by simp [h, Kind.binaryOp?]⟩
  intro t ht
  obtain ⟨ts, rfl⟩ := List.head?_eq_some_iff.1 ht
  rw [headKind_cons] at h
  simp [isSignedNumber, Kind.isNumber, h]

/-- What can stand behind a predicate ends a chain of the tighter levels. -/
lemma EndsPredicate.endsChain (h : EndsPredicate n rest)
    (hlevels : ∀ m < n, (Predicate.jointOp m).level ∉ levels) : EndsChain levels rest := by
  have hends : EndsExpression rest → EndsChain levels rest :=
    fun hends => ⟨hends.toEndsOperand, by simp [hends.operator]⟩
  rcases h with h | h | ⟨m, hm, hop⟩
  · exact hends (endsExpression_of_headKind (by simp [h]))
  · exact hends (endsExpression_of_headKind (by simp [h]))
  · exact endsChain_of_binaryOp? hop (hlevels m hm)

/-- What can stand behind a predicate can stand behind a tighter one. -/
lemma EndsPredicate.succ (h : EndsPredicate n rest) : EndsPredicate (n + 1) rest := by
  rcases h with h | h | ⟨m, hm, hop⟩
  · exact .inl h
  · exact .inr (.inl h)
  · exact .inr (.inr ⟨m, by omega, hop⟩)

end Ends

/-! ## Chains without a lambda or a let-in -/

namespace Expression

/-- A canonical expression with operators of the given levels only on its spine, and without a
lambda or a let-in there. -/
def IsChain (levels : List Level) (e : Expression) : Prop :=
  e.Canonical ∧ e.OnSpine (Admitted .comparison levels)

variable {levels : List Level} {e lhs rhs : Expression} {t : Token} {ts : List Token}

/-- A chain of some levels is one of more levels. -/
lemma IsChain.mono {fewer : List Level} (hsub : fewer ⊆ levels) (h : e.IsChain fewer) :
    e.IsChain levels :=
  ⟨h.1, h.2.imp fun _ => Admitted.mono hsub⟩

/-- A truth value is a chain of any levels. -/
lemma isChain_bool (value : Bool) (levels : List Level) :
    (bool value .origin).IsChain levels := by
  refine ⟨?_, trivial⟩
  rw [Canonical, Everywhere]
  all_goals simp [Ranked, Furnished]

/-- Without a lambda or a let-in on its spine an expression does not reach as far as it can. -/
lemma endsOpen_of_onSpine : ∀ {e : Expression}, e.OnSpine (Admitted .comparison levels) →
    e.endsOpen = false
  | binary _ _ rhs _, h => endsOpen_of_onSpine (e := rhs) h.2.2
  | unary _ operand _, h => endsOpen_of_onSpine (e := operand) h.2
  | lambda .., h | letIn .., h => Parser.Operands.noConfusion h
  | call .., _ | field .., _ | scalar .., _ | record .., _ | reduce .., _ | scan .., _
  | shuffle .., _ | ident .., _ | number .., _ | bool .., _ | laneIndex .., _ | lanes .., _
  | unit .., _ | paren .., _ | tuple .., _ => rfl

/-- What is admitted in a comparison is admitted elsewhere. -/
lemma Admitted.of_comparison {operands : Parser.Operands} (h : e.Admitted .comparison levels) :
    e.Admitted operands levels := by
  cases e <;> simp only [Admitted] at h ⊢
  all_goals first | exact h | cases h

/-- An operand of a comparison binds tighter than the comparison. -/
lemma IsComparand.bindsAtLeast (h : e.IsComparand) : e.BindsAtLeast 5 := by
  have hroot := h.2.root
  cases e <;> simp only [BindsAtLeast, Admitted] at hroot ⊢
  case binary op lhs rhs span =>
    cases hlevel : op.level <;> simp_all [Level.arithmetic, Level.tightness]

/-- Two operands of a comparison and the sign between them are a chain of expressions too. -/
lemma IsComparand.isChain_binary {op : BinaryOp} {span : Span} (hl : lhs.IsComparand)
    (hr : rhs.IsComparand) (hop : op.level = .compare) :
    (binary op lhs rhs span).IsChain (.compare :: Level.arithmetic) := by
  have hsub : Level.arithmetic ⊆ .compare :: Level.arithmetic := List.subset_cons_self _ _
  refine ⟨?_, by simp [Admitted, hop], hl.2.imp fun _ => Admitted.mono hsub,
    hr.2.imp fun _ => Admitted.mono hsub⟩
  rw [Canonical, Everywhere, Ranked, hop]
  exact ⟨⟨⟨hl.bindsAtLeast.mono (by decide), hr.bindsAtLeast, endsOpen_of_onSpine hl.2⟩, trivial⟩,
    hl.1, hr.1⟩

/-- The expression with its first operand negated, which is what its tokens spell behind the sign
of a negation. -/
def negateFirst : Expression → Expression
  | binary op lhs rhs span => binary op lhs.negateFirst rhs span
  | e => unary .not e .origin

/-- In front of an operand, a sign of negation applies to the whole of it. -/
lemma negateFirst_of_isBinary (h : e.isBinary = false) :
    e.negateFirst = unary .not e .origin := by
  cases e <;> simp_all [isBinary, negateFirst]

/-- A sign of negation in front of an expression leaves it as tight as it was. -/
lemma BindsAtLeast.negateFirst {n : Nat} (h : e.BindsAtLeast n) :
    e.negateFirst.BindsAtLeast n := by
  cases e <;> simp_all [BindsAtLeast, Expression.negateFirst]

/-- A sign of negation in front of an expression leaves its end as it was. -/
lemma endsOpen_negateFirst : e.negateFirst.endsOpen = e.endsOpen := by
  cases e <;> simp [negateFirst, endsOpen]

/-- A sign of negation in front of the tokens of an expression negates its first operand. -/
lemma cons_mem_spelling_negateFirst (ht : t.kind.unaryOp? = some .not) (e : Expression)
    {ts : List Token} (hts : ts ∈ e.spelling) : t :: ts ∈ e.negateFirst.spelling := by
  by_cases hbinary : e.isBinary = true
  · cases e <;> simp only [isBinary, Bool.false_eq_true] at hbinary
    case binary op lhs rhs span =>
      rw [Expression.spelling] at hts
      obtain ⟨us, hus, vs, hvs, rfl⟩ := Language.mem_mul.1 hts
      rw [negateFirst, Expression.spelling, ← List.cons_append]
      exact Language.append_mem_mul (cons_mem_spelling_negateFirst ht lhs hus) hvs
  · rw [negateFirst_of_isBinary (by simpa using hbinary), Expression.spelling, UnaryOp.spelling]
    exact cons_mem_token_mul.2 ⟨ht, hts⟩

/-- With its first operand negated a chain is a chain.

**Proof sketch.** By recursion along the left spine.  The first operand of a binary expression is
the one of its left side, so the root and the right side stay as they are; an expression that is not
binary becomes the operand of a negation, which is an operand again. -/
lemma IsChain.negateFirst {e : Expression} (h : e.IsChain levels) :
    e.negateFirst.IsChain levels := by
  by_cases hbinary : e.isBinary = true
  · cases e <;> simp only [isBinary, Bool.false_eq_true] at hbinary
    case binary op lhs rhs span =>
      obtain ⟨hcan, hroot, hl, hr⟩ := h
      rw [Canonical, Everywhere] at hcan
      obtain ⟨⟨⟨hleft, hright, hclosed⟩, -⟩, hlhs, hrhs⟩ := hcan
      obtain ⟨hcan', hspine⟩ := IsChain.negateFirst (e := lhs) ⟨hlhs, hl⟩
      refine ⟨?_, hroot, hspine, hr⟩
      rw [Expression.negateFirst, Canonical, Everywhere]
      exact ⟨⟨⟨hleft.negateFirst, hright, endsOpen_negateFirst.trans hclosed⟩, trivial⟩, hcan',
        hrhs⟩
  · have hbinary : e.isBinary = false := by simpa using hbinary
    rw [negateFirst_of_isBinary hbinary]
    refine ⟨?_, trivial, h.2⟩
    rw [Canonical, Everywhere]
    exact ⟨⟨hbinary, trivial⟩, h.1⟩

/-- Signs of negation in front of the tokens of a chain spell another chain with them.

**Proof sketch.** Induction on the signs, the last of which stands in front of the chain. -/
lemma IsChain.exists_negated (he : e.IsChain levels) (hts : ts ∈ e.spelling) {nots : List Token}
    (hnots : ∀ t ∈ nots, t.kind.unaryOp? = some .not) :
    ∃ e' : Expression, e'.IsChain levels ∧ nots ++ ts ∈ e'.spelling := by
  induction nots with
  | nil => exact ⟨e, he, hts⟩
  | cons t nots ih =>
    obtain ⟨e', he', hmem⟩ := ih fun u hu => hnots u (List.mem_cons_of_mem _ hu)
    exact ⟨e'.negateFirst, he'.negateFirst,
      cons_mem_spelling_negateFirst (hnots t (by simp)) e' hmem⟩

end Expression

namespace Parser

/-! ## Trials -/

section Operands

variable {inner : Parser Expression} {operands : Operands} {levels : List Level} {n : Nat}
  {ts us nots rest : List Token} {t : Token} {c : Cursor}
  {J : Expression → Cursor → Prop}

/-- A chain is accepted before what ends it. -/
lemma chain_accepts (hinner : Complete inner n)
    (hsorted : levels.Pairwise fun l m => l.tightness < m.tightness) {e : Expression}
    (he : e.IsChain levels) (hts : ts ∈ e.spelling) (hlen : ts.length ≤ n + 1)
    (hrest : EndsChain levels rest) :
    (binary (operand operands inner) levels).Accepts ts rest fun e' =>
      e'.withoutSpans = e.withoutSpans :=
  binary_accepts hinner levels hsorted e ts rest he.1 (he.2.imp fun _ => Admitted.of_comparison)
    hts hlen ⟨hrest.toEndsOperand, by simp [endsOpen_of_onSpine he.2]⟩ hrest.level

/-- No operator of the levels is read from what ends a chain. -/
lemma binaryOperator?_stops_of_endsChain (h : EndsChain levels rest) {level : Level}
    (hlevel : level ∈ levels) : (binaryOperator? level).Accepts [] rest (· = none) :=
  binaryOperator?_stops h.toEndsOperand fun op hop heq => h.level op hop (heq ▸ hlevel)

/-- Where an operand stops before what ends a chain, the chain ensures what the operand does.

**Proof sketch.** Induction on the levels. -/
lemma binary_ensures_of_stops {operand : Parser Expression}
    (h : operand.Ensures Eq c fun e _ c' => J e c')
    (hJ : ∀ e c, J e c → EndsChain levels c.ahead) :
    (binary operand levels).Ensures Eq c fun e _ c' => J e c' := by
  induction levels with
  | nil => exact h
  | cons level tighter ih =>
    have hoperand : (binary operand tighter).Ensures Eq c fun e _ c' => J e c' :=
      ih fun e c he => (hJ e c he).mono (List.subset_cons_self _ _)
    refine .leftAssoc_of_stops hoperand fun e ts c he => ?_
    exact (binaryOperator?_stops_of_endsChain (hJ e c he) (by simp)).eq_none rfl

/-- Signs of negation are unary operators.

**Proof sketch.** The signs are spelled one by one, each by itself, so the row is an instance of
`Accepts.many` whose items may stand before anything; what follows the row is no unary operator and
ends the loop. -/
lemma unaryOperators_accepts (hnots : ∀ t ∈ nots, t.kind.unaryOp? = some .not)
    (hrest : (headKind rest).unaryOp? = none) :
    (many unaryOperator?).Accepts nots rest fun _ => True := by
  have hmem : nots ∈ (nots.map fun t : Token => token (· = t)).prod := by
    clear hnots
    induction nots with
    | nil => rfl
    | cons t nots ih =>
      have hone : [t] ∈ token (· = t) := by simp
      exact prod_cons_mem (L := fun t => token (· = t)) hone ih
  have hmany : (many unaryOperator?).Accepts nots rest (List.Forall₂ (fun _ _ => True) · nots) := by
    refine Accepts.many (F := fun _ => True) hmem ?_ (by simp) (fun _ _ _ _ _ => trivial) trivial
      (unaryOperator?_stops hrest)
    rintro _ ht _ ⟨t, rfl, rfl⟩ - more -
    refine (unaryOperator?_accepts (hnots t ht)).imp ?_
    rintro _ ⟨op, rfl, -⟩
    exact ⟨op, rfl, trivial⟩
  exact hmany.imp fun _ _ => trivial

/-- Behind signs of negation an operand ensures what it does without them, if a negation keeps
that. -/
lemma operand_ensures_of_bare (hnots : ∀ t ∈ nots, t.kind.unaryOp? = some .not)
    (hhead : (headKind us).unaryOp? = none) (hc : c.ahead = nots ++ us)
    (h : ∀ c : Cursor, c.ahead = us →
      (bareOperand operands inner).Ensures Eq c fun e _ c' => J e c')
    (hJ : ∀ op e c, J e c → J (applyUnary op e) c) :
    (operand operands inner).Ensures Eq c fun e _ c' => J e c' := by
  unfold operand prefixed
  refine ((unaryOperators_accepts hnots hhead).ensures hc).bind fun ops ts c₁ _ hops => ?_
  refine (h c₁ hops.2.2).bind fun e ts c₂ _ he => .pure ?_
  clear hops
  induction ops with
  | nil => exact he
  | cons op ops ih => exact hJ op _ c₂ ih

end Operands

/-- The cursor stands before `rest` or before the word `is`. -/
def Halts (rest : List Token) (c : Cursor) : Prop :=
  c.ahead = rest ∨ headKind c.ahead = .keyword .is

/-- From `ts` before `rest` on, the parser splits nothing, and where it succeeds it stops before
`rest` or before the word `is`. -/
def Tries {α : Type} (p : Parser α) (ts rest : List Token) : Prop :=
  ∀ c : Cursor, c.ahead = ts ++ rest → p.Ensures Eq c fun _ _ c' => Halts rest c'

/-- The expression is no truth value, and the cursor stands before `rest`. -/
def Encloses (rest : List Token) (e : Expression) (c : Cursor) : Prop :=
  (∀ value span, e ≠ .bool value span) ∧ c.ahead = rest

section Atoms

variable {inner : Parser Expression} {operands : Operands} {levels : List Level} {n : Nat}
  {ts us vs nots rest : List Token} {t lp rp : Token} {c : Cursor}

/-- What is accepted is tried, whether or not the word `is` stands behind it. -/
lemma Accepts.tries {α : Type} {p : Parser α} {Q : α → Prop} (h : p.Accepts us (vs ++ rest) Q)
    (hvs : vs = [] ∨ headKind vs = .keyword .is) : p.Tries (us ++ vs) rest := by
  intro c hc
  refine (h.ensures (by rw [hc, List.append_assoc])).imp fun a ts c' ha => ?_
  rw [Halts, ha.2.2]
  rcases hvs with rfl | hvs
  · exact .inl rfl
  · refine .inr ?_
    rw [headKind_append, hvs]
    rintro rfl
    simp at hvs

/-- In parentheses, a trial that stops before the counterpart gives an expression, and one that
stops before the word `is` is refused.

**Proof sketch.** The trial halts before the counterpart or before the word `is`.  Neither is a
comma, so no further item is read.  Before the counterpart the parentheses close, with `rest` left;
before `is` the closing parenthesis is expected in vain. -/
lemma parenthesized_encloses (htrial : inner.Tries us (rp :: rest))
    (hus : headKind (us ++ rp :: rest) ≠ .symbol .rParen) (hrp : rp.kind = .symbol .rParen)
    (hc : c.ahead = lp :: (us ++ rp :: rest)) :
    (parenthesized inner).Ensures Eq c fun e _ c' => Encloses rest e c' := by
  have hinner : c.advance.ahead = us ++ rp :: rest := by simp [Cursor.advance, hc]
  unfold parenthesized
  refine .expect_bind (by simp) fun start _ => .eat_bind_of_ne ?_ ?_
  · rwa [Cursor.peek_kind, hinner]
  refine (htrial _ hinner).bind fun first ts c₁ _ hhalts => ?_
  have hcomma : headKind c₁.ahead ≠ .symbol .comma := by
    rcases hhalts with h | h <;> simp [h, hrp]
  have hmany : (many (afterComma inner)).Accepts [] c₁.ahead (· = []) :=
    .many_nil (.afterComma_stops hcomma)
  refine (hmany.ensures rfl).bind fun others vs c₂ _ hothers => ?_
  obtain ⟨rfl, -, hahead⟩ := hothers
  rcases hhalts with h | h
  · refine .expect_bind (by simp) fun _ _ => .spanFrom_bind (.pure ⟨by simp, ?_⟩)
    simp [Cursor.advance, hahead, h]
  · exact .expect_refused (by simp [Cursor.peek_kind, hahead, h])

/-- An operand that begins with a parenthesis is what stands in the parentheses, unless a suffix
follows.

**Proof sketch.** The parenthesis sends the operand to `primary`, and from there to `parenthesized`.
What follows the parentheses is no suffix, so the row of suffixes is empty and the operand is the
primary itself. -/
lemma bareOperand_encloses (hhead : headKind c.ahead = .symbol .lParen)
    (h : (parenthesized inner).Ensures Eq c fun e _ c' => Encloses rest e c')
    (hrest : EndsOperand rest) :
    (bareOperand operands inner).Ensures Eq c fun e _ c' => Encloses rest e c' := by
  have hprimary : (primary inner).Ensures Eq c fun e _ c' => Encloses rest e c' := by
    unfold primary
    refine .peekKind_bind ?_
    rw [c.peek_kind, hhead]
    exact h
  unfold bareOperand
  refine .peekKind_bind ?_
  rw [c.peek_kind, hhead]
  change (postfixed inner).Ensures Eq c _
  unfold postfixed
  refine hprimary.bind fun e ts c₁ _ he => ?_
  have hmany : (many suffix?).Accepts [] rest (· = []) := .many_nil (suffix?_stops hrest.suffix)
  refine (hmany.ensures (by simpa using he.2)).bind fun suffixes us c₂ _ hsuffixes => .pure ?_
  obtain ⟨rfl, -, hahead⟩ := hsuffixes
  exact ⟨he.1, hahead⟩

/-- An operand that begins with the mention of a tine is refused. -/
lemma bareOperand_refuses {Q : Expression → List Token → Cursor → Prop}
    (hhead : headKind c.ahead = .tineRef) : (bareOperand operands inner).Ensures Eq c Q := by
  unfold bareOperand
  refine .peekKind_bind ?_
  rw [c.peek_kind, hhead]
  change (postfixed inner).Ensures Eq c _
  unfold postfixed
  refine Ensures.bind (P := fun _ _ _ => False) ?_ fun _ _ _ _ h => h.elim
  unfold primary
  refine .peekKind_bind ?_
  rw [c.peek_kind, hhead]
  exact .unexpected

end Atoms

/-! ## Trials of predicates -/

/-- The predicates of tightness `layer` or more with at most `n` tokens are tried. -/
def Trial (parser : Parser Expression) (layer n : Nat) : Prop :=
  ∀ p : Predicate, p.Canonical → layer ≤ p.tightness → ∀ ts ∈ p.plainSpelling, ts.length ≤ n →
    ∀ rest, EndsPredicate layer rest → parser.Tries ts rest

section Predicates

variable {inner : Parser Expression} {operands : Operands} {levels : List Level} {n : Nat}
  {ts us nots rest : List Token} {c : Cursor}

/-- The levels of comparisons and of arithmetic. -/
lemma pairwise_compare :
    (Level.compare :: Level.arithmetic).Pairwise fun l m => l.tightness < m.tightness := by
  decide

/-- A comparison is tried as an expression: it is one, or it stops before the word `is`.

**Proof sketch.** Signs of negation in front go to the first operand (`IsChain.exists_negated`).
Before the word `is` the chain stops; any other comparison sign is an operator of the chain, which
then reads the right operand as well. -/
lemma compare_tries (hinner : Complete inner n) {op : CompareOp} {lhs rhs : Expression}
    {span : Span} (hcan : (Predicate.compare op lhs rhs span).Canonical)
    (hnots : ∀ t ∈ nots, t.kind.unaryOp? = some .not)
    (hus : us ∈ (Predicate.compare op lhs rhs span).plainSpelling)
    (hlen : (nots ++ us).length ≤ n + 1) (hrest : EndsPredicate 2 rest) :
    (binary (operand operands inner) (.compare :: Level.arithmetic)).Tries (nots ++ us) rest := by
  obtain ⟨ls, ⟨hls, -⟩, _, hws, rfl⟩ := Language.mem_mul.1 hus
  obtain ⟨os, hos, rs, ⟨hrs, -⟩, rfl⟩ := Language.mem_mul.1 hws
  obtain ⟨e, he, hmem⟩ := IsChain.exists_negated hcan.1 hls hnots
  simp only [List.length_append] at hlen
  rw [← List.append_assoc]
  rcases CompareOp.headKind_of_mem hos with his | ⟨t, rfl, ht⟩
  · have hne : os ≠ [] := by
      rintro rfl
      simp at his
    have hhead : headKind (os ++ rs) = .keyword .is := by rw [headKind_append hne, his]
    refine (chain_accepts hinner pairwise_compare (he.mono (List.subset_cons_self _ _)) hmem
      (by simp; omega) (endsChain_of_is ?_)).tries (.inr hhead)
    rwa [headKind_append (by simp [hne])]
  · obtain ⟨op', hop', hlevel⟩ := Kind.binaryOp?_of_compareOp? ht
    have hchain : (Expression.binary op' e rhs span).IsChain (.compare :: Level.arithmetic) :=
      IsComparand.isChain_binary he hcan.2 hlevel
    have hspelled : nots ++ ls ++ ([t] ++ rs) ∈ (Expression.binary op' e rhs span).spelling := by
      rw [Expression.spelling]
      exact Language.append_mem_mul hmem (Language.append_mem_mul ⟨t, hop', rfl⟩ hrs)
    rw [← List.append_nil (nots ++ ls ++ ([t] ++ rs))]
    refine (chain_accepts hinner pairwise_compare hchain hspelled
      (by simp only [List.length_append]; omega) ?_).tries (.inl rfl)
    exact hrest.endsChain (by decide)

/-- A truth value is tried as an expression: it is one, and no comparison. -/
lemma const_tries (hinner : Complete inner n) {value : Bool} {span : Span}
    (hnots : ∀ t ∈ nots, t.kind.unaryOp? = some .not)
    (hus : us ∈ (Predicate.const value span).plainSpelling) (hlen : (nots ++ us).length ≤ n + 1)
    (hrest : EndsPredicate 2 rest) :
    (binary (operand operands inner) (.compare :: Level.arithmetic)).Tries (nots ++ us) rest := by
  have hspelled : us ∈ (Expression.bool value .origin).spelling := by
    rw [Expression.spelling]
    exact hus
  obtain ⟨e, he, hmem⟩ := (isChain_bool value _).exists_negated hspelled hnots
  rw [← List.append_nil (nots ++ us)]
  exact (chain_accepts hinner pairwise_compare he hmem hlen (hrest.endsChain (by decide))).tries
    (.inl rfl)

/-- What a trial stops before ends a chain. -/
lemma Halts.endsChain (h : Halts rest c) (hrest : EndsChain levels rest) :
    EndsChain levels c.ahead := by
  rcases h with h | h
  · rwa [h]
  · exact endsChain_of_is h

/-- The test of a tine is refused as an expression. -/
lemma tineTest_tries {tine : TineRef} (hnots : ∀ t ∈ nots, t.kind.unaryOp? = some .not)
    (hus : us ∈ (Predicate.tineTest tine).plainSpelling) (hrest : EndsChain levels rest) :
    (binary (operand operands inner) levels).Tries (nots ++ us) rest := by
  obtain ⟨t, ht, rfl⟩ := hus
  intro c hc
  rw [List.append_assoc] at hc
  have hoperand : (operand operands inner).Ensures Eq c fun _ _ c' => Halts rest c' := by
    refine operand_ensures_of_bare hnots ?_ hc (fun c hc => bareOperand_refuses ?_)
      (fun _ _ _ h => h)
    · simp [ht.1, Kind.unaryOp?]
    · rw [hc, List.singleton_append, headKind_cons, ht.1]
  exact binary_ensures_of_stops hoperand fun _ c h => h.endsChain hrest

/-- A group is tried as a parenthesized expression: it is refused, or it is an expression, but no
truth value.

**Proof sketch.** Behind the parenthesis what the group holds is tried, by the induction that the
trial is part of.  If it is read, a counterpart must follow; the parentheses then hold an
expression. -/
lemma group_encloses (htrial : Trial inner 0 n) {p : Predicate} {span : Span}
    (hcan : (Predicate.group p span).Canonical)
    (hnots : ∀ t ∈ nots, t.kind.unaryOp? = some .not)
    (hus : us ∈ (Predicate.group p span).plainSpelling) (hlen : us.length ≤ n + 1)
    (hrest : EndsChain levels rest) (hc : c.ahead = nots ++ (us ++ rest)) :
    (binary (operand operands inner) levels).Ensures Eq c fun e _ c' => Encloses rest e c' := by
  obtain ⟨lp, _, hlp, hws, rfl⟩ := mem_token_mul.1 hus
  obtain ⟨vs, hvs, _, ⟨rp, hrp, rfl⟩, rfl⟩ := Language.mem_mul.1 hws
  simp only [List.length_cons, List.length_append, List.length_nil] at hlen
  rw [List.cons_append, List.append_assoc, List.singleton_append] at hc
  have hne : headKind (vs ++ rp :: rest) ≠ .symbol .rParen := by
    rcases Predicate.opens_of_mem (p := p) hcan hvs (rp :: rest) with h | h
    · simp [h]
    · intro hr
      simp [hr, Kind.opensExpression, Kind.opensPrimary] at h
  have hoperand : (operand operands inner).Ensures Eq c fun e _ c' => Encloses rest e c' := by
    refine operand_ensures_of_bare hnots ?_ hc (fun c hc => ?_) ?_
    · simp [hlp, Kind.unaryOp?]
    · refine bareOperand_encloses (by rw [hc, headKind_cons, hlp]) ?_ hrest.toEndsOperand
      have hinside : inner.Tries vs (rp :: rest) :=
        htrial p hcan (Nat.zero_le _) vs hvs (by omega) _ (.inl hrp)
      exact parenthesized_encloses hinside hne hrp hc
    · exact fun op e c he => ⟨by simp [applyUnary], he.2⟩
  exact binary_ensures_of_stops hoperand fun e c he => by rwa [he.2]

/-- The predicates that bind tighter than a conjunction are tried as chains of comparisons.

**Proof sketch.** The predicate is an atom behind signs of negation, by `Predicate.exists_atom`,
and each of the four atoms has its own lemma: a comparison, a truth value and a tine halt where the
trial may, and a group is an operand in parentheses. -/
lemma negation_trial (hinner : Complete inner n) (htrial : Trial inner 0 n) :
    Trial (binary (operand operands inner) (.compare :: Level.arithmetic)) 2 (n + 1) := by
  intro p hcan htight ts hts hlen rest hrest
  obtain ⟨nots, us, q, rfl, hnots, hus, hcan', hatom⟩ := Predicate.exists_atom hcan htight hts
  have hends : EndsChain (.compare :: Level.arithmetic) rest := hrest.endsChain (by decide)
  cases q with
  | or | and | not => cases hatom
  | compare op lhs rhs span => exact compare_tries hinner hcan' hnots hus hlen hrest
  | const value span => exact const_tries hinner hnots hus hlen hrest
  | tineTest tine => exact tineTest_tries hnots hus hends
  | group q span =>
    intro c hc
    rw [List.length_append] at hlen
    rw [List.append_assoc] at hc
    exact (group_encloses htrial hcan' hnots hus (by omega) hends hc).imp
      fun _ _ _ he => .inl he.2

end Predicates

/-! ## Trials of chains -/

/-- Operators `op` with operands behind them that are tried, up to `rest`. -/
inductive Links (op : BinaryOp) (operand : Parser Expression) (rest : List Token) :
    List Token → Prop
  | nil : Links op operand rest rest
  | cons {t : Token} {us more : List Token} (ht : t.kind.binaryOp? = some op)
      (hus : operand.Tries us more) (h : Links op operand rest more) :
      Links op operand rest (t :: (us ++ more))

section Chains

variable {operand : Parser Expression} {op : BinaryOp} {n k : Nat} {ts us more rest : List Token}
  {p : Predicate}

/-- A row of operands that are tried, with operators between them, is tried.

**Proof sketch.** Before each operator either a row of operators and operands is ahead, or the word
`is`, where no operator is read. -/
lemma Links.tries (h : Links op operand rest more) (hfirst : operand.Tries us more)
    (hrest : EndsChain [op.level] rest) {c : Cursor} (hc : c.ahead = us ++ more) :
    (leftAssoc (binaryOperator? op.level) operand applyBinary).Ensures Eq c
      fun _ _ c' => Halts rest c' := by
  -- the invariant: links are left to be read, or the word `is` stands at the cursor
  refine Ensures.leftAssoc
    (I := fun _ _ c => Links op operand rest c.ahead ∨ headKind c.ahead = .keyword .is) ?_ ?_ ?_
  · refine (hfirst c hc).imp fun _ _ c' hhalts => ?_
    rcases hhalts with hahead | his
    · exact .inl (hahead ▸ h)
    · exact .inr his
  · intro lhs ts c hlinks
    have hstops : ∀ {rest : List Token}, EndsChain [op.level] rest →
        (binaryOperator? op.level).Accepts [] rest (· = none) :=
      fun hends => binaryOperator?_stops_of_endsChain hends (by simp)
    rcases hlinks with hlinks | his
    · generalize hahead : c.ahead = ahead at hlinks
      cases hlinks with
      | nil =>
        refine ((hstops hrest).ensures hahead).imp ?_
        rintro _ _ c' ⟨rfl, -, hahead'⟩
        exact .inl hahead'
      | cons ht hus h =>
        refine ((binaryOperator?_accepts ht).ensures hahead).imp ?_
        rintro _ _ c' ⟨⟨op', rfl, -⟩, rfl, hahead'⟩
        refine ⟨by simp, (hus c' hahead').imp fun _ _ c'' hhalts => ?_⟩
        rcases hhalts with h' | h'
        · exact .inl (h' ▸ h)
        · exact .inr h'
    · refine ((hstops (endsChain_of_is his)).ensures (c := c) rfl).imp ?_
      rintro _ _ c' ⟨rfl, -, hahead'⟩
      exact .inr (by rw [hahead', his])
  · intro _ _ c hlinks hnil
    rw [hnil] at hlinks
    rcases hlinks with hlinks | his
    · cases hlinks
      exact .inl hnil
    · simp at his

/-- The tokens of a predicate of a layer begin with an operand, behind which operators of the layer
stand.

**Proof sketch.** Induction along the left parts, which shorten the list of tokens; the right part
is put in front of what stands behind the predicate. -/
lemma exists_links (hn : n < 2) (htighter : Trial operand (n + 1) k) (hcan : p.Canonical)
    (htight : n ≤ p.tightness) (hts : ts ∈ p.plainSpelling) (hlen : ts.length ≤ k)
    (hmore : Links (Predicate.jointOp n) operand rest more) (hends : EndsPredicate (n + 1) more) :
    ∃ us more', ts ++ more = us ++ more' ∧ operand.Tries us more'
      ∧ Links (Predicate.jointOp n) operand rest more' := by
  induction hlength : ts.length using Nat.strong_induction_on generalizing p ts more with
  | _ length ih =>
    rcases Predicate.lt_tightness_or_joins hn htight with hlt | ⟨lhs, rhs, hjoins⟩
    · exact ⟨ts, more, rfl, htighter p hcan hlt ts hts hlen more hends, hmore⟩
    · obtain ⟨⟨hlt, hlhs⟩, hrt, hrhs⟩ := hjoins.canonical hcan
      rw [hjoins.plainSpelling] at hts
      obtain ⟨us, hus, _, hws, rfl⟩ := Language.mem_mul.1 hts
      obtain ⟨t, vs, ht, hvs, rfl⟩ := mem_token_mul.1 hws
      simp only [List.length_append, List.length_cons] at hlen hlength
      have hright : operand.Tries vs more :=
        htighter rhs hrhs hrt vs hvs (by omega) more hends
      rw [List.append_assoc, List.cons_append]
      exact ih us.length (by omega) hlhs hlt hus (by omega) (.cons ht hright hmore)
        (.inr (.inr ⟨n, by omega, ht⟩)) rfl

/-- The predicates of a layer are tried, if those of the tighter layers are. -/
lemma layer_trial (hn : n < 2) (htighter : Trial operand (n + 1) k) :
    Trial (leftAssoc (binaryOperator? (Predicate.jointOp n).level) operand applyBinary) n k := by
  intro p hcan htight ts hts hlen rest hrest
  obtain ⟨us, more, heq, hfirst, hlinks⟩ :=
    exists_links hn htighter hcan htight hts hlen .nil hrest.succ
  have hends : EndsChain [(Predicate.jointOp n).level] rest := by
    refine hrest.endsChain fun m hm => ?_
    obtain ⟨rfl, rfl⟩ : m = 0 ∧ n = 1 := by omega
    decide
  exact fun c hc => hlinks.tries hfirst hends (hc.trans heq)

end Chains

/-! ## Trials of expressions -/

/-- Predicates are tried as expressions.

**Proof sketch.** Induction on the bound.  The layers of a predicate are tried by the levels of
expressions that have its operators; behind the loosest of them no other operator stands. -/
lemma expressionUpTo_trial (n : Nat) : Trial (expressionUpTo n) 0 n := by
  induction n with
  | zero =>
    intro p hcan _ ts hts hlen
    obtain rfl : ts = [] := by simpa using hlen
    have hopens := p.opens_of_mem hcan hts []
    simp [Kind.opensExpression, Kind.opensPrimary] at hopens
  | succ n ih =>
    have hnegation : Trial (binary (operand .full (expressionUpTo n))
        (.compare :: Level.arithmetic)) 2 (n + 1) :=
      negation_trial (expressionUpTo_complete n) ih
    have hconjunction : Trial (binary (operand .full (expressionUpTo n))
        (.and :: .compare :: Level.arithmetic)) 1 (n + 1) :=
      layer_trial (n := 1) (by decide) hnegation
    have hdisjunction : Trial (binary (operand .full (expressionUpTo n))
        (.or :: .and :: .compare :: Level.arithmetic)) 0 (n + 1) :=
      layer_trial (n := 0) (by decide) hconjunction
    intro p hcan htight ts hts hlen rest hrest c hc
    have hpipe : (binary (binary (operand .full (expressionUpTo n))
        (.or :: .and :: .compare :: Level.arithmetic)) [.pipe]).Ensures Eq c
          fun _ _ c' => Halts rest c' :=
      binary_ensures_of_stops (hdisjunction p hcan htight ts hts hlen rest hrest c hc)
        fun _ c h => h.endsChain (hrest.endsChain (by simp))
    exact hpipe

/-- The tokens of predicates are tried by the reader of expressions: it splits nothing, and where
it succeeds it stops behind them or before the word `is`. -/
theorem expression_trial (n : Nat) : Trial expression 0 n := by
  intro p hcan htight ts hts _ rest hrest c hc
  have hlen := c.length_ahead_le_remaining
  rw [hc, List.length_append] at hlen
  exact (expressionUpTo_trial c.remaining p hcan htight ts hts (by omega) rest hrest c hc).congr rfl

/-- The tokens of a group are refused by the reader of operands, without a split, or it reads them
all as an expression in parentheses. -/
theorem comparand_encloses {p : Predicate} {span : Span} {ts rest : List Token} {c : Cursor}
    (hcan : (Predicate.group p span).Canonical)
    (hts : ts ∈ (Predicate.group p span).plainSpelling) (hrest : EndsPredicate 2 rest)
    (hc : c.ahead = ts ++ rest) :
    comparand.Ensures Eq c fun e _ c' => Encloses rest e c' := by
  have hnots : ∀ t ∈ ([] : List Token), t.kind.unaryOp? = some .not := by simp
  exact group_encloses (expression_trial ts.length) hcan hnots hts (by omega)
    (hrest.endsChain (by decide)) hc

end Parser

end RakeLang
