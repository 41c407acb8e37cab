import RakeLang.Predicate.Parser
import RakeLang.Proofs.Canonical.Predicate
import RakeLang.Proofs.Reading.Expression
import RakeLang.Proofs.Spelling.Definition

/-!
# What the reader of predicates ensures

A predicate spells the tokens that it was read from, as they were split meanwhile, at its place and
plainly, and it is canonical.  Where a comparison is tried at a parenthesis and refused, the cursor
goes back; the tokens that the trial split stay split, so that the group is read from a rewriting of
them.

## Main results

* `RakeLang.Parser.comparison_ensures` — comparisons.
* `RakeLang.Parser.predicate_places` — predicates.
-/

set_option relaxedAutoImplicit false
set_option autoImplicit false

namespace RakeLang

open Spelling Token

/-- A token that is a comparison spells it. -/
lemma CompareOp.singleton_mem_spelling {t : Token} {op : CompareOp}
    (h : t.kind.compareOp? = some op) : [t] ∈ op.spelling := by
  cases op
  case is | isNot =>
    unfold Kind.compareOp? at h
    split at h <;> cases h
  all_goals simpa [spelling] using h

/-- The further of two faults is one of them. -/
lemma Fault.furthest_cases (first second : Fault) :
    first.furthest second = first ∨ first.furthest second = second := by
  simp only [furthest]
  split
  · exact .inr rfl
  · exact .inl rfl

/-- A list falls by splits into one that begins with a token of the same kind, or with one of the
signs that a split gives.

**Proof sketch.** By induction on the splits.  A split behind the first token keeps its kind, and
one at the first token puts a minus sign or an angle there. -/
lemma Token.SplitsTo.headKind {ts us : List Token} (h : SplitsTo ts us) :
    headKind us = headKind ts ∨ headKind us = .symbol .minus ∨ headKind us = .symbol .less := by
  have hstep : ∀ {us vs : List Token}, SplitStep us vs →
      Spelling.headKind vs = Spelling.headKind us ∨ Spelling.headKind vs = .symbol .minus
        ∨ Spelling.headKind vs = .symbol .less := by
    intro us vs h
    cases h with
    | @sign t minus number before after h =>
      obtain ⟨-, rfl, -⟩ := eq_of_splitSign? h
      rcases before with _ | ⟨b, before⟩
      · exact .inr (.inl rfl)
      · exact .inl rfl
    | arrow before h =>
      obtain ⟨arrow, rest, rfl, -, ⟨next, more, -, -, rfl⟩ | rfl⟩ := cases_of_splitArrow? h
      all_goals
        rcases before with _ | ⟨b, before⟩
        · exact .inr (.inr rfl)
        · exact .inl rfl
  induction h with
  | refl => exact .inl rfl
  | tail _ h ih =>
    rcases hstep h with h | h
    · rwa [h]
    · exact .inr h

/-- What is read where no token of some kinds stands begins with none of them, unless they are among
the signs that a split gives. -/
lemma Cursor.Reads.headKind_notMem {c c' : Cursor} {ts : List Token} {kinds : List Kind}
    (h : c.Reads SplitsTo ts c') (hne : ts ≠ []) (hc : c.peek.kind ∉ kinds)
    (hminus : .symbol .minus ∉ kinds) (hless : .symbol .less ∉ kinds) : headKind ts ∉ kinds := by
  have hhead := SplitsTo.headKind h.ahead
  rw [headKind_append hne, ← c.peek_kind] at hhead
  rcases hhead with hhead | hhead | hhead
  · rwa [hhead]
  · rwa [hhead]
  · rwa [hhead]

namespace Parser

/-! ## Atoms -/

/-- What a reference to a tine is read from spells it at its place. -/
lemma tineRef_ensures {R : List Token → List Token → Prop} [Rewriting R] (c : Cursor) :
    tineRef.Ensures R c fun tine ts _ => ts ∈ tine.placed := by
  unfold tineRef
  refine .expect_bind (by simp) fun t ht => .pure (singleton_mem_covering ?_)
  simp [TineRef.spelling, ht]

/-- What an operator of comparisons is read from spells it, and no negation stands behind the word
`is` alone.

**Proof sketch.** The split at the beginning reads nothing.  The word `is` is read with the word
`not` behind it, if it stands there, and any other operator is one token. -/
lemma compareOperator?_ensures (c : Cursor) :
    compareOperator?.Ensures SplitsTo c fun o ts c' =>
      Ensures.Answers CompareOp.spelling (fun _ => True) o ts
        ∧ (o = some .is → c'.peek.kind ≠ .keyword .not) := by
  unfold compareOperator?
  have hsplit : (modify splitArrow : Parser Unit).Ensures SplitsTo c fun _ ts _ => ts = [] := by
    refine ⟨fun a c' h => ?_, (fun _ _ h => nomatch h), (fun _ _ h => nomatch h)⟩
    obtain ⟨-, rfl⟩ := EStateM.Result.ok.inj h
    refine ⟨[], ?_, rfl⟩
    unfold splitArrow
    rcases ha : c.splitArrow? with _ | c'
    · exact .refl c
    · exact Cursor.splitsTo_of_splitArrow? ha
  refine hsplit.bind ?_
  rintro _ _ c₁ - rfl
  apply Ensures.peekKind_bind
  split
  · rename_i his
    refine .advance_bind (by simp [his]) (.eat_bind_peek (by simp) (fun hnot => .pure ?_)
      fun hnot => .pure ?_)
    · simp [Ensures.Answers, CompareOp.spelling, keyword, his, hnot]
    · simpa [Ensures.Answers, CompareOp.spelling, keyword, his] using hnot
  · split
    · exact .pure ⟨rfl, by simp⟩
    · rename_i op hop
      refine .advance_bind ?_ (.pure ⟨⟨CompareOp.singleton_mem_spelling hop, trivial⟩, ?_⟩)
      · intro heof
        simp [heof, Kind.compareOp?] at hop
      · rintro ⟨⟩
        unfold Kind.compareOp? at hop
        split at hop <;> cases hop

/-- No sign and no word for "not" stands at the cursor. -/
def NoNegation (c : Cursor) : Prop := c.peek.kind ∉ [Kind.symbol .bang, Kind.keyword .not]

/-- At the end of the input no negation stands. -/
lemma noNegation_of_ahead_nil {c : Cursor} (h : c.ahead = []) : NoNegation c := by
  simp [NoNegation, Cursor.peek_kind_of_ahead_nil h]

/-- What is ensured of a comparison, or of a truth value alone.

**Proof sketch.** Behind the left operand an operator and another operand are read.  Without an
operator the operand has to be a truth value, which is a constant. -/
theorem comparison_ensures {c : Cursor} (hc : NoNegation c) :
    comparison.Ensures SplitsTo c fun p ts _ =>
      ts ∈ p.placed ∧ p.Canonical ∧ 2 ≤ p.tightness := by
  unfold comparison
  refine (comparand_ensures c).bind fun lhs ts c₁ hread hlhs => ?_
  refine (compareOperator?_ensures c₁).bind fun o us c₂ _ ho => ?_
  rcases o with _ | op
  · obtain rfl : us = [] := ho.1
    cases lhs
    case bool value span =>
      refine .pure ⟨?_, trivial, le_rfl⟩
      have hplaced := hlhs.placed
      rw [Expression.placed] at hplaced
      simpa [Predicate.placed] using hplaced
    all_goals exact .unexpected
  · refine (comparand_ensures c₂).bind fun rhs vs c₃ hread' hrhs => .pure ⟨?_, ?_, le_rfl⟩
    · have hlcovers := lhs.covers_of_placed hlhs.placed
      have hrcovers := rhs.covers_of_placed hrhs.placed
      rw [Predicate.placed, List.append_nil]
      refine append_mem_covering _ hlcovers hrcovers (Language.append_mem_mul ⟨hlhs.placed, ?_⟩
        (Language.append_mem_mul ho.1.1 ⟨hrhs.placed, ?_⟩))
      · exact hread.headKind_notMem (lhs.ne_nil_of_placed hlhs.placed) hc (by simp) (by simp)
      · split
        case isTrue his =>
          have hnot := ho.2 (by rw [his])
          exact hread'.headKind_notMem (rhs.ne_nil_of_placed hrhs.placed) (by simpa using hnot)
            (by simp) (by simp)
        case isFalse => simp
    · exact ⟨⟨hlhs.canonical, hlhs.admitted⟩, hrhs.canonical, hrhs.admitted⟩

/-- What is ensured of a predicate inside another one. -/
def Guard (n : Nat) (p : Predicate) (ts : List Token) (_ : Cursor) : Prop :=
  ts ∈ p.placed ∧ p.Canonical ∧ n ≤ p.tightness

section Layers

variable {inner : Parser Predicate}

/-- What a group is read from spells the predicate in it at its place. -/
lemma group_ensures (hinner : ∀ c, inner.Ensures SplitsTo c (Guard 0)) (c : Cursor) :
    (group inner).Ensures SplitsTo c (Guard 2) := by
  unfold group
  refine .of_reads (.expect_bind_peek (by simp) fun hlp => (hinner _).bind fun p ts c₁ _ hp => ?_)
  refine .expect_bind (by simp) fun rp hrp => .spanFrom_bind (.pure fun hread => ?_)
  refine ⟨⟨?_, hread.covers⟩, hp.2.1, le_rfl⟩
  simp only [sign, cons_mem_token_mul]
  exact ⟨hlp, append_singleton_mem hp.1 hrp⟩

/-- What both of two alternatives ensure is ensured of the choice between them: the second one is
read from where the first one began, behind the splits that this one made.

**Proof sketch.** Where the first alternative is refused, the cursor goes back to its position in
tokens that were split meanwhile, and the second one is read from there; splits in a row are splits.
The fault that shows further on is a fault of one of the two. -/
lemma orElseHere_ensures {α : Type} {first second : Parser α} {c : Cursor}
    {Q : α → List Token → Cursor → Prop} (hfirst : first.Ensures SplitsTo c Q)
    (hsecond : ∀ c, second.Ensures SplitsTo c Q) :
    (orElseHere first second).Ensures SplitsTo c Q := by
  -- the position is the old one again, and the splits of the first reader stay
  have hback : ∀ fault c₁, first c = .error fault c₁ →
      c.Reads SplitsTo [] (c₁.seek c.position) := by
    intro fault c₁ h
    obtain ⟨read, hread⟩ := hfirst.error fault c₁ h
    rw [hread.seek]
    exact ⟨rfl, hread.ahead, rfl⟩
  constructor
  · intro a c₂ h
    unfold orElseHere at h
    split at h
    · rename_i h₁
      exact hfirst.ok _ _ (h₁.trans h)
    · rename_i fault c₁ h₁
      split at h
      · rename_i h₂
        obtain ⟨rfl, rfl⟩ := EStateM.Result.ok.inj h
        obtain ⟨read, hread, ha⟩ := (hsecond _).ok _ _ h₂
        exact ⟨read, (hback _ _ h₁).trans hread, ha⟩
      · cases h
  · intro fault c₂ h
    unfold orElseHere at h
    split at h
    · cases h
    · rename_i fault₁ c₁ h₁
      split at h
      · cases h
      · rename_i fault₂ c₂' h₂
        obtain ⟨-, rfl⟩ := EStateM.Result.error.inj h
        obtain ⟨read, hread⟩ := (hsecond _).error _ _ h₂
        exact ⟨read, (hback _ _ h₁).trans hread⟩
  · intro fault c₂ h
    unfold orElseHere at h
    split at h
    · cases h
    · rename_i fault₁ c₁ h₁
      split at h
      · cases h
      · rename_i fault₂ c₂' h₂
        obtain ⟨rfl, -⟩ := EStateM.Result.error.inj h
        rcases Fault.furthest_cases fault₁ fault₂ with hfault | hfault
        · rw [hfault]
          exact hfirst.shows _ _ h₁
        · rw [hfault]
          exact ((hsecond _).shows _ _ h₂).behind (hback _ _ h₁)

/-- What an atom is read from spells it at its place, and it is canonical. -/
lemma predicateAtom_ensures (hinner : ∀ c, inner.Ensures SplitsTo c (Guard 0)) {c : Cursor}
    (hc : NoNegation c) : (predicateAtom inner).Ensures SplitsTo c (Guard 2) := by
  unfold predicateAtom
  apply Ensures.peekKind_bind
  split
  · refine (tineRef_ensures c).bind fun tine ts c₁ _ htine => .pure ⟨?_, trivial, le_rfl⟩
    rw [Predicate.placed, List.append_nil]
    exact htine
  · exact orElseHere_ensures (comparison_ensures hc) (group_ensures hinner)
  · exact comparison_ensures hc

/-! ## Logic -/

/-- What a negation sign is read from spells it; where there is none, no negation stands. -/
lemma notOperator?_ensures (c : Cursor) :
    notOperator?.Ensures SplitsTo c fun o ts c' =>
      Ensures.Answers (fun start => covering start notSign) (fun _ => True) o ts
        ∧ (o = none → NoNegation c') := by
  unfold notOperator?
  apply Ensures.peekKind_bind
  split
  case h_1 h | h_2 h =>
    refine .advance_bind (by simp [h]) (.pure ⟨⟨singleton_mem_covering ?_, trivial⟩, by simp⟩)
    simp [notSign, h]
  case h_3 hbang hnot =>
    refine .pure ⟨rfl, fun _ => ?_⟩
    simpa [NoNegation] using ⟨hbang, hnot⟩

/-- What the sign of a conjunction is read from spells it. -/
lemma andOperator?_ensures (c : Cursor) :
    andOperator?.Ensures SplitsTo c fun o ts _ =>
      Ensures.Answers (fun _ => andSign) (fun _ => True) o ts := by
  unfold andOperator?
  apply Ensures.peekKind_bind
  split
  case h_1 h | h_2 h =>
    refine .advance_bind (by simp [h]) (.pure ?_)
    simp [Ensures.Answers, andSign, h]
  · exact .pure rfl

/-- What the sign of a disjunction is read from spells it. -/
lemma orOperator?_ensures (c : Cursor) :
    orOperator?.Ensures SplitsTo c fun o ts _ =>
      Ensures.Answers (fun _ => orSign) (fun _ => True) o ts := by
  unfold orOperator?
  apply Ensures.peekKind_bind
  split
  case h_1 h | h_2 h =>
    refine .advance_bind (by simp [h]) (.pure ?_)
    simp [Ensures.Answers, orSign, h]
  · exact .pure rfl

/-- What a negation is read from spells it at its place, and it is canonical. -/
lemma negation_ensures (hinner : ∀ c, inner.Ensures SplitsTo c (Guard 0)) (c : Cursor) :
    (negation inner).Ensures SplitsTo c (Guard 2) := by
  refine Ensures.prefixed NoNegation (fun _ h => nil_notMem_token h.1) notOperator?_ensures
    (fun _ => noNegation_of_ahead_nil) (fun _ => predicateAtom_ensures hinner) ?_ c
  rintro start p ts us c hts ⟨hus, hcan, htight⟩
  refine ⟨?_, ⟨htight, hcan⟩, le_rfl⟩
  rw [applyNot, Predicate.placed]
  exact append_mem_covering [] hts.2 (p.covers_of_placed hus)
    (Language.append_mem_mul hts.1 hus)

/-- The value of a chain of operands that are combined by one sign of logic.

**Proof sketch.** An instance of `Ensures.leftAssoc` whose invariant is `Guard n` itself.  An
operand binds at least as tightly as the chain needs, and combining keeps it by `hcombine`. -/
lemma chain_ensures {n m : Nat} {operator : Parser (Option Unit)} {operand : Parser Predicate}
    {combine : Predicate → Unit → Predicate → Predicate} {L : Language Token}
    (hL : [] ∉ L) (hnm : n ≤ m)
    (hoperator : ∀ c, operator.Ensures SplitsTo c fun o ts _ =>
      Ensures.Answers (fun _ => L) (fun _ => True) o ts)
    (hoperand : ∀ c, operand.Ensures SplitsTo c (Guard m))
    (hcombine : ∀ lhs rhs ts us vs c, Guard n lhs ts c → us ∈ L → Guard m rhs vs c →
      Guard n (combine lhs () rhs) (ts ++ (us ++ vs)) c) (c : Cursor) :
    (leftAssoc operator operand combine).Ensures SplitsTo c (Guard n) := by
  refine Ensures.leftAssoc (I := Guard n) ?_ ?_ (fun _ _ _ h _ => h)
  · exact (hoperand c).imp fun p ts c' hp => ⟨hp.1, hp.2.1, hnm.trans hp.2.2⟩
  · intro lhs ts c hlhs
    refine (hoperator c).imp fun o us c₁ ho => ?_
    rcases o with _ | op
    · obtain rfl : us = [] := ho
      rw [Ensures.Link, List.append_nil]
      exact hlhs
    · refine ⟨fun hus => hL (hus ▸ ho.1), (hoperand c₁).imp fun rhs vs c₂ hrhs => ?_⟩
      exact hcombine lhs rhs ts us vs c₂ hlhs ho.1 hrhs

/-- What a conjunction is read from spells it at its place, and it is canonical. -/
lemma conjunction_ensures (hinner : ∀ c, inner.Ensures SplitsTo c (Guard 0)) (c : Cursor) :
    (conjunction inner).Ensures SplitsTo c (Guard 1) := by
  refine chain_ensures (L := andSign) (by simp [andSign]) (by decide) andOperator?_ensures
    (negation_ensures hinner) ?_ c
  rintro lhs rhs ts us vs c ⟨hts, hl, hlt⟩ hus ⟨hvs, hr, hrt⟩
  refine ⟨?_, ⟨hlt, hrt, hl, hr⟩, le_rfl⟩
  rw [applyAnd, Predicate.placed]
  exact append_mem_covering _ (lhs.covers_of_placed hts) (rhs.covers_of_placed hvs)
    (Language.append_mem_mul hts (Language.append_mem_mul hus hvs))

/-- What a predicate is read from spells it at its place, if what is read in its groups does. -/
lemma predicateWith_ensures (hinner : ∀ c, inner.Ensures SplitsTo c (Guard 0)) (c : Cursor) :
    (predicateWith inner).Ensures SplitsTo c (Guard 0) := by
  refine chain_ensures (L := orSign) (by simp [orSign]) (by decide) orOperator?_ensures
    (conjunction_ensures hinner) ?_ c
  rintro lhs rhs ts us vs c ⟨hts, hl, -⟩ hus ⟨hvs, hr, hrt⟩
  refine ⟨?_, ⟨hrt, hl, hr⟩, le_rfl⟩
  rw [applyOr, Predicate.placed]
  exact append_mem_covering _ (lhs.covers_of_placed hts) (rhs.covers_of_placed hvs)
    (Language.append_mem_mul hts (Language.append_mem_mul hus hvs))

end Layers

/-- What a predicate of bounded depth is read from spells it at its place. -/
lemma predicateUpTo_ensures (n : Nat) :
    ∀ c, (predicateUpTo n).Ensures SplitsTo c (Guard 0) := by
  induction n with
  | zero => intro c; exact .unexpected
  | succ n ih => exact predicateWith_ensures ih

/-- What a predicate is read from spells it at its place, and it is canonical. -/
theorem predicate_places (c : Cursor) :
    predicate.Ensures SplitsTo c fun p ts _ => ts ∈ p.placed ∧ p.Canonical :=
  ((predicateUpTo_ensures c.remaining c).imp fun _ _ _ hp => ⟨hp.1, hp.2.1⟩).congr rfl

/-- What a predicate is read from spells it, and it is canonical. -/
lemma predicate_ensures (c : Cursor) :
    predicate.Ensures SplitsTo c fun p ts _ => ts ∈ p.spelling ∧ p.Canonical :=
  (predicate_places c).imp fun p _ _ hp =>
    ⟨Predicate.mem_spelling_of_plain (p.placed_le hp.1), hp.2⟩

end Parser

end RakeLang
