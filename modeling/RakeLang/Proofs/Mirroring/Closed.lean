import RakeLang.Proofs.Accepting.Predicate
import RakeLang.Proofs.Mirroring.Predicate
import RakeLang.Proofs.Rereading.Alongside

/-!
# Predicates up to the parenthesis that closes them

A comparison that is refused where the left input ends could succeed on the right one, and then a
group would no longer be read.  In front of a closing parenthesis this cannot happen: what follows a
group there is the parenthesis or a sign of logic, on both sides, and no comparison begins with a
group that such a token follows.  So the guards of tines and of through blocks, which stand in
parentheses, mirror each other wherever the left input ends.

## Main definitions

* `RakeLang.Parser.MirrorsWithin` — the judgement for what stands within parentheses.

## Main results

* `RakeLang.Parser.comparison_refused_of_group` — a group before a sign of logic begins no
  comparison.
* `RakeLang.Parser.closed_mirrors` — predicates up to the parenthesis that closes them.
-/

set_option relaxedAutoImplicit false
set_option autoImplicit false

namespace RakeLang.Parser

open Token Spelling

/-! ## Groups before a sign of logic -/

/-- The tokens that can stand behind a part of a predicate in parentheses: the one that closes them
and the signs of logic. -/
def withinSigns : List Kind :=
  [.symbol .rParen, .symbol .pipePipe, .keyword .or, .symbol .ampAmp, .keyword .and]

/-- A sign within parentheses ends an atom of a predicate. -/
lemma endsPredicate_of_withinSigns {rest : List Token} (h : headKind rest ∈ withinSigns) :
    EndsPredicate 2 rest := by
  simp only [withinSigns, List.mem_cons, List.not_mem_nil, or_false] at h
  rcases h with h | h | h | h | h
  · exact .inl h
  · exact .inr (.inr ⟨0, by omega, Kind.binaryOp?_eq_or.2 (.inl h)⟩)
  · exact .inr (.inr ⟨0, by omega, Kind.binaryOp?_eq_or.2 (.inr h)⟩)
  · exact .inr (.inr ⟨1, by omega, Kind.binaryOp?_eq_and.2 (.inl h)⟩)
  · exact .inr (.inr ⟨1, by omega, Kind.binaryOp?_eq_and.2 (.inr h)⟩)

/-- No split takes part in these tokens. -/
lemma inSplit_of_withinSigns {kind : Kind} (h : kind ∈ withinSigns) : kind.inSplit = false := by
  simp only [withinSigns, List.mem_cons, List.not_mem_nil, or_false] at h
  rcases h with rfl | rfl | rfl | rfl | rfl <;> rfl

variable {c c' d d' : Cursor} {p : Predicate}

/-- What is read as a group is one. -/
lemma exists_group {inner : Parser Predicate} (h : group inner c = .ok p c') :
    ∃ q s, p = .group q s := by
  obtain ⟨start, c₁, -, h⟩ := bind_eq_ok.1 h
  obtain ⟨q, c₂, -, h⟩ := bind_eq_ok.1 h
  obtain ⟨close, c₃, -, h⟩ := bind_eq_ok.1 h
  exact ⟨q, _, (EStateM.Result.ok.inj h).1.symm⟩

/-- **A group before a sign of logic begins no comparison.**

**Proof sketch.** The tokens of the group settle to a spelling of it, which is refused as a
comparison.  The tokens as they were are read in step with the settled ones. -/
theorem comparison_refused_of_group {n : Nat} (h : group (predicateAfreshUpTo n) d = .ok p d')
    (hd' : d'.peek.kind ∈ withinSigns) : ∃ fault b, comparison d = .error fault b := by
  have hlowers : Lowers (predicateUpTo n) := .of_ensures (predicateUpTo_ensures n)
  have hsim : Simulates (settling (.operand 0) d) (group (predicateUpTo n))
      (group (predicateAfreshUpTo n)) d d (PredicateInStep 0) :=
    group_simulates (predicateUpTo_simulates n) (Settles.refl rfl d)
  -- both readers of groups succeed, and behind them the tokens settle to the same
  obtain ⟨c₁, hgroup, hsettles⟩ :
      ∃ c₁, group (predicateUpTo n) d = .ok p c₁ ∧ Settles (.operand 0) d (.behind 0) c₁ d' := by
    rcases hrun : group (predicateUpTo n) d with ⟨p', c₁⟩ | ⟨fault, c₁⟩
    · obtain ⟨_, b, _, hb, ⟨rfl, rfl⟩, hrel⟩ := hsim.ok p' c₁ hrun (Nat.zero_le _)
      obtain ⟨rfl, rfl⟩ := EStateM.Result.ok.inj (hb.symm.trans h)
      exact ⟨c₁, rfl, hrel⟩
    · obtain ⟨_, b, _, hb, -⟩ := (hsim.error rfl fault c₁ hrun).2 trivial
      cases hb.symm.trans h
  obtain ⟨us, hread, hus, hcan, -⟩ := (group_ensures (predicateUpTo_ensures n) d).ok p c₁ hgroup
  obtain ⟨q, s, rfl⟩ := exists_group hgroup
  -- the sign behind the group stays where it is
  obtain ⟨more, hmore⟩ := Cursor.exists_ahead_of_peek (c := d') fun heof => by
    rw [heof] at hd'
    simp [withinSigns] at hd'
  have hkeeps : (Mode.behind 0).keeps d'.peek.kind = true := by
    refine Mode.keeps_of_clear (Mode.clear_of_inSplit _ (inSplit_of_withinSigns hd'))
  have hrest : EndsPredicate 2 (settle (.behind 0) c₁.ahead) := by
    refine endsPredicate_of_withinSigns ?_
    rwa [hsettles.ahead, hmore, settle_cons hkeeps, headKind_cons]
  rcases hrun : comparison { d with ahead := settle (.operand 0) d.ahead } with ⟨a, b⟩ | ⟨fault, b⟩
  · obtain ⟨_, -, hfalse⟩ := (comparison_refuses hcan (Predicate.placed_le _ hus) hrest
      (hsettles.settle_eq hread)).ok a b hrun
    exact hfalse.elim
  · obtain ⟨other, b', _, hother, -⟩ :=
      ((comparison_simulates (settles_settle d)).error rfl fault b hrun).2 trivial
    exact ⟨other, b', hother⟩

/-! ## Parts of predicates in parentheses -/

/-- Where `p` succeeds before the closing parenthesis or a sign of logic, `q` succeeds as well, with
the same predicate up to spans. -/
def MirrorsWithin (M : Mirror) (p q : Parser Predicate) : Prop :=
  ∀ c d, M.Rel c d → ∀ a c', p c = .ok a c' → c'.peek.kind ∈ withinSigns →
    ∃ b d', q d = .ok b d' ∧ M.Predicates a b ∧ M.Rel c' d'

variable {M : Mirror} {inner inner' : Parser Predicate}

/-- Before a sign of logic the left input is not at its end. -/
lemma same_of_withinSigns (h : M.Rel c d) (hc : c.peek.kind ∈ withinSigns) : M.Same c d := by
  refine (Mirror.cases h).resolve_right fun hended => ?_
  rw [hended.kind] at hc
  simp [withinSigns] at hc

/-- What mirrors everywhere mirrors within parentheses. -/
lemma GuardMirrors.within (h : GuardMirrors M inner inner') : MirrorsWithin M inner inner' :=
  fun c d hrel a c' hp _ => (h c d hrel).ok a c' hp

section Layers

variable {operator : Parser (Option Unit)} {signs : List Kind} {operand operand' : Parser Predicate}

/-- Rounds of an operator and an operand, of which the last one stops before a sign of logic.  So
does what stands in front of them: either a round follows it or they are none.

**Proof sketch.** Induction on the bound.  Where no round follows, the reading stops on both sides
before a sign of logic; where one does, its operand stops before the sign of the next round. -/
lemma links_within (hop : LooksFor operator signs) (hsigns : signs ⊆ withinSigns)
    (hoperand : MirrorsWithin M operand operand') (n : Nat) :
    ∀ steps c c', manyUpTo (link operator operand) n c = .ok steps c' →
      c'.peek.kind ∈ withinSigns → c.peek.kind ∈ withinSigns ∧ ∀ d, M.Rel c d →
        ∃ steps' d', manyUpTo (link operator operand') n d = .ok steps' d'
          ∧ List.Forall₂ (fun s s' => s.1 = s'.1 ∧ M.Predicates s.2 s'.2) steps steps'
          ∧ M.Rel c' d' := by
  induction n with
  | zero =>
    intro steps c c' hrun hc'
    obtain ⟨rfl, rfl⟩ := EStateM.Result.ok.inj hrun
    exact ⟨hc', fun d h => ⟨[], d, rfl, .nil, h⟩⟩
  | succ n ih =>
    intro steps c c' hrun hc'
    obtain ⟨o, c₁, hlink, hrun⟩ := bind_eq_ok.1 hrun
    obtain ⟨sign, c₀, hsign, hlink⟩ := bind_eq_ok.1 hlink
    rw [hop.run] at hsign
    by_cases hc : c.peek.kind ∈ signs
    · -- a sign of the chain is one within parentheses, so that the right side sees it too
      rw [if_pos hc] at hsign
      obtain ⟨rfl, rfl⟩ := EStateM.Result.ok.inj hsign
      obtain ⟨rhs, c₂, hrhs, hlink⟩ := bind_eq_ok.1 hlink
      obtain ⟨rfl, rfl⟩ := EStateM.Result.ok.inj hlink
      obtain ⟨more, c₃, hmore, hrun⟩ := bind_eq_ok.1 hrun
      obtain ⟨rfl, rfl⟩ := EStateM.Result.ok.inj hrun
      obtain ⟨hc₂, hrest⟩ := ih more c₂ c₃ hmore hc'
      refine ⟨hsigns hc, fun d h => ?_⟩
      have hsame := same_of_withinSigns h (hsigns hc)
      obtain ⟨rhs', d₂, hrhs', halike, hrel⟩ :=
        hoperand _ _ (M.advance h hsame) rhs c₂ hrhs hc₂
      obtain ⟨more', d₃, hmore', hall, hrel⟩ := hrest d₂ hrel
      have hsign' : operator d = .ok (some ()) d.advance := by
        rw [hop.run, if_pos (hsame.kind ▸ hc)]
      exact ⟨((), rhs') :: more', d₃, bind_eq_ok.2 ⟨some ((), rhs'), d₂,
        bind_eq_ok.2 ⟨some (), _, hsign', bind_eq_ok.2 ⟨rhs', d₂, hrhs', rfl⟩⟩,
        bind_eq_ok.2 ⟨more', d₃, hmore', rfl⟩⟩, .cons ⟨rfl, halike⟩ hall, hrel⟩
    · -- the loop ends, on the right side too, because of what stands behind the chain
      rw [if_neg hc] at hsign
      obtain ⟨rfl, rfl⟩ := EStateM.Result.ok.inj hsign
      obtain ⟨rfl, rfl⟩ := EStateM.Result.ok.inj hlink
      obtain ⟨rfl, rfl⟩ := EStateM.Result.ok.inj hrun
      refine ⟨hc', fun d h => ⟨[], d, ?_, .nil, h⟩⟩
      have hsame := same_of_withinSigns h hc'
      have hsign' : operator d = .ok none d := by rw [hop.run, if_neg (hsame.kind ▸ hc)]
      exact bind_eq_ok.2 ⟨none, d, bind_eq_ok.2 ⟨none, d, hsign', rfl⟩, rfl⟩

/-- A chain of operands within parentheses.

**Proof sketch.** The first operand stops before the sign of the first round, or where the chain
does (`links_within`). -/
lemma leftAssoc_within [Lowers operand] [Lowers operand'] (hop : LooksFor operator signs)
    (hsigns : signs ⊆ withinSigns) (hoperand : MirrorsWithin M operand operand')
    {combine : Predicate → Unit → Predicate → Predicate}
    (hcombine : ∀ a a' op b b', M.Predicates a a' → M.Predicates b b' →
      M.Predicates (combine a op b) (combine a' op b')) :
    MirrorsWithin M (leftAssoc operator operand combine) (leftAssoc operator operand' combine) := by
  intro c d h a c' hrun hc'
  have := hop.rounds
  rw [leftAssoc_eq] at hrun
  obtain ⟨first, c₁, hfirst, hrun⟩ := bind_eq_ok.1 hrun
  obtain ⟨steps, c₂, hsteps, hrun⟩ := bind_eq_ok.1 hrun
  obtain ⟨rfl, rfl⟩ := EStateM.Result.ok.inj hrun
  have hbound (n : Nat) (hn : c₁.remaining ≤ n) :
      manyUpTo (link operator operand) n c₁ = .ok steps c₂ :=
    (many_eq_manyUpTo n c₁ hn).symm.trans hsteps
  obtain ⟨hc₁, -⟩ :=
    links_within hop hsigns hoperand _ steps c₁ c₂ (hbound c₁.remaining le_rfl) hc'
  obtain ⟨first', d₁, hfirst', halike, hrel⟩ := hoperand c d h first c₁ hfirst hc₁
  -- a bound that is large enough for both sides
  obtain ⟨-, hrest⟩ := links_within hop hsigns hoperand _ steps c₁ c₂
    (hbound (max c₁.remaining d₁.remaining) (le_max_left _ _)) hc'
  obtain ⟨steps', d₂, hsteps', hall, hrel⟩ := hrest d₁ hrel
  refine ⟨steps'.foldl (fun lhs step => combine lhs step.1 step.2) first', d₂, ?_, ?_, hrel⟩
  · rw [leftAssoc_eq]
    exact bind_eq_ok.2 ⟨first', d₁, hfirst', bind_eq_ok.2 ⟨steps', d₂,
      (many_eq_manyUpTo _ d₁ (le_max_right _ _)).trans hsteps', rfl⟩⟩
  · exact rel_chain hcombine halike hall

/-- An operand behind signs of negation, within parentheses. -/
lemma prefixed_within (hoperand : MirrorsWithin M operand operand') :
    MirrorsWithin M (prefixed notOperator? operand applyNot)
      (prefixed notOperator? operand' applyNot) := by
  intro c d h a c' hrun hc'
  obtain ⟨signs, c₁, hsigns, hrun⟩ := bind_eq_ok.1 hrun
  obtain ⟨p, c₂, hp, hrun⟩ := bind_eq_ok.1 hrun
  obtain ⟨rfl, rfl⟩ := EStateM.Result.ok.inj hrun
  obtain ⟨signs', d₁, hsigns', hall, hrel⟩ :=
    (Mirrors.many (fun _ _ h => notOperator?_mirrors h) h).ok signs c₁ hsigns
  obtain ⟨p', d₂, hp', halike, hrel⟩ := hoperand c₁ d₁ hrel p c₂ hp hc'
  refine ⟨signs'.foldr applyNot p', d₂,
    bind_eq_ok.2 ⟨signs', d₁, hsigns', bind_eq_ok.2 ⟨p', d₂, hp', rfl⟩⟩, ?_, hrel⟩
  refine List.rel_foldr ?_ halike hall
  exact fun _ _ hs _ _ hp => applyNot_alike hs hp

end Layers

/-- An atom within parentheses, if what its parentheses hold mirrors there. -/
lemma atomWith_within {parens parens' : Parser Predicate}
    (hparens : MirrorsWithin M parens parens') :
    MirrorsWithin M (atomWith parens) (atomWith parens') := by
  intro c d h
  have hcomparison : GuardMirrors M comparison comparison := fun _ _ h => comparison_mirrors h
  rcases Mirror.cases h with hsame | hended
  · by_cases hc : c.peek.kind = .symbol .lParen
    · rw [atomWith_of_lParen hc, atomWith_of_lParen (hsame.kind ▸ hc)]
      exact hparens c d h
    · rw [atomWith_congr parens comparison hc, atomWith_congr parens' comparison (hsame.kind ▸ hc)]
      exact (atomWith_mirrors hcomparison).within c d h
  · rw [atomWith_congr parens comparison (by simp [hended.kind]),
      atomWith_congr parens' comparison (hended.kind_ne rfl)]
    exact (atomWith_mirrors hcomparison).within c d h

/-- Where a group is read on the left side because a comparison is refused there, it is refused on
the right side as well.

**Proof sketch.** By cases on what happens on the left side.  A comparison is read alike on the
right.  If the comparison is refused and a group is read, the group is read on the right as well.
Behind it stands a parenthesis or a sign of logic, by `hc'`, so that on the right no comparison
stands there either (`comparison_refused_of_group`). -/
lemma orElseAfresh_within {n m : Nat}
    (hinner : GuardMirrors M (closed (predicateAfreshUpTo n)) (closed (predicateAfreshUpTo m))) :
    MirrorsWithin M (orElseAfresh comparison (group (predicateAfreshUpTo n)))
      (orElseAfresh comparison (group (predicateAfreshUpTo m))) := by
  intro c d h a c' hrun hc'
  unfold orElseAfresh at hrun
  rcases hcomparison : comparison c with ⟨a₁, c₁⟩ | ⟨fault, c₁⟩
  · simp only [hcomparison] at hrun
    obtain ⟨rfl, rfl⟩ := EStateM.Result.ok.inj hrun
    obtain ⟨b, d', hd, hab, hrel⟩ := (comparison_mirrors h).ok a₁ c₁ hcomparison
    exact ⟨b, d', by simp [orElseAfresh, hd], hab, hrel⟩
  · rcases hgroup : group (predicateAfreshUpTo n) c with ⟨a₂, c₂⟩ | ⟨fault₂, c₂⟩
    · simp only [hcomparison, hgroup] at hrun
      obtain ⟨rfl, rfl⟩ := EStateM.Result.ok.inj hrun
      obtain ⟨b, d', hd, hab, hrel⟩ := (group_mirrors hinner h).ok a₂ c₂ hgroup
      obtain ⟨other, d₁, hrefused⟩ :=
        comparison_refused_of_group hd ((same_of_withinSigns hrel hc').kind ▸ hc')
      exact ⟨b, d', by simp [orElseAfresh, hrefused, hd], hab, hrel⟩
    · simp [hcomparison, hgroup] at hrun

/-- What is mirrored within parentheses is mirrored up to the parenthesis that closes them. -/
lemma MirrorsWithin.closed (htotal : ¬ M.total) (h : MirrorsWithin M inner inner') :
    GuardMirrors M (closed inner) (closed inner') := by
  refine fun c d hrel => ⟨fun p c' hrun => ?_, fun h => absurd h htotal⟩
  obtain ⟨p, c₁, hp, hrun⟩ := bind_eq_ok.1 hrun
  obtain ⟨close, c₂, hclose, hrun⟩ := bind_eq_ok.1 hrun
  obtain ⟨rfl, rfl⟩ := EStateM.Result.ok.inj hrun
  obtain ⟨hc₁, -, rfl⟩ := expect_eq_ok.1 hclose
  have hsigns : c₁.peek.kind ∈ withinSigns := by simp [hc₁, withinSigns]
  obtain ⟨p', d₁, hp', halike, hrel⟩ := h c d hrel p c₁ hp hsigns
  have hsame := same_of_withinSigns hrel hsigns
  exact ⟨p', d₁.advance, bind_eq_ok.2 ⟨p', d₁, hp', bind_eq_ok.2 ⟨d₁.peek, _,
    expect_of_eq (hsame.kind ▸ hc₁), rfl⟩⟩, halike, M.advance hrel hsame⟩

/-! ## Predicates -/

/-- A predicate that is read afresh leaves no more ahead than there was. -/
instance lowers_predicateAfreshUpTo (n : Nat) : Lowers (predicateAfreshUpTo n) := by
  induction n with
  | zero => exact inferInstanceAs (Lowers (unexpected _))
  | succ n ih =>
    rw [predicateAfreshUpTo, predicateAfreshWith]
    infer_instance

/-- A predicate that is read afresh, at any cursor. -/
instance : Lowers predicateAfresh where
  le c p b h := (lowers_predicateAfreshUpTo c.remaining).le c p b h

/-- Predicates with bounds that differ by no more than what the right input is longer. -/
lemma predicateAfreshUpTo_within (htotal : ¬ M.total) (n k : Nat) :
    MirrorsWithin M (predicateAfreshUpTo n) (predicateAfreshUpTo (n + k)) := by
  induction n with
  | zero => exact fun c d h => nofun
  | succ n ih =>
    rw [Nat.add_right_comm]
    have hatom (n : Nat) : Lowers (atomWith (orElseAfresh comparison
        (group (predicateAfreshUpTo n)))) :=
      inferInstanceAs (Lowers (predicateAtomAfresh _))
    have hnegation := prefixed_within (atomWith_within (orElseAfresh_within (ih.closed htotal)))
    have hconjunction := leftAssoc_within looksFor_andOperator? (by simp [withinSigns]) hnegation
      fun _ _ _ _ _ ha hb => applyAnd_alike ha hb
    exact leftAssoc_within looksFor_orOperator? (by simp [withinSigns]) hconjunction
      fun _ _ _ _ _ ha hb => applyOr_alike ha hb

/-- **Predicates in parentheses mirror each other** wherever the left input ends. -/
theorem closed_mirrors (htotal : ¬ M.total) :
    GuardMirrors M (closed predicateAfresh) (closed predicateAfresh) := by
  refine MirrorsWithin.closed htotal fun c d h a c' hrun hc' => ?_
  obtain ⟨k, hremaining, -⟩ := M.remaining h
  rw [predicateAfresh, hremaining]
  exact predicateAfreshUpTo_within htotal c.remaining k c d h a c' hrun hc'

end RakeLang.Parser
