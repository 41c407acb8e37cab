import RakeLang.Proofs.Settling.Simulation

/-!
# Repetitions in step

Repetitions, lists and chains are read in step if their rounds are.  Both sides bound the rounds by
what remains ahead of them, which need not be the same on both sides; but a round that answers
something reads a token, so that any bound beyond what remains is as good as another.

## Main results

* `RakeLang.Parser.Simulates.many` — repetitions.
* `RakeLang.Parser.Simulates.listed` — lists in brackets.
* `RakeLang.Parser.Simulates.leftAssoc`, `RakeLang.Parser.Simulates.prefixed` — chains of operators
  and operators in front.
-/

set_option relaxedAutoImplicit false
set_option autoImplicit false

namespace RakeLang.Parser

open Token

variable {α β γ δ : Type} {S : Simulation} {σ : Mode} {c d : Cursor}

/-! ## Rounds of chains -/

/-- An operator and the operand behind it are a round of a repetition. -/
instance (operator : Parser (Option γ)) [ho : Rounds operator] (operand : Parser α)
    [hp : Lowers operand] : Rounds (link operator operand) where
  le c o c₂ h := by
    obtain ⟨o, c₁, h₁, h₂⟩ := bind_eq_ok.1 h
    have hle := ho.le c o c₁ h₁
    rcases o with _ | op
    · obtain ⟨-, rfl⟩ := EStateM.Result.ok.inj h₂
      exact hle
    · obtain ⟨rhs, c₃, h₃, h₄⟩ := bind_eq_ok.1 h₂
      obtain ⟨-, rfl⟩ := EStateM.Result.ok.inj h₄
      exact (hp.le c₁ rhs c₃ h₃).trans hle
  some_lt c b c₂ h := by
    obtain ⟨o, c₁, h₁, h₂⟩ := bind_eq_ok.1 h
    rcases o with _ | op
    · cases h₂
    · obtain ⟨rhs, c₃, h₃, h₄⟩ := bind_eq_ok.1 h₂
      obtain ⟨-, rfl⟩ := EStateM.Result.ok.inj h₄
      exact (hp.le c₁ rhs c₃ h₃).trans_lt (ho.some_lt c op c₁ h₁)
  at_end c hc := bind_eq_ok.2 ⟨none, c, ho.at_end c hc, rfl⟩

/-- A chain is its first operand and the rounds behind it. -/
lemma leftAssoc_eq (operator : Parser (Option γ)) (operand : Parser α)
    (combine : α → γ → α → α) :
    leftAssoc operator operand combine = (do
      let first ← operand
      let steps ← many (link operator operand)
      return steps.foldl (fun lhs step => combine lhs step.1 step.2) first) := rfl

/-- A chain of operands takes from what is ahead. -/
instance {operator : Parser (Option γ)} [Rounds operator] {operand : Parser α} [Lowers operand]
    {combine : α → γ → α → α} : Lowers (leftAssoc operator operand combine) := by
  rw [leftAssoc_eq]
  infer_instance

/-- Chains of the same operators with related operands are related. -/
lemma rel_chain {R : α → β → Prop} {combine : α → γ → α → α} {combine' : β → γ → β → β}
    (hcombine : ∀ a a' op b b', R a a' → R b b' → R (combine a op b) (combine' a' op b'))
    {a : α} {b : β} {steps : List (γ × α)} {steps' : List (γ × β)} (hab : R a b)
    (hall : List.Forall₂ (fun s s' => s.1 = s'.1 ∧ R s.2 s'.2) steps steps') :
    R (steps.foldl (fun lhs step => combine lhs step.1 step.2) a)
      (steps'.foldl (fun lhs step => combine' lhs step.1 step.2) b) := by
  refine List.rel_foldl (fun _ _ ha _ _ hs => ?_) hab hall
  rw [hs.1]
  exact hcombine _ _ _ _ _ ha hs.2

namespace Simulates

/-! ## Repetitions -/

section Many

variable {p : Parser (Option α)} {q : Parser (Option β)} [Rounds p] [Rounds q]
  {R : α → β → Prop} {M : Mode → Prop} {P : Cursor → Prop}

omit [Rounds q] in
/-- Repetitions with the same bound.

**Proof sketch.** Induction on the bound: both sides answer something in a round or neither
does, and go on behind it. -/
lemma manyUpTo
    (hstep : ∀ σ c d, M σ → P c → S.Rel σ c d →
      Simulates S p q c d fun o o' τ => Option.Rel R o o' ∧ M τ)
    (hP : ∀ c a b, P c → p c = .ok (some a) b → P b) (n : Nat) :
    ∀ σ c d, M σ → P c → S.Rel σ c d →
      Simulates S (manyUpTo p n) (manyUpTo q n) c d fun as bs τ =>
        List.Forall₂ R as bs ∧ M τ := by
  induction n with
  | zero => exact fun σ c d hσ _ h => pure h ⟨.nil, hσ⟩
  | succ n ih =>
    intro σ c d hσ hc h
    have hrest : Lowers (Parser.manyUpTo p n) := lowers_manyUpTo n
    refine bind_of_lowers (fun o => by cases o <;> infer_instance) (hstep σ c d hσ hc h) ?_
    rintro o o' τ c₁ d₁ hrun - ⟨ho, hτ⟩ hrel
    cases ho with
    | none => exact pure hrel ⟨.nil, hτ⟩
    | some hab =>
      refine (ih τ c₁ d₁ hτ (hP _ _ _ hc hrun) hrel).bind ?_
      rintro as bs ρ c₂ d₂ - - ⟨has, hρ⟩ hrel
      exact pure hrel ⟨.cons hab has, hρ⟩

/-- Repetitions, where `P` holds of the cursors behind which a round may begin.

**Proof sketch.** The first round is in step.  Behind it both repetitions have bounds that are
beyond what remains, so that they can be taken with the larger of the two. -/
lemma many_of
    (hstep : ∀ σ c d, M σ → P c → S.Rel σ c d →
      Simulates S p q c d fun o o' τ => Option.Rel R o o' ∧ M τ)
    (hP : ∀ c a b, P c → p c = .ok (some a) b → P b) (h : S.Rel σ c d) (hσ : M σ) (hc : P c) :
    Simulates S (many p) (many q) c d fun as bs τ => List.Forall₂ R as bs ∧ M τ := by
  have hrest : Lowers (fun c => Parser.manyUpTo p c.remaining c : Parser (List α)) :=
    ⟨fun c a b h => (lowers_manyUpTo c.remaining).le c a b h⟩
  refine bind_of_lowers (fun o => ?_) (hstep σ c d hσ hc h) ?_
  · cases o with
    | none => exact inferInstanceAs (Lowers (Pure.pure []))
    | some a => exact Lowers.bind (p := fun c => Parser.manyUpTo p c.remaining c)
  rintro o o' τ c₁ d₁ hrun - ⟨ho, hτ⟩ hrel
  cases ho with
  | none => exact pure hrel ⟨.nil, hτ⟩
  | some hab =>
    have hmany := manyUpTo hstep hP (max c₁.remaining d₁.remaining) τ c₁ d₁ hτ
      (hP _ _ _ hc hrun) hrel
    have htail : Simulates S (fun c => Parser.manyUpTo p c.remaining c)
        (fun d => Parser.manyUpTo q d.remaining d) c₁ d₁ _ :=
      hmany.congr (manyUpTo_eq _ _ c₁ le_rfl (le_max_left _ _))
        (manyUpTo_eq _ _ d₁ le_rfl (le_max_right _ _))
    refine bind (p := fun c => Parser.manyUpTo p c.remaining c) htail ?_
    rintro as bs ρ c₂ d₂ - - ⟨has, hρ⟩ hrel
    exact pure hrel ⟨.cons hab has, hρ⟩

/-- Repetitions. -/
theorem many
    (hstep : ∀ σ c d, M σ → S.Rel σ c d →
      Simulates S p q c d fun o o' τ => Option.Rel R o o' ∧ M τ)
    (h : S.Rel σ c d) (hσ : M σ) :
    Simulates S (many p) (many q) c d fun as bs τ => List.Forall₂ R as bs ∧ M τ :=
  many_of (P := fun _ => True) (fun σ c d hσ _ => hstep σ c d hσ) (fun _ _ _ _ _ => trivial) h hσ
    trivial

end Many

/-! ## Lists -/

section Lists

variable {item : Parser α} {item' : Parser β} [Lowers item] [Lowers item'] {R : α → β → Prop}
  {M N : Mode → Prop}

omit [Lowers item'] in
/-- An item behind a comma, if one stands at the cursors. -/
lemma afterComma (h : S.Rel σ c d) (hσ : N σ) (hcomma : M (σ.step (.symbol .comma)))
    (hitem : ∀ σ c d, M σ → S.Rel σ c d →
      Simulates S item item' c d fun a b τ => R a b ∧ N τ) :
    Simulates S (afterComma item) (afterComma item') c d fun o o' τ => Option.Rel R o o' ∧ N τ := by
  unfold Parser.afterComma
  refine eat_bind (f := fun eaten => if eaten = true then item >>= fun a => Pure.pure (some a)
    else Pure.pure none) h (by simp) (σ.clear_of_inSplit rfl) (fun _ hrel => ?_) fun _ _ => ?_
  · refine (hitem _ _ _ hcomma hrel).bind ?_
    rintro a b τ c₁ d₁ - - ⟨hab, hτ⟩ hrel
    exact pure hrel ⟨.some hab, hτ⟩
  · exact pure h ⟨.none, hσ⟩

/-- Items with commas between them.  They begin in the modes `M`, which stand behind no operand,
and end in the modes `N`. -/
lemma manyAfterComma (h : S.Rel σ c d) (hσ : N σ)
    (hcomma : ∀ τ, N τ → M (τ.step (.symbol .comma)))
    (hitem : ∀ σ c d, M σ → S.Rel σ c d →
      Simulates S item item' c d fun a b τ => R a b ∧ N τ) :
    Simulates S (Parser.many (Parser.afterComma item)) (Parser.many (Parser.afterComma item')) c d
      fun as bs τ => List.Forall₂ R as bs ∧ N τ :=
  many (fun τ _ _ hτ h => afterComma h hτ (hcomma τ hτ) hitem) h hσ

/-- A list in brackets, and what is read behind its closing bracket.

**Proof sketch.** At the end of the right side the left side would have to leave everything unread,
but the closing bracket is a token that it reads.  Elsewhere the closing bracket stands on both
sides, and the list is empty; or on neither, and the items are read in step. -/
theorem listed {close : Kind} {f : List α → Token → Parser γ} {g : List β → Token → Parser δ}
    [∀ as t, Lowers (f as t)] {Q : γ → δ → Mode → Prop} (h : S.Rel σ c d) (hσ : M σ)
    (hM : ∀ σ, M σ → σ.isBehind = false) (hcomma : ∀ τ, N τ → M (τ.step (.symbol .comma)))
    (hclose : close.inSplit = false) (heof : close ≠ .eof)
    (hitem : ∀ σ c d, M σ → S.Rel σ c d →
      Simulates S item item' c d fun a b τ => R a b ∧ N τ)
    (hf : ∀ as bs τ c₁ d₁, List.Forall₂ R as bs → (M τ ∨ N τ) → S.Same c₁ d₁ →
      S.Rel (τ.step close) c₁.advance d₁.advance →
        Simulates S (f as c₁.peek) (g bs d₁.peek) c₁.advance d₁.advance Q) :
    Simulates S (commaSeparated close item >>= fun as => expect close >>= f as)
      (commaSeparated close item' >>= fun bs => expect close >>= g bs) c d Q := by
  -- at the end of the right side, the closing bracket is one token too many
  have hstrict : Strict (commaSeparated close item >>= fun as => expect close >>= f as) c := by
    intro a b hp
    obtain ⟨as, c₁, h₁, h₂⟩ := bind_eq_ok.1 hp
    exact ((strict_expect heof).bind a b h₂).trans_le (Lowers.le _ _ _ h₁)
  refine of_strict_of_isBehind h (hM σ hσ) hstrict fun hsame => ?_
  have hlist : Simulates S (commaSeparated close item) (commaSeparated close item') c d
      fun as bs τ => List.Forall₂ R as bs ∧ (M τ ∨ N τ) := by
    unfold commaSeparated
    refine check_bind ?_
    rw [← hsame.kind]
    split
    · exact pure h ⟨.nil, .inl hσ⟩
    · refine (hitem σ c d hσ h).bind ?_
      rintro a b τ c₁ d₁ - - ⟨hab, hτ⟩ hrel
      refine (manyAfterComma hrel hτ hcomma hitem).bind ?_
      rintro as bs ρ c₂ d₂ - - ⟨has, hρ⟩ hrel
      exact pure hrel ⟨.cons hab has, .inr hρ⟩
  refine hlist.bind ?_
  rintro as bs τ c₁ d₁ - - ⟨has, hτ⟩ hrel
  exact expect_bind hrel heof (τ.clear_of_inSplit hclose) fun _ hsame hrel =>
    hf as bs τ c₁ d₁ has hτ hsame hrel

end Lists

/-! ## Operators -/

section Operators

variable {operator : Parser (Option γ)} [Rounds operator] {operand : Parser α}
  {operand' : Parser β} [Lowers operand] {R : α → β → Prop} {M N : Mode → Prop}

/-- A chain of operands.  An operator is looked for in the modes `M` and leads to the modes `N`, in
which an operand is read.

**Proof sketch.** The first operands are in step, and the repetition of operators with operands
is; related lists are put together to related answers. -/
theorem leftAssoc [Lowers operand'] {combine : α → γ → α → α} {combine' : β → γ → β → β}
    (hfirst : Simulates S operand operand' c d fun a b τ => R a b ∧ M τ)
    (hoperator : ∀ σ c d, M σ → S.Rel σ c d → Simulates S operator operator c d
      fun o o' τ => o = o' ∧ ((o = none → M τ) ∧ (o ≠ none → N τ)))
    (hoperand : ∀ σ c d, N σ → S.Rel σ c d →
      Simulates S operand operand' c d fun a b τ => R a b ∧ M τ)
    (hcombine : ∀ a a' op b b', R a a' → R b b' → R (combine a op b) (combine' a' op b')) :
    Simulates S (leftAssoc operator operand combine) (leftAssoc operator operand' combine') c d
      fun a b τ => R a b ∧ M τ := by
  rw [leftAssoc_eq, leftAssoc_eq]
  refine hfirst.bind ?_
  rintro a b τ c₁ d₁ - - ⟨hab, hτ⟩ hrel
  have hsteps := many (R := fun (s : γ × α) (s' : γ × β) => s.1 = s'.1 ∧ R s.2 s'.2) (M := M)
    (p := link operator operand) (q := link operator operand') ?_ hrel hτ
  · refine hsteps.bind ?_
    rintro steps steps' ρ c₂ d₂ - - ⟨hall, hρ⟩ hrel
    exact pure hrel ⟨rel_chain hcombine hab hall, hρ⟩
  · intro σ c d hσ h
    refine bind_of_lowers (fun o => by cases o <;> infer_instance) (hoperator σ c d hσ h) ?_
    rintro o _ τ c₁ d₁ - - ⟨rfl, hnone, hsome⟩ hrel
    rcases o with _ | op
    · exact pure hrel ⟨.none, hnone rfl⟩
    · refine (hoperand τ c₁ d₁ (hsome (by simp)) hrel).bind ?_
      rintro a b ρ c₂ d₂ - - ⟨hab, hρ⟩ hrel
      exact pure hrel ⟨.some ⟨rfl, hab⟩, hρ⟩

/-- Operators in front of an operand, all in the modes `M`.

**Proof sketch.** The operators are a repetition, in step by `many`, and the operand is read in step
behind them.  Putting the operators around related operands gives related values, one operator after
the other. -/
theorem prefixed {O : γ → γ → Prop} {combine : γ → α → α} {combine' : γ → β → β}
    (h : S.Rel σ c d) (hσ : M σ)
    (hoperator : ∀ σ c d, M σ → S.Rel σ c d →
      Simulates S operator operator c d fun o o' τ => Option.Rel O o o' ∧ M τ)
    (hoperand : ∀ σ c d, M σ → S.Rel σ c d →
      Simulates S operand operand' c d fun a b τ => R a b ∧ N τ)
    (hcombine : ∀ op op' a b, O op op' → R a b → R (combine op a) (combine' op' b)) :
    Simulates S (prefixed operator operand combine) (prefixed operator operand' combine') c d
      fun a b τ => R a b ∧ N τ := by
  unfold Parser.prefixed
  refine (many hoperator h hσ).bind ?_
  rintro ops ops' τ c₁ d₁ - - ⟨hops, hτ⟩ hrel
  refine (hoperand τ c₁ d₁ hτ hrel).bind ?_
  rintro a b ρ c₂ d₂ - - ⟨hab, hρ⟩ hrel
  refine pure hrel ⟨List.rel_foldr ?_ hab hops, hρ⟩
  exact fun _ _ hop _ _ h => hcombine _ _ _ _ hop h

end Operators

end Simulates

end RakeLang.Parser
