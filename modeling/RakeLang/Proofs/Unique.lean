import RakeLang.Proofs.Accepting.Expression
import RakeLang.Proofs.Reading.Definition

/-!
# The tree of a list of tokens

Every expression that is read keeps the rules of the table of levels, in it and in all expressions
inside it.  There is only one such expression, up to its spans, for the tokens that spell it: the
reader of expressions accepts both, and it answers once.

## Main definitions

* `RakeLang.Expression.WellBuilt` — the expression is ranked everywhere and the only one.

## Main results

* `RakeLang.Expression.Canonical.unique` — canonical expressions with a spelling in common.
* `RakeLang.wellBuilt_of_read` — the expressions in whatever is read are well built.
-/

set_option relaxedAutoImplicit false
set_option autoImplicit false

namespace RakeLang

open Token

namespace Expression

/-- Two canonical expressions that are spelled by the same tokens are the same up to their
spans. -/
theorem Canonical.unique {e₁ e₂ : Expression} {ts : List Token} (h₁ : e₁.Canonical)
    (h₂ : e₂.Canonical) (hts₁ : ts ∈ e₁.spelling) (hts₂ : ts ∈ e₂.spelling) :
    e₁.withoutSpans = e₂.withoutSpans := by
  have hrest : EndsExpression [] := endsExpression_of_headKind (by simp)
  have hc : (⟨[], ts, ⟨.eof, "", .origin⟩, rfl⟩ : Cursor).ahead = ts ++ [] := by simp
  obtain ⟨a₁, ha₁, hread₁⟩ := Parser.expression_accepts h₁ hts₁ hrest _ hc
  obtain ⟨a₂, ha₂, hread₂⟩ := Parser.expression_accepts h₂ hts₂ hrest _ hc
  obtain ⟨rfl, -⟩ := EStateM.Result.ok.inj (hread₁.symm.trans hread₂)
  exact ha₁.symm.trans ha₂

/-- The expression keeps the rules of the table of levels everywhere, and it is, up to its spans,
the only canonical one for each list of tokens that spells it. -/
structure WellBuilt (e : Expression) : Prop where
  canonical : e.Canonical
  ranked : e.Everywhere Ranked
  unique : ∀ ts ∈ e.spelling, ∀ e' : Expression, e'.Canonical → ts ∈ e'.spelling →
    e'.withoutSpans = e.withoutSpans

/-- A canonical expression is well built. -/
lemma Canonical.wellBuilt {e : Expression} (h : e.Canonical) : e.WellBuilt where
  canonical := h
  ranked := Everywhere.imp (fun _ hrules => hrules.1) e h
  unique _ hts _ h' hts' := h'.unique h hts' hts

end Expression

/-- The expressions in the definitions that a row of attempts gave are canonical.

**Proof sketch.** Induction on the bound. -/
lemma canonical_of_attemptsUpTo (mode : ErrorMode) (n : Nat) :
    ∀ c : Cursor, ∀ d ∈ (attemptsUpTo mode n c).1.filterMap Attempt.definition?,
      ∀ e ∈ d.expressions, e.Canonical := by
  induction n with
  | zero => intro c d hd; simp [attemptsUpTo] at hd
  | succ n ih =>
    intro c d hd
    rw [attemptsUpTo] at hd
    by_cases hend : c.atEnd = true
    · simp [hend] at hd
    rw [if_neg hend] at hd
    rcases hdef : Parser.definition c with ⟨d', behind⟩ | ⟨fault, behind⟩
    · obtain ⟨ts, -, -, hcan⟩ := (Parser.definition_ensures c).ok d' behind hdef
      simp only [hdef, Attempt.definition?, Except.toOption, List.filterMap_cons,
        List.mem_cons] at hd
      rcases hd with rfl | hd
      · exact hcan
      · exact ih behind d hd
    · simp only [hdef] at hd
      cases mode with
      | failFast => simp [Attempt.definition?, Except.toOption] at hd
      | collectAll => exact ih _ d (by simpa [Attempt.definition?, Except.toOption] using hd)

/-- Every expression in what is read from a cursor on — as an expression, as an operand in a
predicate, or in a source file — has the shape of the table of levels, in it and in all
expressions inside it, and it is the only tree of its tokens. -/
theorem wellBuilt_of_read (c : Cursor) :
    (∀ e c', Parser.expression c = .ok e c' →
        e.WellBuilt ∧ ∃ ts, c.Reads SplitsTo ts c' ∧ ts ∈ e.spelling)
      ∧ (∀ p c', Parser.predicate c = .ok p c' → ∀ e ∈ p.operands, e.WellBuilt)
      ∧ ∀ mode, ∀ e ∈ (readDefinitions mode c).file.expressions, e.WellBuilt := by
  refine ⟨?_, ?_, ?_⟩
  · intro e c' h
    obtain ⟨ts, hread, he⟩ := (Parser.expression_ensures c).ok e c' h
    exact ⟨he.2.1.wellBuilt, ts, hread, he.1⟩
  · intro p c' h e he
    obtain ⟨ts, -, hp⟩ := (Parser.predicate_ensures c).ok p c' h
    exact (hp.2.operands e he).wellBuilt
  · intro mode e he
    obtain ⟨d, hd, hed⟩ := List.mem_flatMap.1 he
    exact (canonical_of_attemptsUpTo mode _ c d hd e hed).wellBuilt

/-- Two differences are read from left to right, and what is read is well built. -/
theorem wellBuilt_of_read_differences :
    ∃ e c', Parser.expression ⟨[], [⟨.ident, "a", .origin⟩, ⟨.symbol .minus, "-", .origin⟩,
        ⟨.ident, "b", .origin⟩, ⟨.symbol .minus, "-", .origin⟩, ⟨.ident, "c", .origin⟩],
        ⟨.eof, "", .origin⟩, rfl⟩ = .ok e c'
      ∧ e = .binary .sub (.binary .sub (.ident "a" .origin) (.ident "b" .origin)
        .origin) (.ident "c" .origin) .origin
      ∧ e.WellBuilt := by
  have hwell : ∀ (c : Cursor) (P : Expression → Prop),
      (∃ e c', Parser.expression c = .ok e c' ∧ P e) →
        ∃ e c', Parser.expression c = .ok e c' ∧ P e ∧ e.WellBuilt := by
    rintro c P ⟨e, c', h, he⟩
    exact ⟨e, c', h, he, ((wellBuilt_of_read c).1 e c' h).1⟩
  exact hwell _ _ ⟨_, _, rfl, rfl⟩

end RakeLang
