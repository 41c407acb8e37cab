import RakeLang.Proofs.Mirroring.Expression
import RakeLang.Proofs.Rereading.Statement

/-!
# Statements mirror each other

## Main results

* `RakeLang.Parser.letForm_mirrors`, `RakeLang.Parser.statement_mirrors` — what the word `let`
  begins and statements are read alike.
-/

set_option relaxedAutoImplicit false
set_option autoImplicit false

namespace RakeLang.Parser

open Token

variable {M : Mirror} {c d : Cursor}

/-! ## Bindings -/

/-- Types behind a colon mirror each other, and so do the places where there is none. -/
lemma typeAnnotation?_mirrors (h : M.Rel c d) :
    Mirrors M typeAnnotation? typeAnnotation? c d (Option.Rel (M.Alike DataType.mapSpans)) := by
  unfold typeAnnotation?
  refine .eat_bind h (by simp) rfl (fun hrel => ?_) (.pure h .none)
  refine (dataType_mirrors hrel).bind ?_
  rintro t t' c₁ d₁ ht hrel
  exact .pure hrel (.some ht)

/-- What a binding leads to. -/
def BindingsAlike (M : Mirror) (b b' : LetBinding) : Prop :=
  M.Alike LetBinding.mapSpans b b' ∧ M.Spans b.span b'.span

/-- Bindings mirror each other, from the word with which they begin. -/
lemma letBinding_mirrors (h : M.Begins c d) :
    Mirrors M letBinding letBinding c d (BindingsAlike M) := by
  unfold letBinding
  refine .expect_begins h (by simp) fun hstart hrel => ?_
  refine .expect_bind hrel (by simp) fun hname hrel => (typeAnnotation?_mirrors hrel).bind ?_
  rintro type type' c₁ d₁ htype hrel
  refine .expect_bind hrel (by simp) fun _ hrel => (expression_mirrors _ _ hrel).bind ?_
  rintro value value' c₂ d₂ hvalue hrel
  refine .spanFrom_bind hrel hstart.span fun s s' hs => .pure hrel ⟨?_, hs⟩
  simp only [Mirror.Alike, LetBinding.mapSpans, hname.lexeme, M.view hs, Mirror.Alike.of_rel htype]
  rw [hvalue.1]

/-- What the word `let` begins mirrors itself, as a binding or as an expression. -/
theorem letForm_mirrors (h : M.Rel c d) :
    Mirrors M letForm letForm c d (M.Alike LetForm.mapSpans) := by
  unfold letForm
  refine (letBinding_mirrors (.inl h)).bind ?_
  rintro ⟨name, type, value, span⟩ ⟨name', type', value', span'⟩ c₁ d₁ ⟨halike, hspan⟩ hrel
  have hbinding : M.Alike LetForm.mapSpans (.binding ⟨name, type, value, span⟩)
      (.binding ⟨name', type', value', span'⟩) := congrArg LetForm.binding halike
  simp only [Mirror.Alike, LetBinding.mapSpans, LetBinding.mk.injEq] at halike
  obtain ⟨rfl, htype, hvalue, -⟩ := halike
  have hsome : type.isSome = type'.isSome := by
    rw [← Option.isSome_map (f := DataType.mapSpans M.left), htype, Option.isSome_map]
  simp only [← hsome]
  split
  · exact .pure hrel hbinding
  · refine .eat_bind hrel (by simp) rfl (fun hrel => ?_) (.pure hrel hbinding)
    refine (letBody_mirrors expression_mirrors hspan hvalue hrel).bind ?_
    rintro e e' c₂ d₂ he hrel
    exact .pure hrel (congrArg LetForm.expression he.1)

/-! ## Statements -/

/-- Assignments mirror each other. -/
lemma assignment_mirrors (h : M.Rel c d) :
    Mirrors M assignment assignment c d (M.Alike Statement.mapSpans) := by
  unfold assignment
  refine .expect_bind h (by simp) fun hname hrel => ?_
  refine .expect_bind hrel (by simp) fun _ hrel => (expression_mirrors _ _ hrel).bind ?_
  rintro e e' c₁ d₁ he hrel
  refine .spanFrom_bind hrel hname.span fun s s' hs => .pure hrel ?_
  simp only [Mirror.Alike, Statement.mapSpans, hname.lexeme, M.view hs]
  rw [he.1]

/-- Passes over packs mirror each other. -/
lemma passOver_mirrors (h : M.Rel c d) :
    Mirrors M passOver passOver c d (M.Alike Statement.mapSpans) := by
  unfold passOver
  refine .expect_bind h (by simp) fun hstart hrel => (expression_mirrors _ _ hrel).bind ?_
  rintro pack pack' c₁ d₁ hpack hrel
  refine .expect_bind hrel (by simp) fun _ hrel => (scalarLiteral_mirrors hrel).bind ?_
  rintro count count' c₂ d₂ hcount hrel
  refine .expect_bind hrel (by simp) fun _ hrel => ?_
  refine .expect_bind hrel (by simp) fun hbinding hrel => ?_
  refine .expect_bind hrel (by simp) fun _ hrel => (expression_mirrors _ _ hrel).bind ?_
  rintro body body' c₃ d₃ hbody hrel
  refine .spanFrom_bind hrel hstart.span fun s s' hs => .pure hrel ?_
  simp only [Mirror.Alike, Statement.mapSpans, hbinding.lexeme, M.view hs]
  rw [hpack.1, hcount.1, hbody.1]

/-- Expressions as statements mirror each other. -/
lemma expressionStatement_mirrors (h : M.Rel c d) :
    Mirrors M expressionStatement expressionStatement c d (M.Alike Statement.mapSpans) := by
  unfold expressionStatement
  refine (expression_mirrors _ _ h).bind ?_
  rintro e e' c₁ d₁ he hrel
  exact .pure hrel (congrArg Statement.expression he.1)

/-- **Statements mirror each other.** -/
theorem statement_mirrors (h : M.Rel c d) :
    Mirrors M statement statement c d (M.Alike Statement.mapSpans) := by
  refine .of_strict h (strict_statement c) fun hsame => ?_
  unfold statement
  refine .peekKind_bind ?_
  rw [← hsame.kind]
  split
  · refine (letForm_mirrors h).bind ?_
    rintro (b | value) (b' | value') c₁ d₁ hform hrel
    · exact .pure hrel (congrArg Statement.letBinding (LetForm.binding.inj hform))
    · cases hform
    · cases hform
    · exact .pure hrel (congrArg Statement.expression (LetForm.expression.inj hform))
  · exact passOver_mirrors h
  · rename_i hc
    refine .checkAhead_cases h hsame (by simp [hc]) (by simp) rfl fun ahead => ?_
    cases ahead
    · exact expressionStatement_mirrors h
    · exact assignment_mirrors h
  · exact expressionStatement_mirrors h

end RakeLang.Parser
