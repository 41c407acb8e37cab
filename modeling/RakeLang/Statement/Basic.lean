import RakeLang.Expression.Basic

/-!
# Statements

The syntax trees of the statements in the body of a routine.

## Main definitions

* `RakeLang.LetBinding` — a name for a value.
* `RakeLang.Statement` — the statements.
-/

set_option relaxedAutoImplicit false
set_option autoImplicit false

namespace RakeLang

/-- A name for a value, with a type or without one. -/
structure LetBinding where
  name : String
  type : Option DataType
  value : Expression
  span : Span
  deriving Repr

/-- The statements. -/
inductive Statement where
  | letBinding (binding : LetBinding)
  | assign (name : String) (value : Expression) (span : Span)
  /-- The body for each bundle of a pack. -/
  | overPack (pack : Expression) (count : ScalarLiteral) (binding : String) (body : Expression)
      (span : Span)
  | expression (value : Expression)
  deriving Repr

/-- Where a statement stands. -/
def Statement.span : Statement → Span
  | letBinding binding => binding.span
  | assign _ _ span | overPack _ _ _ _ span => span
  | expression value => value.span

end RakeLang
