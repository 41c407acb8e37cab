import RakeLang.Numeral.Basic
import RakeLang.Span

/-!
# Scalar literals

A scalar literal is a value between angles that is the same for all lanes: a number, or a
variable with a path of fields.

## Main definitions

* `RakeLang.ScalarValue` — what stands between the angles.
* `RakeLang.ScalarLiteral` — the literal with its span.
-/

set_option relaxedAutoImplicit false
set_option autoImplicit false

namespace RakeLang

/-- What stands between the angles of a scalar literal. -/
inductive ScalarValue where
  /-- A variable and the fields that are taken from it, the outermost last. -/
  | path (root : String) (fields : List String)
  | number (value : Number)
  deriving Repr

/-- A value between angles. -/
structure ScalarLiteral where
  value : ScalarValue
  span : Span
  deriving Repr

end RakeLang
