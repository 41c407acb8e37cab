import RakeLang.Expression.Basic

/-!
# Predicates

The syntax trees of guards.  A guard combines comparisons of expressions and tests of tines with
the words of logic.

## Main definitions

* `RakeLang.TineRef` — the mention of a tine.
* `RakeLang.Predicate` — the syntax tree of a predicate.
* `RakeLang.Predicate.span` — where a predicate stands.
-/

set_option relaxedAutoImplicit false
set_option autoImplicit false

namespace RakeLang

/-- The mention of a tine, without its number sign.  Whether there is such a tine is not asked
here. -/
structure TineRef where
  name : String
  span : Span
  deriving DecidableEq, Repr

/-- The syntax tree of a predicate. -/
inductive Predicate where
  | or (lhs rhs : Predicate) (span : Span)
  | and (lhs rhs : Predicate) (span : Span)
  | not (operand : Predicate) (span : Span)
  | compare (op : CompareOp) (lhs rhs : Expression) (span : Span)
  /-- The tine is active. -/
  | tineTest (tine : TineRef)
  | group (inner : Predicate) (span : Span)
  | const (value : Bool) (span : Span)
  deriving Repr

/-- Where a predicate stands. -/
def Predicate.span : Predicate → Span
  | or _ _ span | and _ _ span | not _ span | compare _ _ _ span | group _ span
  | const _ span => span
  | tineTest tine => tine.span

end RakeLang
