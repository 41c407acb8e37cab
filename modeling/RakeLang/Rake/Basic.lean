import RakeLang.Predicate.Basic
import RakeLang.Statement.Basic

/-!
# The sections of a rake

A rake sorts lanes by guards.  Tines name the guards, through blocks compute a value where a
guard holds, and the sweep puts the values together.

## Main definitions

* `RakeLang.TineDecl`, `RakeLang.ThroughBlock`, `RakeLang.SweepBlock` — the sections.
* `RakeLang.Fallback` — the value of the lanes for which a guard does not hold.
-/

set_option relaxedAutoImplicit false
set_option autoImplicit false

namespace RakeLang

/-- A tine and its guard. -/
structure TineDecl where
  tine : TineRef
  guard : Predicate
  span : Span
  deriving Repr

/-- The guard of a through block. -/
inductive ThroughGuard where
  | tine (ref : TineRef)
  | predicate (guard : Predicate)
  deriving Repr

/-- Where a guard stands. -/
def ThroughGuard.span : ThroughGuard → Span
  | tine ref => ref.span
  | predicate guard => guard.span

/-- The value of the lanes for which a guard does not hold: a constant. -/
inductive Fallback where
  | scalar (literal : ScalarLiteral)
  | number (value : Number) (span : Span)
  | bool (value : Bool) (span : Span)
  deriving Repr

/-- The constant as an expression. -/
def Fallback.toExpression : Fallback → Expression
  | scalar literal => .scalar literal
  | number value span => .number value span
  | bool value span => .bool value span

/-- The computation for the lanes of a guard. -/
structure ThroughBlock where
  guard : ThroughGuard
  fallback : Option Fallback
  setup : List LetBinding
  value : Expression
  binding : String
  span : Span
  deriving Repr

/-- The lanes that an arm of a sweep takes its value for. -/
inductive SweepTarget where
  | tine (ref : TineRef)
  /-- All lanes that are left. -/
  | wildcard (span : Span)
  deriving Repr

/-- Where the target of an arm stands. -/
def SweepTarget.span : SweepTarget → Span
  | tine ref => ref.span
  | wildcard span => span

/-- An arm of a sweep. -/
structure SweepArm where
  target : SweepTarget
  value : Expression
  span : Span
  deriving Repr

/-- The values of all lanes, put together. -/
structure SweepBlock where
  arms : List SweepArm
  binding : String
  span : Span
  deriving Repr

end RakeLang
