import RakeLang.Proofs.Canonical.Predicate
import RakeLang.SourceFile.Basic

/-!
# The expressions in a source file

A property of all expressions in a definition is stated with the list of the outermost ones, in
the order in which they stand.

## Main definitions

* `RakeLang.Statement.expressions`, `RakeLang.ThroughBlock.expressions` and others — the outermost
  expressions in the parts of a definition.
* `RakeLang.Definition.expressions`, `RakeLang.SourceFile.expressions` — the outermost expressions
  in a definition and in a file.
-/

set_option relaxedAutoImplicit false
set_option autoImplicit false

namespace RakeLang

/-- The expressions in a statement. -/
def Statement.expressions : Statement → List Expression
  | letBinding binding => [binding.value]
  | assign _ value _ => [value]
  | overPack pack _ _ body _ => [pack, body]
  | expression value => [value]

/-- The expressions in the guard of a through block. -/
def ThroughGuard.expressions : ThroughGuard → List Expression
  | tine _ => []
  | predicate guard => guard.operands

/-- The expressions in a through block, its constant included. -/
def ThroughBlock.expressions (b : ThroughBlock) : List Expression :=
  b.guard.expressions ++ b.fallback.toList.map Fallback.toExpression
    ++ b.setup.map LetBinding.value ++ [b.value]

/-- The expressions in a rake. -/
def RakeDef.expressions (r : RakeDef) : List Expression :=
  r.setup.map LetBinding.value ++ r.tines.flatMap (fun d => d.guard.operands)
    ++ r.throughs.flatMap ThroughBlock.expressions ++ r.sweep.arms.map SweepArm.value

/-- The expressions in a definition. -/
def Definition.expressions : Definition → List Expression
  | stack _ | single _ | type _ => []
  | crunch routine | run routine => routine.body.flatMap Statement.expressions
  | rake body => body.expressions

/-- The expressions in a source file. -/
def SourceFile.expressions (f : SourceFile) : List Expression :=
  f.definitions.flatMap Definition.expressions

/-- A constant is a canonical expression. -/
lemma Fallback.canonical_toExpression (f : Fallback) : f.toExpression.Canonical := by
  cases f
  all_goals
    rw [toExpression, Expression.Canonical, Expression.Everywhere]
    · exact ⟨trivial, trivial⟩
    all_goals simp

end RakeLang
