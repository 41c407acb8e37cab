import RakeLang.Proofs.Canonical.Definition

/-!
# Canonical definitions

A definition that a text can be read as keeps the rules of canonical types, expressions and
predicates in all its parts, and its lists are not empty where the language asks for an item: the
names of a result in parentheses, the tines, the through blocks and the arms of a rake.

## Main definitions

* `RakeLang.LetBinding.Canonical`, `RakeLang.Statement.Canonical` — canonical bindings and
  statements.
* `RakeLang.ThroughBlock.Canonical`, `RakeLang.SweepBlock.Canonical` — canonical sections of a rake.
* `RakeLang.Definition.Canonical` — canonical definitions.
-/

set_option relaxedAutoImplicit false
set_option autoImplicit false

namespace RakeLang

/-! ## Statements -/

/-- The type of the binding, if it has one, and its value are canonical. -/
structure LetBinding.Canonical (b : LetBinding) : Prop where
  type : ∀ t ∈ b.type, t.Canonical
  value : b.value.Canonical

/-- The types and the expressions in the statement are canonical. -/
def Statement.Canonical : Statement → Prop
  | letBinding binding => binding.Canonical
  | assign _ value _ => value.Canonical
  | overPack pack _ _ body _ => pack.Canonical ∧ body.Canonical
  | expression value => value.Canonical

/-! ## Sections of a rake -/

/-- The predicate of the guard, if it is one, is canonical. -/
def ThroughGuard.Canonical : ThroughGuard → Prop
  | tine _ => True
  | predicate guard => guard.Canonical

/-- The guard, the bindings and the value of the through block are canonical. -/
structure ThroughBlock.Canonical (b : ThroughBlock) : Prop where
  guard : b.guard.Canonical
  setup : ∀ s ∈ b.setup, s.Canonical
  value : b.value.Canonical

/-- The sweep has an arm, and the values of its arms are canonical. -/
structure SweepBlock.Canonical (b : SweepBlock) : Prop where
  ne_nil : b.arms ≠ []
  values : ∀ a ∈ b.arms, a.value.Canonical

/-! ## Definitions -/

/-- The type of the result is canonical, and a result in several names has one. -/
def ResultSpec.Canonical : ResultSpec → Prop
  | single _ type _ => ∀ t ∈ type, t.Canonical
  | tuple names _ => names ≠ []

/-- The signature and the statements of the routine are canonical. -/
structure Routine.Canonical (r : Routine) : Prop where
  params : ∀ p ∈ r.params, p.Canonical
  result : r.result.Canonical
  body : ∀ s ∈ r.body, s.Canonical

/-- The signature and the sections of the rake are canonical, and there is a tine and a through
block. -/
structure RakeDef.Canonical (r : RakeDef) : Prop where
  params : ∀ p ∈ r.params, p.Canonical
  result : r.result.Canonical
  setup : ∀ b ∈ r.setup, b.Canonical
  tines_ne_nil : r.tines ≠ []
  tines : ∀ d ∈ r.tines, d.guard.Canonical
  throughs_ne_nil : r.throughs ≠ []
  throughs : ∀ b ∈ r.throughs, b.Canonical
  sweep : r.sweep.Canonical

/-- The body of the definition is canonical. -/
def Definition.Canonical : Definition → Prop
  | stack record | single record => ∀ f ∈ record.fields, f.type.Canonical
  | type body => body.aliased.Canonical
  | crunch routine | run routine => routine.Canonical
  | rake body => body.Canonical

end RakeLang
