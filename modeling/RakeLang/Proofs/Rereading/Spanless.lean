import RakeLang.Proofs.Canonical.Expression
import RakeLang.Proofs.Canonical.Predicate
import RakeLang.Statement.Parser
import RakeLang.Definition.Basic

/-!
# Definitions without their spans

What a text means does not depend on where it stands: two trees mean the same if they are equal once
their spans are taken away.

## Main definitions

* `RakeLang.Statement.withoutSpans`, `RakeLang.Definition.withoutSpans` — a statement and a
  definition with all spans put to the start of the text.  -/

set_option relaxedAutoImplicit false
set_option autoImplicit false

namespace RakeLang

/-! ## Statements -/

/-- A binding without its spans. -/
def LetBinding.withoutSpans (b : LetBinding) : LetBinding :=
  ⟨b.name, b.type.map DataType.withoutSpans, b.value.withoutSpans, .origin⟩

/-- What the word `let` begins, with all spans put to the start of the text. -/
def Parser.LetForm.withoutSpans : LetForm → LetForm
  | binding b => binding b.withoutSpans
  | expression value => expression value.withoutSpans

/-- The statement with all spans put to the start of the text. -/
def Statement.withoutSpans : Statement → Statement
  | letBinding binding => letBinding binding.withoutSpans
  | assign name value _ => assign name value.withoutSpans .origin
  | overPack pack count binding body _ =>
    overPack pack.withoutSpans count.withoutSpans binding body.withoutSpans .origin
  | expression value => expression value.withoutSpans

/-! ## The sections of a rake -/

/-- A reference to a tine without its span. -/
def TineRef.withoutSpans (r : TineRef) : TineRef := ⟨r.name, .origin⟩

/-- A tine without its spans. -/
def TineDecl.withoutSpans (d : TineDecl) : TineDecl :=
  ⟨d.tine.withoutSpans, d.guard.withoutSpans, .origin⟩

/-- The guard of a through block without its spans. -/
def ThroughGuard.withoutSpans : ThroughGuard → ThroughGuard
  | tine ref => tine ref.withoutSpans
  | predicate guard => predicate guard.withoutSpans

/-- A fallback without its spans. -/
def Fallback.withoutSpans : Fallback → Fallback
  | scalar literal => scalar literal.withoutSpans
  | number value _ => number value .origin
  | bool value _ => bool value .origin

/-- A through block without its spans. -/
def ThroughBlock.withoutSpans (b : ThroughBlock) : ThroughBlock :=
  ⟨b.guard.withoutSpans, b.fallback.map Fallback.withoutSpans,
    b.setup.map LetBinding.withoutSpans, b.value.withoutSpans, b.binding, .origin⟩

/-- The target of a sweep arm without its span. -/
def SweepTarget.withoutSpans : SweepTarget → SweepTarget
  | tine ref => tine ref.withoutSpans
  | wildcard _ => wildcard .origin

/-- An arm of a sweep without its spans. -/
def SweepArm.withoutSpans (a : SweepArm) : SweepArm :=
  ⟨a.target.withoutSpans, a.value.withoutSpans, .origin⟩

/-- A sweep without its spans. -/
def SweepBlock.withoutSpans (b : SweepBlock) : SweepBlock :=
  ⟨b.arms.map SweepArm.withoutSpans, b.binding, .origin⟩

/-! ## Definitions -/

/-- The results of a routine without their spans. -/
def ResultSpec.withoutSpans : ResultSpec → ResultSpec
  | single name type _ => single name (type.map DataType.withoutSpans) .origin
  | tuple names _ => tuple names .origin

/-- A field of a record without its spans. -/
def FieldDef.withoutSpans (f : FieldDef) : FieldDef := ⟨f.name, f.type.withoutSpans, .origin⟩

/-- A record without its spans. -/
def RecordDef.withoutSpans (r : RecordDef) : RecordDef :=
  ⟨r.name, r.fields.map FieldDef.withoutSpans, .origin⟩

/-- An alias of a type without its spans. -/
def TypeAlias.withoutSpans (a : TypeAlias) : TypeAlias :=
  ⟨a.name, a.aliased.withoutSpans, .origin⟩

/-- A routine without its spans. -/
def Routine.withoutSpans (r : Routine) : Routine :=
  ⟨r.name, r.params.map Parameter.withoutSpans, r.result.withoutSpans,
    r.body.map Statement.withoutSpans, .origin⟩

/-- A rake without its spans. -/
def RakeDef.withoutSpans (r : RakeDef) : RakeDef :=
  ⟨r.name, r.params.map Parameter.withoutSpans, r.result.withoutSpans,
    r.setup.map LetBinding.withoutSpans, r.tines.map TineDecl.withoutSpans,
    r.throughs.map ThroughBlock.withoutSpans, r.sweep.withoutSpans, .origin⟩

/-- The definition with all spans put to the start of the text. -/
def Definition.withoutSpans : Definition → Definition
  | stack record => stack record.withoutSpans
  | single record => single record.withoutSpans
  | type body => type body.withoutSpans
  | crunch routine => crunch routine.withoutSpans
  | rake body => rake body.withoutSpans
  | run routine => run routine.withoutSpans

end RakeLang
