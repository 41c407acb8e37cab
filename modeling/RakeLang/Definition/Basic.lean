import RakeLang.Rake.Basic

/-!
# Definitions

The syntax trees of the definitions that a source file consists of.

## Main definitions

* `RakeLang.ResultSpec` — what a routine answers.
* `RakeLang.RecordDef`, `RakeLang.TypeAlias`, `RakeLang.Routine`, `RakeLang.RakeDef` — the bodies
  of definitions.
* `RakeLang.Definition` — the definitions, with their name and their span.
-/

set_option relaxedAutoImplicit false
set_option autoImplicit false

namespace RakeLang

/-- What a routine answers: one value or several, by name. -/
inductive ResultSpec where
  | single (name : String) (type : Option DataType) (span : Span)
  | tuple (names : List String) (span : Span)
  deriving Repr

/-- Where the result stands. -/
def ResultSpec.span : ResultSpec → Span
  | single _ _ span | tuple _ span => span

/-- A field of a record and its type. -/
structure FieldDef where
  name : String
  type : DataType
  span : Span
  deriving Repr

/-- A record, which is seen as a stack or as a single. -/
structure RecordDef where
  name : String
  fields : List FieldDef
  span : Span
  deriving Repr

/-- A name for a type. -/
structure TypeAlias where
  name : String
  aliased : DataType
  span : Span
  deriving Repr

/-- A routine with a body of statements. -/
structure Routine where
  name : String
  params : List Parameter
  result : ResultSpec
  body : List Statement
  span : Span
  deriving Repr

/-- A routine that sorts lanes. -/
structure RakeDef where
  name : String
  params : List Parameter
  result : ResultSpec
  setup : List LetBinding
  tines : List TineDecl
  throughs : List ThroughBlock
  sweep : SweepBlock
  span : Span
  deriving Repr

/-- The definitions. -/
inductive Definition where
  | stack (record : RecordDef)
  | single (record : RecordDef)
  | type (body : TypeAlias)
  | crunch (routine : Routine)
  | rake (body : RakeDef)
  | run (routine : Routine)
  deriving Repr

namespace Definition

/-- The name that a definition introduces. -/
def name : Definition → String
  | stack record | single record => record.name
  | type body => body.name
  | crunch routine | run routine => routine.name
  | rake body => body.name

/-- Where a definition stands. -/
def span : Definition → Span
  | stack record | single record => record.span
  | type body => body.span
  | crunch routine | run routine => routine.span
  | rake body => body.span

end Definition

end RakeLang
