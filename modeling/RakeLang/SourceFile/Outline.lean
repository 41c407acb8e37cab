import RakeLang.Numeral.Shortest
import RakeLang.Outline
import RakeLang.SourceFile.Basic

/-!
# Outlines of syntax trees

The tree of a source file as an outline.  Every node shows its parts and its span.

## Main definitions

* `RakeLang.SourceFile.outline` — the outline of a source file.
* `RakeLang.Expression.outline` and its relatives — the outlines of its parts.
-/

set_option relaxedAutoImplicit false
set_option autoImplicit false

namespace RakeLang

/-- The outline of a span. -/
def Span.outline (s : Span) : Outline :=
  .record "Span"
    [("line", .nat s.line), ("column", .nat s.column), ("start", .nat s.start),
     ("end", .nat s.stop)]

/-! ## Types -/

/-- The outline of the type of a lane. -/
def LaneType.outline : LaneType → Outline
  | primitive type => .variant "Primitive" [.word type.name]
  | compound type => .variant "Compound" [.word type.name]

/-- The outline of a type with the given form and span. -/
def DataType.node (kind : Outline) (span : Span) : Outline :=
  .record "Type" [("kind", kind), ("span", span.outline)]

mutual

/-- The outline of a type. -/
def DataType.outline : DataType → Outline
  | .lane type span => DataType.node type.outline span
  | .rack type span => DataType.node (.variant "Rack" [type.outline]) span
  | .stack name span => DataType.node (.variant "Stack" [.text name]) span
  | .single name span => DataType.node (.variant "Single" [.text name]) span
  | .pack name span => DataType.node (.variant "Pack" [.text name]) span
  | .mask span => DataType.node (.word "Mask") span
  | .function params result span =>
    DataType.node (.record "Function"
      [("params", .sequence (DataType.outlines params)), ("ret", result.outline)]) span
  | .tuple items span => DataType.node (.variant "Tuple" [.sequence (DataType.outlines items)]) span
  | .unit span => DataType.node (.word "Unit") span

/-- The outlines of types. -/
def DataType.outlines : List DataType → List Outline
  | [] => []
  | type :: types => type.outline :: DataType.outlines types

end

/-- The outline of a type that may be missing. -/
def DataType.optionalOutline (type : Option DataType) : Outline :=
  .optional (type.map DataType.outline)

/-! ## Expressions -/

/-- The outline of a number. -/
def Number.outline : Number → Outline
  | int value => .variant "Int" [.word (toString value)]
  | float value => .variant "Float" [.word (Numeral.floatText value)]

/-- The outline of the value of a scalar literal. -/
def ScalarValue.outline : ScalarValue → Outline
  | path root fields =>
    fields.foldl (fun base field => .variant "Field" [base, .text field])
      (.variant "Ident" [.text root])
  | number value => value.outline

/-- The outline of a scalar literal. -/
def ScalarLiteral.outline (literal : ScalarLiteral) : Outline :=
  .record "Scalar" [("inner", literal.value.outline), ("span", literal.span.outline)]

/-- The outline of a parameter. -/
def Parameter.outline : Parameter → Outline
  | rack name type span =>
    .record "Rack"
      [("name", .text name), ("ty", DataType.optionalOutline type), ("span", span.outline)]
  | scalar literal type span =>
    .record "Scalar"
      [("expr", literal.outline), ("ty", DataType.optionalOutline type), ("span", span.outline)]

/-- The outline of an expression of one piece. -/
def Expression.node (piece : Outline) (span : Span) : Outline :=
  .variant "Primary" [piece, span.outline]

mutual

/-- The outline of an expression. -/
def Expression.outline : Expression → Outline
  | .binary op lhs rhs span =>
    .record "Binary"
      [("op", .word op.name), ("lhs", lhs.outline), ("rhs", rhs.outline), ("span", span.outline)]
  | .unary op operand span =>
    .record "Unary"
      [("op", .word op.name), ("operand", operand.outline), ("span", span.outline)]
  | .call name args span =>
    .record "Call"
      [("name", .text name), ("args", .sequence (Expression.outlines args)), ("span", span.outline)]
  | .field base name span =>
    .record "Field" [("base", base.outline), ("name", .text name), ("span", span.outline)]
  | .scalar literal => literal.outline
  | .record name inits span =>
    .record "Record"
      [("type_name", .text name), ("inits", .sequence (FieldInit.outlines inits)),
       ("span", span.outline)]
  | .reduce op operand span =>
    .record "Reduce"
      [("operand", operand.outline), ("op", .word op.name), ("span", span.outline)]
  | .scan op operand span =>
    .record "Scan"
      [("operand", operand.outline), ("op", .word op.name), ("span", span.outline)]
  | .shuffle operand indices span =>
    .record "Shuffle"
      [("operand", operand.outline),
       ("indices", .sequence (indices.map fun i => .word (toString i))), ("span", span.outline)]
  | .lambda params body span =>
    .record "Lambda"
      [("params", .sequence (params.map Parameter.outline)), ("body", body.outline),
       ("span", span.outline)]
  | .letIn name value body span =>
    .record "LetIn"
      [("name", .text name), ("value", value.outline), ("body", body.outline),
       ("span", span.outline)]
  | .ident name span => Expression.node (.variant "Ident" [.text name]) span
  | .number value span => Expression.node value.outline span
  | .bool value span => Expression.node (.variant "Bool" [.bool value]) span
  | .laneIndex span => Expression.node (.word "LaneIndex") span
  | .lanes span => Expression.node (.word "Lanes") span
  | .unit span => Expression.node (.word "Unit") span
  | .paren inner span => Expression.node (.variant "Paren" [inner.outline]) span
  | .tuple items span =>
    Expression.node (.variant "Tuple" [.sequence (Expression.outlines items)]) span

/-- The outlines of expressions. -/
def Expression.outlines : List Expression → List Outline
  | [] => []
  | e :: es => e.outline :: Expression.outlines es

/-- The outline of a field of a record expression. -/
def FieldInit.outline : FieldInit → Outline
  | .mk name value span =>
    .record "FieldInit" [("name", .text name), ("value", value.outline), ("span", span.outline)]

/-- The outlines of the fields of a record expression. -/
def FieldInit.outlines : List FieldInit → List Outline
  | [] => []
  | init :: inits => init.outline :: FieldInit.outlines inits

end

/-! ## Predicates -/

/-- The outline of the mention of a tine. -/
def TineRef.outline (tine : TineRef) : Outline :=
  .record "TineRef" [("name", .text tine.name), ("span", tine.span.outline)]

/-- The outline of a predicate. -/
def Predicate.outline : Predicate → Outline
  | or lhs rhs span =>
    .record "Or" [("lhs", lhs.outline), ("rhs", rhs.outline), ("span", span.outline)]
  | and lhs rhs span =>
    .record "And" [("lhs", lhs.outline), ("rhs", rhs.outline), ("span", span.outline)]
  | not operand span => .record "Not" [("operand", operand.outline), ("span", span.outline)]
  | compare op lhs rhs span =>
    .record "Compare"
      [("lhs", lhs.outline), ("op", .word op.name), ("rhs", rhs.outline), ("span", span.outline)]
  | tineTest tine => .variant "TineTest" [tine.outline]
  | group inner span => .record "Group" [("inner", inner.outline), ("span", span.outline)]
  | const value span => .variant "Const" [.bool value, span.outline]

/-! ## Statements and sections -/

/-- The outline of a binding. -/
def LetBinding.outline (binding : LetBinding) : Outline :=
  .record "LetBinding"
    [("name", .text binding.name), ("ty", DataType.optionalOutline binding.type),
     ("value", binding.value.outline), ("span", binding.span.outline)]

/-- The outline of a statement. -/
def Statement.outline : Statement → Outline
  | letBinding binding => .variant "Let" [binding.outline]
  | assign name value span =>
    .record "Assign" [("name", .text name), ("value", value.outline), ("span", span.outline)]
  | overPack pack count binding body span =>
    .record "Over"
      [("pack", pack.outline), ("count", count.outline), ("binding", .text binding),
       ("body", body.outline), ("span", span.outline)]
  | expression value => .variant "Expr" [value.outline]

/-- The outline of a tine. -/
def TineDecl.outline (d : TineDecl) : Outline :=
  .record "TineDecl"
    [("tine", d.tine.outline), ("guard", d.guard.outline), ("span", d.span.outline)]

/-- The outline of the guard of a through block. -/
def ThroughGuard.outline : ThroughGuard → Outline
  | tine ref => .variant "Tine" [ref.outline]
  | predicate guard => .variant "Predicate" [guard.outline]

/-- The outline of a through block. -/
def ThroughBlock.outline (block : ThroughBlock) : Outline :=
  .record "ThroughBlock"
    [("guard", block.guard.outline),
     ("else_value", .optional (block.fallback.map fun value => value.toExpression.outline)),
     ("setup", .sequence (block.setup.map LetBinding.outline)), ("value", block.value.outline),
     ("binding", .text block.binding), ("span", block.span.outline)]

/-- The outline of the target of an arm. -/
def SweepTarget.outline : SweepTarget → Outline
  | tine ref => .variant "Tine" [ref.outline]
  | wildcard span => .variant "Wildcard" [span.outline]

/-- The outline of an arm of a sweep. -/
def SweepArm.outline (arm : SweepArm) : Outline :=
  .record "SweepArm"
    [("target", arm.target.outline), ("value", arm.value.outline), ("span", arm.span.outline)]

/-- The outline of a sweep. -/
def SweepBlock.outline (block : SweepBlock) : Outline :=
  .record "SweepBlock"
    [("arms", .sequence (block.arms.map SweepArm.outline)), ("binding", .text block.binding),
     ("span", block.span.outline)]

/-! ## Definitions -/

/-- The outline of what a routine answers. -/
def ResultSpec.outline : ResultSpec → Outline
  | single name type span =>
    .record "Single"
      [("name", .text name), ("ty", DataType.optionalOutline type), ("span", span.outline)]
  | tuple names span =>
    .record "Tuple" [("names", .sequence (names.map Outline.text)), ("span", span.outline)]

/-- The outline of a field of a record. -/
def FieldDef.outline (field : FieldDef) : Outline :=
  .record "FieldDef"
    [("name", .text field.name), ("ty", field.type.outline), ("span", field.span.outline)]

/-- The outline of a record. -/
def RecordDef.outline (d : RecordDef) : Outline :=
  .record "RecordDef"
    [("name", .text d.name), ("fields", .sequence (d.fields.map FieldDef.outline)),
     ("span", d.span.outline)]

/-- The outline of a name for a type. -/
def TypeAlias.outline (d : TypeAlias) : Outline :=
  .record "TypeDef"
    [("name", .text d.name), ("aliased", d.aliased.outline), ("span", d.span.outline)]

/-- The outline of a routine. -/
def Routine.outline (d : Routine) : Outline :=
  .record "RoutineDef"
    [("name", .text d.name), ("params", .sequence (d.params.map Parameter.outline)),
     ("result", d.result.outline), ("body", .sequence (d.body.map Statement.outline)),
     ("span", d.span.outline)]

/-- The outline of a rake. -/
def RakeDef.outline (d : RakeDef) : Outline :=
  .record "RakeDef"
    [("name", .text d.name), ("params", .sequence (d.params.map Parameter.outline)),
     ("result", d.result.outline), ("setup", .sequence (d.setup.map LetBinding.outline)),
     ("tines", .sequence (d.tines.map TineDecl.outline)),
     ("throughs", .sequence (d.throughs.map ThroughBlock.outline)), ("sweep", d.sweep.outline),
     ("span", d.span.outline)]

/-- The outline of a definition. -/
def Definition.outline : Definition → Outline
  | stack body => .variant "Stack" [body.outline]
  | single body => .variant "Single" [body.outline]
  | type body => .variant "Type" [body.outline]
  | crunch routine => .variant "Crunch" [routine.outline]
  | rake body => .variant "Rake" [body.outline]
  | run routine => .variant "Run" [routine.outline]

/-- The outline of a source file. -/
def SourceFile.outline (file : SourceFile) : Outline :=
  .record "SourceFile"
    [("definitions", .sequence (file.definitions.map Definition.outline)),
     ("span", file.span.outline)]

end RakeLang
