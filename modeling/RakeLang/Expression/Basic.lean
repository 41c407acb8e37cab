import RakeLang.DataType.Basic
import RakeLang.Expression.Operator
import RakeLang.Scalar.Basic

/-!
# Expressions

The syntax trees of expressions and of the parameters that a lambda binds.

## Main definitions

* `RakeLang.Parameter` — a parameter of a routine or of a lambda.
* `RakeLang.Expression`, `RakeLang.FieldInit` — expressions, and the fields of a record
  expression.
* `RakeLang.Expression.span` — where an expression stands.
-/

set_option relaxedAutoImplicit false
set_option autoImplicit false

namespace RakeLang

/-- A parameter: a name for a value in every lane, or a scalar literal for a value that all
lanes share. -/
inductive Parameter where
  | rack (name : String) (type : Option DataType) (span : Span)
  | scalar (literal : ScalarLiteral) (type : Option DataType) (span : Span)
  deriving Repr

/-- Where a parameter stands. -/
def Parameter.span : Parameter → Span
  | rack _ _ span | scalar _ _ span => span

mutual

/-- The syntax tree of an expression. -/
inductive Expression where
  | binary (op : BinaryOp) (lhs rhs : Expression) (span : Span)
  | unary (op : UnaryOp) (operand : Expression) (span : Span)
  | call (name : String) (args : List Expression) (span : Span)
  | field (base : Expression) (name : String) (span : Span)
  | scalar (literal : ScalarLiteral)
  | record (name : String) (inits : List FieldInit) (span : Span)
  | reduce (op : ReduceOp) (operand : Expression) (span : Span)
  | scan (op : ScanOp) (operand : Expression) (span : Span)
  | shuffle (operand : Expression) (indices : List Int) (span : Span)
  | lambda (params : List Parameter) (body : Expression) (span : Span)
  | letIn (name : String) (value body : Expression) (span : Span)
  | ident (name : String) (span : Span)
  | number (value : Number) (span : Span)
  | bool (value : Bool) (span : Span)
  | laneIndex (span : Span)
  | lanes (span : Span)
  | unit (span : Span)
  | paren (inner : Expression) (span : Span)
  | tuple (items : List Expression) (span : Span)

/-- A field of a record expression and its value. -/
inductive FieldInit where
  | mk (name : String) (value : Expression) (span : Span)

end

deriving instance Repr for Expression, FieldInit

/-- Where an expression stands. -/
def Expression.span : Expression → Span
  | binary _ _ _ span | unary _ _ span | call _ _ span | field _ _ span | record _ _ span
  | reduce _ _ span | scan _ _ span | shuffle _ _ span | lambda _ _ span | letIn _ _ _ span
  | ident _ span | number _ span | bool _ span | laneIndex span | lanes span | unit span
  | paren _ span | tuple _ span => span
  | scalar literal => literal.span

end RakeLang
