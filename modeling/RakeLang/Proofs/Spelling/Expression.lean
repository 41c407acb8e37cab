import RakeLang.Expression.Basic
import RakeLang.Proofs.Spelling.Token

/-!
# The spelling of types and expressions

The spelling of a syntax tree follows its constructors: the spellings of the parts stand in the
order in which the language writes them, with the signs and words of the constructor between
them.

## Main definitions

* `RakeLang.DataType.spelling`, `RakeLang.Parameter.spelling` — the spelling of a type and of a
  parameter.
* `RakeLang.Expression.spelling`, `RakeLang.FieldInit.spelling` — the spelling of an expression
  and of a field of a record expression.
-/

set_option relaxedAutoImplicit false
set_option autoImplicit false

namespace RakeLang

open Spelling

/-! ## Types and parameters -/

/-- The spelling of a type. -/
def DataType.spelling : DataType → Language Token
  | lane type _ => word .ident type.word
  | rack type _ => word .ident type.word * word .ident "rack"
  | stack name _ => word .typeIdent name * keyword .stack
  | single name _ => word .typeIdent name * keyword .single
  | pack name _ => word .typeIdent name * word .ident "pack"
  | mask _ => word .ident "mask"
  | function params result _ =>
    sign .lParen * (separated (params.map DataType.spelling)
      * (sign .rParen * (sign .arrow * result.spelling)))
  | tuple items _ => sign .lParen * (separated (items.map DataType.spelling) * sign .rParen)
  | unit _ => sign .lParen * sign .rParen

/-- The spelling of a parameter: a parameter with a type stands in parentheses. -/
def Parameter.spelling : Parameter → Language Token
  | rack name none _ => word .ident name
  | rack name (some type) _ =>
    sign .lParen * (word .ident name * (sign .colon * (type.spelling * sign .rParen)))
  | scalar literal none _ => literal.spelling
  | scalar literal (some type) _ =>
    sign .lParen * (literal.spelling * (sign .colon * (type.spelling * sign .rParen)))

/-! ## Expressions -/

mutual

/-- The spelling of an expression. -/
def Expression.spelling : Expression → Language Token
  | .binary op lhs rhs _ => lhs.spelling * (op.spelling * rhs.spelling)
  | .unary op operand _ => op.spelling * operand.spelling
  | .call name args _ =>
    word .ident name * (sign .lParen
      * (separated (args.map Expression.spelling) * sign .rParen))
  | .field base name _ => base.spelling * (sign .dot * word .ident name)
  | .scalar literal => literal.spelling
  | .record name inits _ =>
    word .typeIdent name * (sign .lBrace
      * (separated (inits.map FieldInit.spelling) * sign .rBrace))
  | .reduce op operand _ => operand.spelling * sign (.reduce op)
  | .scan op operand _ => operand.spelling * sign (.scan op)
  | .shuffle operand indices _ =>
    operand.spelling * (sign .shuffle * (sign .lBracket
      * (separated (indices.map integer) * sign .rBracket)))
  | .lambda params body _ =>
    keyword .funKw * ((params.map Parameter.spelling).prod * (sign .arrow * body.spelling))
  | .letIn name value body _ =>
    keyword .letKw * (word .ident name * (sign .equal
      * (value.spelling * (keyword .inKw * body.spelling))))
  | .ident name _ => word .ident name
  | .number value _ => value.spelling
  | .bool value _ => truth value
  | .laneIndex _ => sign .atSign
  | .lanes _ => keyword .lanes
  | .unit _ => sign .lParen * sign .rParen
  | .paren inner _ => sign .lParen * (inner.spelling * sign .rParen)
  | .tuple items _ =>
    sign .lParen * (separated (items.map Expression.spelling) * sign .rParen)

/-- The spelling of a field of a record expression. -/
def FieldInit.spelling : FieldInit → Language Token
  | .mk name value _ => word .ident name * (sign .define * value.spelling)

end

end RakeLang
