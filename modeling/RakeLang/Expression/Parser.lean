import RakeLang.DataType.Parser
import RakeLang.Expression.Basic
import RakeLang.Scalar.Parser

/-!
# Reading expressions

An expression is a chain of operands with binary operators between them, read level by level.
An operand has unary operators in front and then is a lambda, a let-in, or a primary expression
with suffixes behind it.  Lambdas and let-ins reach as far as an expression can, and the operands
of a comparison in a predicate are read without them and with arithmetic operators only.

Behind an operand a minus sign before a digit is an operator, although it was read as the sign of
a number, and an arrow is a less-than sign and a minus sign.  So before an operator is looked for
the token at the cursor is split.

## Main definitions

* `RakeLang.Parser.parameters` — reads the parameters of a routine or of a lambda.
* `RakeLang.Parser.binary` — reads operands with the operators of the given levels.
* `RakeLang.Parser.expression` — reads an expression.
* `RakeLang.Parser.comparand` — reads an operand of a comparison.

## Implementation notes

The parsers of the parts of an expression take the parser of the expressions inside them as an
argument.  An inner expression begins behind a token that was read, so that what remains ahead
of it is less.
-/

set_option relaxedAutoImplicit false
set_option autoImplicit false

namespace RakeLang.Parser

/-! ## Parameters -/

/-- Reads a parameter in parentheses, which has a type. -/
def typedParameter : Parser Parameter := do
  let start ← expect (.symbol .lParen)
  match ← peekKind with
  | .ident =>
    let name ← advance
    let _ ← expect (.symbol .colon)
    let type ← dataType
    let _ ← expect (.symbol .rParen)
    let span ← spanFrom start.span
    return .rack name.lexeme (some type) span
  | .symbol .less | .symbol .leftArrow =>
    let literal ← scalarLiteral
    let _ ← expect (.symbol .colon)
    let type ← dataType
    let _ ← expect (.symbol .rParen)
    let span ← spanFrom start.span
    return .scalar literal (some type) span
  | _ => unexpected ["identifier", "scalar literal"]

/-- Reads a parameter, if one begins at the cursor. -/
def parameter? : Parser (Option Parameter) := do
  match ← peekKind with
  | .ident =>
    let name ← advance
    return some (.rack name.lexeme none name.span)
  | .symbol .less | .symbol .leftArrow =>
    let literal ← scalarLiteral
    return some (.scalar literal none literal.span)
  | .symbol .lParen =>
    let param ← typedParameter
    return some param
  | _ => return none

/-- Reads parameters, up to the first token that begins none. -/
def parameters : Parser (List Parameter) := many parameter?

/-! ## Primary expressions -/

/-- Reads a call. -/
def call (inner : Parser Expression) : Parser Expression := do
  let name ← expect .ident
  let _ ← expect (.symbol .lParen)
  let args ← commaSeparated (.symbol .rParen) inner
  let _ ← expect (.symbol .rParen)
  let span ← spanFrom name.span
  return .call name.lexeme args span

/-- Reads a field of a record expression and its value. -/
def fieldInit (inner : Parser Expression) : Parser FieldInit := do
  let name ← expect .ident
  let _ ← expect (.symbol .define)
  let value ← inner
  let span ← spanFrom name.span
  return .mk name.lexeme value span

/-- Reads a record expression. -/
def recordExpression (inner : Parser Expression) : Parser Expression := do
  let name ← expect .typeIdent
  let _ ← expect (.symbol .lBrace)
  let inits ← commaSeparated (.symbol .rBrace) (fieldInit inner)
  let _ ← expect (.symbol .rBrace)
  let span ← spanFrom name.span
  return .record name.lexeme inits span

/-- Reads what stands in parentheses: nothing, an expression, or several with commas between
them. -/
def parenthesized (inner : Parser Expression) : Parser Expression := do
  let start ← expect (.symbol .lParen)
  if ← eat (.symbol .rParen) then
    let span ← spanFrom start.span
    return .unit span
  else
    let first ← inner
    let others ← many (afterComma inner)
    let _ ← expect (.symbol .rParen)
    let span ← spanFrom start.span
    return if others.isEmpty then .paren first span else .tuple (first :: others) span

/-- Reads a number. -/
def numberExpression : Parser Expression := do
  let start ← peek
  match ← number? with
  | some n => return .number n start.span
  | none => unexpected ["expression"]

/-- Reads a name, or a call if a parenthesis follows it. -/
def nameOrCall (inner : Parser Expression) : Parser Expression := do
  if ← checkAhead 1 (.symbol .lParen) then call inner
  else
    let name ← advance
    return .ident name.lexeme name.span

/-- Reads one token that is an expression of its own. -/
def atom (expression : Span → Expression) : Parser Expression := do
  let token ← advance
  return expression token.span

/-- Reads an expression that no operator and no suffix belongs to. -/
def primary (inner : Parser Expression) : Parser Expression := do
  match ← peekKind with
  | .ident => nameOrCall inner
  | .typeIdent => recordExpression inner
  | .int | .float => numberExpression
  | .keyword .true => atom (.bool true)
  | .keyword .false => atom (.bool false)
  | .symbol .atSign => atom .laneIndex
  | .keyword .lanes => atom .lanes
  | .symbol .lParen => parenthesized inner
  | .symbol .less | .symbol .leftArrow =>
    let literal ← scalarLiteral
    return .scalar literal
  | _ => unexpected ["expression"]

/-! ## Suffixes -/

/-- What can stand behind a primary expression, with the span of its last token. -/
inductive Suffix where
  | field (name : String) (last : Span)
  | shuffle (indices : List Int) (last : Span)
  | reduce (op : ReduceOp) (last : Span)
  | scan (op : ScanOp) (last : Span)
  deriving Repr

/-- The expression with a suffix behind it. -/
def Suffix.attach (base : Expression) : Suffix → Expression
  | field name last => .field base name (base.span.merge last)
  | shuffle indices last => .shuffle base indices (base.span.merge last)
  | reduce op last => .reduce op base (base.span.merge last)
  | scan op last => .scan op base (base.span.merge last)

/-- Reads a suffix, if one stands at the cursor. -/
def suffix? : Parser (Option Suffix) := do
  match ← peekKind with
  | .symbol .dot =>
    let _ ← advance
    let name ← expect .ident
    return some (.field name.lexeme name.span)
  | .symbol .shuffle =>
    let _ ← advance
    let _ ← expect (.symbol .lBracket)
    let indices ← commaSeparated (.symbol .rBracket) intLiteral
    let last ← expect (.symbol .rBracket)
    return some (.shuffle indices last.span)
  | .symbol (.reduce op) =>
    let last ← advance
    return some (.reduce op last.span)
  | .symbol (.scan op) =>
    let last ← advance
    return some (.scan op last.span)
  | _ => return none

/-- Reads a primary expression and the suffixes behind it. -/
def postfixed (inner : Parser Expression) : Parser Expression := do
  let base ← primary inner
  let suffixes ← many suffix?
  return suffixes.foldl Suffix.attach base

/-! ## Lambdas and let-ins -/

/-- Reads a lambda. -/
def lambda (inner : Parser Expression) : Parser Expression := do
  let start ← expect (.keyword .funKw)
  let params ← parameters
  if params.isEmpty then unexpected ["parameter"]
  else
    let _ ← expect (.symbol .arrow)
    let body ← inner
    let span ← spanFrom start.span
    return .lambda params body span

/-- Reads the body of a let-in that began at `start`. -/
def letBody (inner : Parser Expression) (start : Span) (name : String) (value : Expression) :
    Parser Expression := do
  let body ← inner
  let span ← spanFrom start
  return .letIn name value body span

/-- Reads a let-in. -/
def letIn (inner : Parser Expression) : Parser Expression := do
  let start ← expect (.keyword .letKw)
  let name ← expect .ident
  let _ ← expect (.symbol .equal)
  let value ← inner
  let _ ← expect (.keyword .inKw)
  letBody inner start.span name.lexeme value

/-! ## Operators -/

/-- Which operands an expression has. -/
inductive Operands where
  /-- All of them. -/
  | full
  /-- Those of a comparison: no lambda and no let-in. -/
  | comparison
  deriving DecidableEq, Repr

/-- Reads a unary operator, if one stands at the cursor. -/
def unaryOperator? : Parser (Option (UnaryOp × Span)) := do
  match (← peekKind).unaryOp? with
  | none => return none
  | some op =>
    let token ← advance
    return some (op, token.span)

/-- The operand with a unary operator in front. -/
def applyUnary (op : UnaryOp × Span) (operand : Expression) : Expression :=
  .unary op.1 operand (op.2.merge operand.span)

/-- Reads an operand without the unary operators in front of it. -/
def bareOperand (operands : Operands) (inner : Parser Expression) : Parser Expression := do
  match ← peekKind, operands with
  | .keyword .funKw, .full => lambda inner
  | .keyword .letKw, .full => letIn inner
  | _, _ => postfixed inner

/-- Reads an operand. -/
def operand (operands : Operands) (inner : Parser Expression) : Parser Expression :=
  prefixed unaryOperator? (bareOperand operands inner) applyUnary

/-- Reads a binary operator of the given level, if one stands at the cursor behind an operand. -/
def binaryOperator? (level : Level) : Parser (Option BinaryOp) := do
  modify Cursor.splitInfix
  match (← peekKind).binaryOp? with
  | none => return none
  | some op =>
    if op.level = level then
      let _ ← advance
      return some op
    else return none

/-- The expression of a binary operator and its operands. -/
def applyBinary (lhs : Expression) (op : BinaryOp) (rhs : Expression) : Expression :=
  .binary op lhs rhs (lhs.span.merge rhs.span)

/-- Reads operands with operators of the given levels between them; the levels are listed from
the loosest to the tightest. -/
def binary (operand : Parser Expression) : List Level → Parser Expression
  | [] => operand
  | level :: tighter => leftAssoc (binaryOperator? level) (binary operand tighter) applyBinary

/-! ## Expressions -/

/-- Reads an expression whose inner expressions are read by `inner`. -/
def expressionWith (inner : Parser Expression) : Parser Expression :=
  binary (operand .full inner) Level.all

/-- Reads an expression with at most `n` tokens ahead. -/
def expressionUpTo : Nat → Parser Expression
  | 0 => unexpected ["expression"]
  | n + 1 => expressionWith (expressionUpTo n)

/-- Reads an expression. -/
def expression : Parser Expression := fun c => expressionUpTo c.remaining c

/-- Reads an operand of a comparison in a predicate. -/
def comparand : Parser Expression := binary (operand .comparison expression) Level.arithmetic

end RakeLang.Parser
