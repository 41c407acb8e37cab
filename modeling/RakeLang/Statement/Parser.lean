import RakeLang.Expression.Parser
import RakeLang.Statement.Basic

/-!
# Reading statements

A statement needs no mark at its end: it ends where its last expression does.  The word `let`
begins a binding or a let-in, and only the word `in` behind the value tells them apart; a binding
with a type is never a let-in.

## Main definitions

* `RakeLang.Parser.letBinding` — reads a binding.
* `RakeLang.Parser.letForm` — reads a binding or a let-in.
* `RakeLang.Parser.statement` — reads a statement.
-/

set_option relaxedAutoImplicit false
set_option autoImplicit false

namespace RakeLang.Parser

/-- Reads a colon and a type, if a colon stands at the cursor. -/
def typeAnnotation? : Parser (Option DataType) := do
  if ← eat (.symbol .colon) then
    let type ← dataType
    return some type
  else return none

/-- Reads a binding. -/
def letBinding : Parser LetBinding := do
  let start ← expect (.keyword .letKw)
  let name ← expect .ident
  let type ← typeAnnotation?
  let _ ← expect (.symbol .equal)
  let value ← expression
  let span ← spanFrom start.span
  return ⟨name.lexeme, type, value, span⟩

/-- What the word `let` begins. -/
inductive LetForm where
  | binding (binding : LetBinding)
  | expression (value : Expression)
  deriving Repr

/-- Reads what the word `let` begins. -/
def letForm : Parser LetForm := do
  let binding ← letBinding
  if binding.type.isSome then return .binding binding
  else if ← eat (.keyword .inKw) then
    let value ← letBody expression binding.span binding.name binding.value
    return .expression value
  else return .binding binding

/-- Reads an assignment. -/
def assignment : Parser Statement := do
  let name ← expect .ident
  let _ ← expect (.symbol .leftArrow)
  let value ← expression
  let span ← spanFrom name.span
  return .assign name.lexeme value span

/-- Reads a pass over a pack. -/
def passOver : Parser Statement := do
  let start ← expect (.keyword .overKw)
  let pack ← expression
  let _ ← expect (.symbol .comma)
  let count ← scalarLiteral
  let _ ← expect (.symbol .pipeForward)
  let binding ← expect .ident
  let _ ← expect (.symbol .colon)
  let body ← expression
  let span ← spanFrom start.span
  return .overPack pack count binding.lexeme body span

/-- Reads an expression as a statement. -/
def expressionStatement : Parser Statement := do
  let value ← expression
  return .expression value

/-- Reads a statement. -/
def statement : Parser Statement := do
  match ← peekKind with
  | .keyword .letKw =>
    match ← letForm with
    | .binding binding => return .letBinding binding
    | .expression value => return .expression value
  | .keyword .overKw => passOver
  | .ident =>
    if ← checkAhead 1 (.symbol .leftArrow) then assignment else expressionStatement
  | _ => expressionStatement

end RakeLang.Parser
