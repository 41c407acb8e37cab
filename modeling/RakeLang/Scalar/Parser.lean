import RakeLang.Parser
import RakeLang.Scalar.Basic

/-!
# Reading numbers and scalar literals

A scalar literal begins with a less-than sign, which is also an operator, so it is read on
trial: if the tokens ahead do not form a literal, the cursor goes back to where it stood.  A
negative number between angles has three spellings, since the opening angle and a minus sign
form one token if nothing stands between them, and so do a minus sign and a number.

## Main definitions

* `RakeLang.Parser.number`, `RakeLang.Parser.intLiteral` — read a number.
* `RakeLang.Parser.scalarTrial` — reads a scalar literal, or answers nothing.
* `RakeLang.Parser.scalarLiteral` — reads a scalar literal, or refuses the token at the cursor.
-/

set_option relaxedAutoImplicit false
set_option autoImplicit false

namespace RakeLang.Parser

/-! ## Numbers -/

/-- Reads an integer. -/
def intLiteral : Parser Int := do
  let token ← expect .int
  match Numeral.readInt? token.lexeme with
  | some v => return v
  | none => throw (.numeral token.lexeme token.span)

/-- Reads a float. -/
def floatLiteral : Parser Float := do
  let token ← expect .float
  match Numeral.readFloat? token.lexeme with
  | some v => return v
  | none => throw (.numeral token.lexeme token.span)

/-- Reads a number, if one stands at the cursor. -/
def number? : Parser (Option Number) := do
  match ← peekKind with
  | .int =>
    let v ← intLiteral
    return some (.int v)
  | .float =>
    let v ← floatLiteral
    return some (.float v)
  | _ => return none

/-- The opposite of the number that was read last. -/
def negated (n : Number) : Parser Number := fun c =>
  match n.negate? with
  | some n => .ok n c
  | none => .error (.numeral ("-" ++ n.render) c.previousSpan) c

/-- Reads a number, if one stands at the cursor, and answers its opposite. -/
def negatedNumber? : Parser (Option Number) := do
  match ← number? with
  | none => return none
  | some n =>
    let n ← negated n
    return some n

/-! ## Scalar literals -/

/-- Reads a dot and the name of a field, if both stand at the cursor. -/
def pathField : Parser (Option String) := do
  if (← check (.symbol .dot)) && (← checkAhead 1 .ident) then
    let _ ← advance
    let field ← expect .ident
    return some field.lexeme
  else return none

/-- Reads what stands behind a less-than sign that opens a scalar literal. -/
def scalarValue? : Parser (Option ScalarValue) := do
  match ← peekKind with
  | .ident =>
    let root ← advance
    let fields ← many pathField
    return some (.path root.lexeme fields)
  | .symbol .minus =>
    let _ ← advance
    let n ← negatedNumber?
    return n.map .number
  | _ =>
    let n ← number?
    return n.map .number

/-- Reads the opening angle of a scalar literal and its value.  An arrow is an angle and the
minus sign of a number. -/
def openedScalar? : Parser (Option ScalarValue) := do
  match ← peekKind with
  | .symbol .less =>
    let _ ← advance
    scalarValue?
  | .symbol .leftArrow =>
    let _ ← advance
    let n ← negatedNumber?
    return n.map .number
  | _ => return none

/-- Reads a scalar literal on trial.  Only a single greater-than sign closes it. -/
def scalarTrial : Parser (Option ScalarLiteral) := do
  let start ← peek
  match ← openedScalar? with
  | none => return none
  | some value =>
    if ← eat (.symbol .greater) then
      let span ← spanFrom start.span
      return some ⟨value, span⟩
    else return none

/-- Reads a scalar literal.  Where the tokens do not form one, the cursor goes back to the position
where the trial began and the token there is refused. -/
def scalarLiteral : Parser ScalarLiteral := fun c =>
  match scalarTrial c with
  | .ok (some literal) behind => .ok literal behind
  | .ok none behind => .error (.unclosedScalar c.peek.span) (behind.seek c.position)
  | .error fault behind => .error fault behind

end RakeLang.Parser
