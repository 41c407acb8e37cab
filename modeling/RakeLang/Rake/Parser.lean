import RakeLang.Predicate.Parser
import RakeLang.Rake.Basic
import RakeLang.Statement.Parser

/-!
# Reading the sections of a rake

## Main definitions

* `RakeLang.Parser.tineDecl`, `RakeLang.Parser.throughBlock`, `RakeLang.Parser.sweepBlock` — read
  a section.
* `RakeLang.Parser.throughBody` — reads the bindings and the value of a through block.
-/

set_option relaxedAutoImplicit false
set_option autoImplicit false

namespace RakeLang.Parser

/-! ## Tines -/

/-- Reads a tine and its guard. -/
def tineDecl : Parser TineDecl := do
  let start ← expect (.symbol .pipe)
  let tine ← tineRef
  let _ ← expect (.symbol .define)
  let _ ← expect (.symbol .lParen)
  let guard ← predicate
  let _ ← expect (.symbol .rParen)
  let span ← spanFrom start.span
  return ⟨tine, guard, span⟩

/-! ## Through blocks -/

/-- Reads the guard of a through block. -/
def throughGuard : Parser ThroughGuard := do
  match ← peekKind with
  | .tineRef =>
    let tine ← tineRef
    return .tine tine
  | .symbol .lParen =>
    let _ ← advance
    let guard ← predicate
    let _ ← expect (.symbol .rParen)
    return .predicate guard
  | _ => unexpected ["tine reference", "`(`"]

/-- Reads a constant. -/
def fallback : Parser Fallback := do
  match ← peekKind with
  | .symbol .less | .symbol .leftArrow =>
    let literal ← scalarLiteral
    return .scalar literal
  | .keyword .true =>
    let token ← advance
    return .bool true token.span
  | .keyword .false =>
    let token ← advance
    return .bool false token.span
  | _ =>
    let start ← peek
    match ← number? with
    | some n => return .number n start.span
    | none => unexpected ["scalar literal", "number", "boolean"]

/-- Reads the word `else` and a constant, if the word stands at the cursor. -/
def fallback? : Parser (Option Fallback) := do
  if ← eat (.keyword .elseKw) then
    let value ← fallback
    return some value
  else return none

/-- Reads bindings and the value behind them, with at most `n` tokens ahead.  A let-in among the
bindings is the value. -/
def throughBodyUpTo : Nat → Parser (List LetBinding × Expression)
  | 0 => do
    let value ← expression
    return ([], value)
  | n + 1 => do
    if ← check (.keyword .letKw) then
      match ← letForm with
      | .expression value => return ([], value)
      | .binding binding =>
        let (setup, value) ← throughBodyUpTo n
        return (binding :: setup, value)
    else
      let value ← expression
      return ([], value)

/-- Reads the bindings and the value of a through block. -/
def throughBody : Parser (List LetBinding × Expression) := fun c =>
  throughBodyUpTo c.remaining c

/-- Reads a through block. -/
def throughBlock : Parser ThroughBlock := do
  let start ← expect (.keyword .through)
  let guard ← throughGuard
  let fallback ← fallback?
  let _ ← expect (.symbol .colon)
  let (setup, value) ← throughBody
  let _ ← expect (.symbol .arrow)
  let binding ← expect .ident
  let span ← spanFrom start.span
  return ⟨guard, fallback, setup, value, binding.lexeme, span⟩

/-! ## Sweeps -/

/-- Reads the target of an arm. -/
def sweepTarget : Parser SweepTarget := do
  if ← check .tineRef then
    let tine ← tineRef
    return .tine tine
  else if ← checkWord "_" then
    let token ← advance
    return .wildcard token.span
  else unexpected ["tine reference", "`_`"]

/-- Reads an arm. -/
def sweepArm : Parser SweepArm := do
  let start ← expect (.symbol .pipe)
  let target ← sweepTarget
  let _ ← expect (.symbol .arrow)
  let value ← expression
  let span ← spanFrom start.span
  return ⟨target, value, span⟩

/-- Reads a sweep. -/
def sweepBlock : Parser SweepBlock := do
  let start ← expect (.keyword .sweep)
  let _ ← expect (.symbol .colon)
  let arms ← many (whenAt (.symbol .pipe) sweepArm)
  if arms.isEmpty then misplaced .noSweepArm
  else
    let _ ← expect (.symbol .arrow)
    let binding ← expect .ident
    let span ← spanFrom start.span
    return ⟨arms, binding.lexeme, span⟩

end RakeLang.Parser
