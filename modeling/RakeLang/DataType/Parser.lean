import RakeLang.DataType.Basic
import RakeLang.Parser

/-!
# Reading types

A type is a lane type, alone or with the word `rack` behind it; `mask`; the name of a record
with the word that says how it is seen; or a list in parentheses, which is a tuple, the unit
type if it is empty, or the parameters of a function if an arrow follows.  The words `rack`,
`pack` and `mask` are identifiers elsewhere.

## Main definitions

* `RakeLang.Parser.dataType` — reads a type.
-/

set_option relaxedAutoImplicit false
set_option autoImplicit false

namespace RakeLang.Parser

/-- Reads a type that begins with an identifier. -/
def namedType : Parser DataType := do
  let start ← peek
  if start.lexeme == "mask" then
    let _ ← advance
    return .mask start.span
  else
    match LaneType.ofWord? start.lexeme with
    | none => unexpected ["type"]
    | some lane =>
      let _ ← advance
      if ← checkWord "rack" then
        let _ ← advance
        let span ← spanFrom start.span
        return .rack lane span
      else return .lane lane start.span

/-- Reads the name of a record and the word behind it. -/
def recordType : Parser DataType := do
  let name ← expect .typeIdent
  if ← eat (.keyword .stack) then
    let span ← spanFrom name.span
    return .stack name.lexeme span
  else if ← eat (.keyword .single) then
    let span ← spanFrom name.span
    return .single name.lexeme span
  else if ← checkWord "pack" then
    let _ ← advance
    let span ← spanFrom name.span
    return .pack name.lexeme span
  else unexpected ["`stack`", "`single`", "`pack`"]

/-- Reads a list of types in parentheses, and the result of a function behind an arrow. -/
def listedType (inner : Parser DataType) : Parser DataType := do
  let start ← expect (.symbol .lParen)
  let items ← commaSeparated (.symbol .rParen) inner
  let _ ← expect (.symbol .rParen)
  if ← eat (.symbol .arrow) then
    let result ← inner
    let span ← spanFrom start.span
    return .function items result span
  else
    let span ← spanFrom start.span
    return if items.isEmpty then .unit span else .tuple items span

/-- Reads a type with at most `n` tokens ahead. -/
def dataTypeUpTo : Nat → Parser DataType
  | 0 => unexpected ["type"]
  | n + 1 => do
    match ← peekKind with
    | .ident => namedType
    | .typeIdent => recordType
    | .symbol .lParen => listedType (dataTypeUpTo n)
    | _ => unexpected ["type"]

/-- Reads a type. -/
def dataType : Parser DataType := fun c => dataTypeUpTo c.remaining c

end RakeLang.Parser
