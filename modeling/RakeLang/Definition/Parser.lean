import RakeLang.Definition.Basic
import RakeLang.Rake.Parser

/-!
# Reading definitions

The word at the head of a definition tells what it is.  A routine runs up to the next definition;
the sections of a rake stand in a fixed order, and each rule of that order has a fault of its
own.

## Main definitions

* `RakeLang.Parser.signature` — reads the parameters and the result of a routine.
* `RakeLang.Parser.rakeDef` — reads a rake.
* `RakeLang.Parser.definition` — reads a definition.
-/

set_option relaxedAutoImplicit false
set_option autoImplicit false

namespace RakeLang.Parser

/-! ## Signatures -/

/-- Reads the name of a result. -/
def resultName : Parser String := do
  let name ← expect .ident
  return name.lexeme

/-- Reads the result of a routine. -/
def resultSpec : Parser ResultSpec := do
  if ← check .ident then
    let name ← advance
    return .single name.lexeme none name.span
  else
    let start ← expect (.symbol .lParen)
    if ← check (.symbol .rParen) then misplaced .noResultName
    else if ← checkAhead 1 (.symbol .colon) then
      let name ← expect .ident
      let _ ← expect (.symbol .colon)
      let type ← dataType
      let _ ← expect (.symbol .rParen)
      let span ← spanFrom start.span
      return .single name.lexeme (some type) span
    else
      let first ← resultName
      let others ← many (afterComma resultName)
      let _ ← expect (.symbol .rParen)
      let span ← spanFrom start.span
      return .tuple (first :: others) span

/-- Reads the parameters and the result of a routine. -/
def signature : Parser (List Parameter × ResultSpec) := do
  let params ← parameters
  let _ ← expect (.symbol .arrow)
  let result ← resultSpec
  let _ ← expect (.symbol .colon)
  return (params, result)

/-! ## Records and types -/

/-- Reads a field of a record. -/
def fieldDef : Parser FieldDef := do
  let name ← expect .ident
  let _ ← expect (.symbol .colon)
  let type ← dataType
  let span ← spanFrom name.span
  return ⟨name.lexeme, type, span⟩

/-- Reads a record. -/
def recordDef : Parser RecordDef := do
  let start ← advance
  let name ← expect .typeIdent
  let _ ← expect (.symbol .lBrace)
  let fields ← commaSeparated (.symbol .rBrace) fieldDef
  let _ ← expect (.symbol .rBrace)
  let span ← spanFrom start.span
  return ⟨name.lexeme, fields, span⟩

/-- Reads a name for a type. -/
def typeAlias : Parser TypeAlias := do
  let start ← advance
  let name ← expect .typeIdent
  let _ ← expect (.symbol .equal)
  let aliased ← dataType
  let span ← spanFrom start.span
  return ⟨name.lexeme, aliased, span⟩

/-! ## Routines -/

/-- Reads a statement, if the body of the routine goes on at the cursor. -/
def bodyStatement : Parser (Option Statement) := fun c =>
  if c.atDefinitionBoundary then .ok none c else (some <$> statement) c

/-- Reads a routine with a body of statements. -/
def routine : Parser Routine := do
  let start ← advance
  let name ← expect .ident
  let (params, result) ← signature
  let body ← many bodyStatement
  let span ← spanFrom start.span
  return ⟨name.lexeme, params, result, body, span⟩

/-! ## Rakes -/

/-- Reads the tines of the rake of the given name. -/
def tines (rake : String) : Parser (List TineDecl) := do
  let tines ← many (whenAt (.symbol .pipe) tineDecl)
  if tines.isEmpty then misplaced (.noTine rake)
  else if ← check (.keyword .letKw) then misplaced (.setupBehindTine rake)
  else return tines

/-- Reads the through blocks of the rake of the given name. -/
def throughs (rake : String) : Parser (List ThroughBlock) := do
  let throughs ← many (whenAt (.keyword .through) throughBlock)
  if throughs.isEmpty then misplaced (.noThrough rake) else return throughs

/-- Reads the sweep of the rake of the given name. -/
def sweep (rake : String) : Parser SweepBlock := do
  match ← peekKind with
  | .keyword .sweep =>
    let block ← sweepBlock
    if ← check (.keyword .sweep) then misplaced (.secondSweep rake) else return block
  | .symbol .pipe => misplaced (.tineBehindThrough rake)
  | _ => misplaced (.noSweep rake)

/-- Reads a rake: bindings, tines, through blocks and one sweep, in this order. -/
def rakeDef : Parser RakeDef := do
  let start ← advance
  let name ← expect .ident
  let (params, result) ← signature
  let setup ← many (whenAt (.keyword .letKw) letBinding)
  let tines ← tines name.lexeme
  let throughs ← throughs name.lexeme
  let sweep ← sweep name.lexeme
  let span ← spanFrom start.span
  return ⟨name.lexeme, params, result, setup, tines, throughs, sweep, span⟩

/-! ## Definitions -/

/-- Reads a definition. -/
def definition : Parser Definition := do
  match ← peekKind with
  | .keyword .stack =>
    let record ← recordDef
    return .stack record
  | .keyword .single =>
    let record ← recordDef
    return .single record
  | .keyword .type =>
    let body ← typeAlias
    return .type body
  | .keyword .crunch =>
    let routine ← routine
    return .crunch routine
  | .keyword .rake =>
    let rake ← rakeDef
    return .rake rake
  | .keyword .run =>
    let routine ← routine
    return .run routine
  | _ => unexpected ["`stack`", "`single`", "`type`", "`crunch`", "`rake`", "`run`"]

end RakeLang.Parser
