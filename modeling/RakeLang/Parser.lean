import RakeLang.Cursor
import RakeLang.Diagnostic

/-!
# Parsers

A parser reads at a cursor and answers a value or a fault.  In both cases it leaves a cursor
behind: a refused reading stops where it met its fault, and the tokens that it split stay split.

## Main definitions

* `RakeLang.Parser` — parsers, as state over the cursor with faults.
* `RakeLang.Parser.expect`, `RakeLang.Parser.eat`, `RakeLang.Parser.check` — single tokens.
* `RakeLang.Parser.many` — a reading repeated as long as it answers something.
* `RakeLang.Parser.commaSeparated`, `RakeLang.Parser.leftAssoc`, `RakeLang.Parser.prefixed` —
  lists, chains of operators and operators in front.

## Implementation notes

The rounds of a repetition are bounded by what remains ahead of the cursor behind the first one,
since every round that answers something reads a token.  Where nothing remains no round can
answer anything, so that the bound cuts nothing short.
-/

set_option relaxedAutoImplicit false
set_option autoImplicit false

namespace RakeLang

/-- A reading at a cursor: a value or a fault, and the cursor left behind. -/
abbrev Parser := EStateM Fault Cursor

namespace Parser

variable {α β : Type}

/-! ## Single tokens -/

/-- The token at the cursor. -/
def peek : Parser Token := fun c => .ok c.peek c

/-- The kind of the token at the cursor. -/
def peekKind : Parser Kind := fun c => .ok c.peek.kind c

/-- Is the token at the cursor of the given kind? -/
def check (kind : Kind) : Parser Bool := fun c => .ok (c.peek.kind == kind) c

/-- Is the token `n` places ahead of the given kind? -/
def checkAhead (n : Nat) (kind : Kind) : Parser Bool :=
  fun c => .ok ((c.lookahead n).kind == kind) c

/-- Is the token at the cursor an identifier with the given text? -/
def checkWord (word : String) : Parser Bool :=
  fun c => .ok (c.peek.kind == .ident && c.peek.lexeme == word) c

/-- Reads the token at the cursor. -/
def advance : Parser Token := fun c => .ok c.peek c.advance

/-- Refuses the token at the cursor where one of the given things should stand. -/
def unexpected (expected : List String) : Parser α :=
  fun c => .error (.unexpected expected c.peek.found c.peek.span) c

/-- Refuses a definition because of the part that stands, or is missing, at the cursor. -/
def misplaced (part : Misplaced) : Parser α := fun c => .error (part.fault c.peek.span) c

/-- Reads a token of the given kind and refuses any other. -/
def expect (kind : Kind) : Parser Token := do
  if ← check kind then advance else unexpected [kind.display]

/-- Reads a token of the given kind if one stands at the cursor, and tells whether it did. -/
def eat (kind : Kind) : Parser Bool := do
  if ← check kind then
    let _ ← advance
    return true
  else return false

/-! ## Spans -/

/-- The span from `start` to the end of the token that was read last. -/
def spanFrom (start : Span) : Parser Span := fun c => .ok (start.merge c.previousSpan) c

/-! ## Repetition -/

/-- Reads at most `n` times, until `step` answers nothing. -/
def manyUpTo (step : Parser (Option α)) : Nat → Parser (List α)
  | 0 => pure []
  | n + 1 => do
    match ← step with
    | none => return []
    | some a =>
      let rest ← manyUpTo step n
      return a :: rest

/-- Reads until `step` answers nothing. -/
def many (step : Parser (Option α)) : Parser (List α) := do
  match ← step with
  | none => return []
  | some a =>
    let rest ← fun c => manyUpTo step c.remaining c
    return a :: rest

/-- Reads `item` if a token of the given kind stands at the cursor. -/
def whenAt (kind : Kind) (item : Parser α) : Parser (Option α) := do
  if ← check kind then
    let a ← item
    return some a
  else return none

/-- Reads `item` behind a comma, if one stands at the cursor. -/
def afterComma (item : Parser α) : Parser (Option α) := do
  if ← eat (.symbol .comma) then
    let a ← item
    return some a
  else return none

/-- Reads items separated by commas, up to the bracket `close`, which stays unread; there may be
none. -/
def commaSeparated (close : Kind) (item : Parser α) : Parser (List α) := do
  if ← check close then return []
  else
    let first ← item
    let rest ← many (afterComma item)
    return first :: rest

/-! ## Operators -/

/-- Reads operands with operators between them and combines them from the left. -/
def leftAssoc (operator : Parser (Option β)) (operand : Parser α) (combine : α → β → α → α) :
    Parser α := do
  let first ← operand
  let steps ← many do
    match ← operator with
    | none => return none
    | some op =>
      let rhs ← operand
      return some (op, rhs)
  return steps.foldl (fun lhs step => combine lhs step.1 step.2) first

/-- Reads an operand behind operators, the last of which applies first. -/
def prefixed (operator : Parser (Option β)) (operand : Parser α) (combine : β → α → α) :
    Parser α := do
  let ops ← many operator
  let inner ← operand
  return ops.foldr combine inner

end Parser

end RakeLang
