import RakeLang.Predicate.Parser
import RakeLang.Proofs.Running.Machine
import RakeLang.SourceFile.Basic

/-!
# Programs on a buffer

As functions on cursors, the readers of this library do not show how they come to their answers.  A
`Program` is the text of a reader.  It has no other access to the tokens than the instructions of a
machine, its repetitions and recursions have no bound, and what it goes back to is a position and
not a cursor.  So it can do what a function cannot: use an index that is out of range, or go on for
ever.

A program is syntax: what stands behind it is a function of its answer, but whether it looks at a
token, repeats something or goes on with a named reader shows in its first constructor.

## Main definitions

* `RakeLang.Procedure` — the readers that go on with themselves, by name.
* `RakeLang.Program` — the texts of readers.
* `RakeLang.Program.expect`, `RakeLang.Program.commaSeparated`, `RakeLang.Program.leftAssoc` —
  single tokens, lists and chains of operators.
* `RakeLang.Program.retry` — two readers that are tried at the same place.
-/

set_option relaxedAutoImplicit false
set_option autoImplicit false

namespace RakeLang

/-! ## Syntax -/

/-- The readers that go on with themselves or with each other, by name. -/
inductive Procedure : Type → Type where
  /-- Reads a chain of operands with the operators that bind at least as tightly as `least`. -/
  | chain (operands : Parser.Operands) (least : Nat) : Procedure Expression
  /-- Reads a predicate. -/
  | predicate : Procedure Predicate
  /-- Reads a type. -/
  | dataType : Procedure DataType
  /-- Reads the bindings and the value of a through block. -/
  | throughBody : Procedure (List LetBinding × Expression)
  /-- Attempts definitions up to the end of the input. -/
  | definitions (mode : ErrorMode) : Procedure (List Attempt)

/-- The texts of readers. -/
inductive Program : Type → Type 1 where
  /-- Answers a value. -/
  | pure {α : Type} (a : α) : Program α
  /-- Refuses what stands at the index. -/
  | throw {α : Type} (fault : Fault) : Program α
  /-- Executes an instruction. -/
  | perform (i : Instruction) : Program i.Answer
  /-- Goes on with the answer of a program. -/
  | bind {α β : Type} (p : Program α) (f : α → Program β) : Program β
  /-- Answers the fault of a program that is refused, and its value if it is not. -/
  | caught {α : Type} (p : Program α) : Program (Except Fault α)
  /-- Repeats a program as long as it answers something. -/
  | many {α : Type} (step : Program (Option α)) : Program (List α)
  /-- Goes on with a reader by its name. -/
  | invoke {α : Type} (r : Procedure α) : Program α

/-- Programs are put one behind the other. -/
instance : Monad Program where
  pure := Program.pure
  bind := Program.bind

namespace Program

variable {α β : Type}

/-! ## Single tokens -/

/-- The token at the index. -/
def peek : Program Token := perform (.lookahead 0)

/-- The kind of the token at the index. -/
def peekKind : Program Kind := do
  let token ← peek
  return token.kind

/-- Is the token at the index of the given kind? -/
def check (kind : Kind) : Program Bool := do
  let token ← peek
  return token.kind == kind

/-- Is the token `n` places ahead of the given kind? -/
def checkAhead (n : Nat) (kind : Kind) : Program Bool := do
  let token : Token ← perform (.lookahead n)
  return token.kind == kind

/-- Is the token at the index an identifier with the given text? -/
def checkWord (word : String) : Program Bool := do
  let token ← peek
  return token.kind == .ident && token.lexeme == word

/-- Reads the token at the index. -/
def advance : Program Token := perform .advance

/-- Refuses the token at the index where one of the given things should stand. -/
def unexpected (expected : List String) : Program α := do
  let token ← peek
  throw (.unexpected expected token.found token.span)

/-- Refuses a definition because of the part that stands, or is missing, at the index. -/
def misplaced (part : Misplaced) : Program α := do
  let token ← peek
  throw (part.fault token.span)

/-- Reads a token of the given kind and refuses any other. -/
def expect (kind : Kind) : Program Token := do
  if ← check kind then advance else unexpected [kind.display]

/-- Reads a token of the given kind if one stands at the index, and tells whether it did. -/
def eat (kind : Kind) : Program Bool := do
  if ← check kind then
    let _ ← advance
    return true
  else return false

/-- The span from `start` to the end of the token that was read last. -/
def spanFrom (start : Span) : Program Span := do
  let last : Span ← perform .previousSpan
  return start.merge last

/-! ## Repetition -/

/-- One round of a repetition, and the rounds behind it. -/
def manyWith (step : Program (Option α)) (rounds : Program (List α)) : Program (List α) := do
  match ← step with
  | none => return []
  | some a =>
    let rest ← rounds
    return a :: rest

/-- Reads `item` if a token of the given kind stands at the index. -/
def whenAt (kind : Kind) (item : Program α) : Program (Option α) := do
  if ← check kind then
    let a ← item
    return some a
  else return none

/-- Reads `item` behind a comma, if one stands at the index. -/
def afterComma (item : Program α) : Program (Option α) := do
  if ← eat (.symbol .comma) then
    let a ← item
    return some a
  else return none

/-- Reads items separated by commas, up to the bracket `close`, which stays unread; there may be
none. -/
def commaSeparated (close : Kind) (item : Program α) : Program (List α) := do
  if ← check close then return []
  else
    let first ← item
    let rest ← many (afterComma item)
    return first :: rest

/-! ## Operators -/

/-- Reads an operator, if one stands at the index, and the operand behind it. -/
def link (operator : Program (Option β)) (operand : Program α) : Program (Option (β × α)) := do
  match ← operator with
  | none => return none
  | some op =>
    let rhs ← operand
    return some (op, rhs)

/-- Reads operands with operators between them and combines them from the left. -/
def leftAssoc (operator : Program (Option β)) (operand : Program α) (combine : α → β → α → α) :
    Program α := do
  let first ← operand
  let steps ← many (link operator operand)
  return steps.foldl (fun lhs step => combine lhs step.1 step.2) first

/-- Reads an operand behind operators, the last of which applies first. -/
def prefixed (operator : Program (Option β)) (operand : Program α) (combine : β → α → α) :
    Program α := do
  let ops ← many operator
  let inner ← operand
  return ops.foldr combine inner

/-! ## Readers that are tried -/

/-- Goes back to the position `start` and reads with `second`, unless the fault that was met is
internal. -/
def goBack (start : Nat) (fault : Fault) (second : Program α) : Program α := do
  if fault.isInternal then throw fault
  else
    let _ ← perform (.rewind start)
    match ← caught second with
    | .ok a => return a
    | .error other => throw (if other.isInternal then other else fault.furthest other)

/-- Reads with `first` and, where that is refused, goes back and reads with `second`. -/
def retry (first second : Program α) : Program α := do
  let start ← perform .checkpoint
  match ← caught first with
  | .ok a => return a
  | .error fault => goBack start fault second

end Program

end RakeLang
