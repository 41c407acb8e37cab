import RakeLang.Definition.Parser

/-!
# Source files

A source file is read as a row of attempts at a definition.  An attempt gives a definition or a
fault; behind a fault reading goes on where the next definition can begin, or stops at once if
the caller asks for the first fault only.  The definitions and the faults of a file are what its
attempts gave.

## Main definitions

* `RakeLang.Attempt` — an attempt at a definition and what came of it.
* `RakeLang.attempts` — the attempts from a cursor on, and the cursor behind the last one.
* `RakeLang.readDefinitions` — the file that the attempts from a cursor on give, and its faults.
-/

set_option relaxedAutoImplicit false
set_option autoImplicit false

namespace RakeLang

/-- The syntax tree of a source file. -/
structure SourceFile where
  definitions : List Definition
  span : Span
  deriving Repr

/-- What a reading does about a fault. -/
inductive ErrorMode where
  /-- It stops. -/
  | failFast
  /-- It goes on at the next definition. -/
  | collectAll
  deriving DecidableEq, Repr

/-- An attempt at a definition. -/
structure Attempt where
  /-- The token at which the attempt began. -/
  start : Token
  /-- The definition, or the fault for which it was refused. -/
  outcome : Except Fault Definition

namespace Attempt

/-- The definition that an attempt gave. -/
def definition? (a : Attempt) : Option Definition := a.outcome.toOption

/-- The fault that an attempt met. -/
def fault? (a : Attempt) : Option Fault :=
  match a.outcome with
  | .ok _ => none
  | .error fault => some fault

end Attempt

/-- At most `n` attempts from a cursor on, and the cursor behind the last one. -/
def attemptsUpTo (mode : ErrorMode) : Nat → Cursor → List Attempt × Cursor
  | 0, c => ([], c)
  | n + 1, c =>
    if c.atEnd then ([], c)
    else
      match Parser.definition c with
      | .ok definition behind =>
        let (more, last) := attemptsUpTo mode n behind
        (⟨c.peek, .ok definition⟩ :: more, last)
      | .error fault behind =>
        match mode with
        | .failFast => ([⟨c.peek, .error fault⟩], behind)
        | .collectAll =>
          let (more, last) := attemptsUpTo mode n (behind.recover c.position)
          (⟨c.peek, .error fault⟩ :: more, last)

/-- The attempts from a cursor on, and the cursor behind the last one.  Each attempt takes a
token, so that there are no more of them than tokens remain. -/
def attempts (mode : ErrorMode) (c : Cursor) : List Attempt × Cursor :=
  attemptsUpTo mode c.remaining c

/-- What comes of reading a file from a cursor on. -/
structure FileReading where
  file : SourceFile
  faults : List Fault
  /-- The cursor behind the last attempt. -/
  behind : Cursor

/-- The file and the faults that the attempts from a cursor on give. -/
def readDefinitions (mode : ErrorMode) (c : Cursor) : FileReading :=
  let (attempts, behind) := attempts mode c
  { file := ⟨attempts.filterMap Attempt.definition?, Span.origin.merge behind.peek.span⟩
    faults := attempts.filterMap Attempt.fault?
    behind }

end RakeLang
