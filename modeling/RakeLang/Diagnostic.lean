import RakeLang.Span

/-!
# Diagnostics

What can go wrong when a text is read, and how it is told.  A fault is a cause with the place
where it shows; the wording is in `Fault.message` alone.  The faults of one source file, in the
order in which they were met, are its diagnostics.

## Main definitions

* `RakeLang.Fault` — the causes.
* `RakeLang.Fault.message`, `RakeLang.Fault.span?` — the wording and the place of a fault.
* `RakeLang.Misplaced` — the ways in which the parts of a definition can be out of place.
* `RakeLang.Diagnostics` — the faults of a source file; `Diagnostics.render` is their text.
-/

set_option relaxedAutoImplicit false
set_option autoImplicit false

namespace RakeLang

/-- A cause for which a text is refused. -/
inductive Fault where
  /-- A character that begins no token. -/
  | unrecognized (char : Char) (span : Span)
  /-- A scalar literal that its opening angle does not lead to. -/
  | unclosedScalar (span : Span)
  /-- A token where one of the expected things should stand. -/
  | unexpected (expected : List String) (found : String) (span : Span)
  /-- A part of a definition that is missing or out of place. -/
  | structural (construct message : String) (span : Span)
  /-- A number that has no value in its range. -/
  | numeral (lexeme : String) (span : Span)
  /-- An operator without a meaning: the fault of the reader and not of the text. -/
  | unresolvedOperator (operator : String) (span : Span)
  /-- A source that cannot be read at all. -/
  | unreadable (reason : String)
  deriving DecidableEq, Repr

namespace Fault

/-- Where the fault shows; a source that cannot be read has no places. -/
def span? : Fault → Option Span
  | unrecognized _ span | unclosedScalar span | unexpected _ _ span | structural _ _ span
  | numeral _ span | unresolvedOperator _ span => some span
  | unreadable _ => none

/-- Is the reader to blame, and not the text? -/
def isInternal : Fault → Bool
  | unresolvedOperator .. => true
  | _ => false

/-- The expected things as a phrase. -/
def expectation : List String → String
  | [] => "more input"
  | [one] => one
  | many => "one of " ++ String.intercalate ", " many

/-- The wording of a fault. -/
def message : Fault → String
  | unrecognized char _ => "unrecognized character '" ++ char.toString ++ "'"
  | unclosedScalar _ => "scalar literal opened here is never closed by '>'"
  | unexpected expected found _ => "expected " ++ expectation expected ++ ", found " ++ found
  | structural _ message _ => message
  | numeral lexeme _ => "invalid numeric literal `" ++ lexeme ++ "`"
  | unresolvedOperator operator _ =>
    "internal parser error: no resolution for operator `" ++ operator ++ "`"
  | unreadable reason => "IO error: " ++ reason

/-- Of the faults of two failed readings, the one that shows further on; the second one if they
show at the same place. -/
def furthest (first second : Fault) : Fault :=
  let reach (fault : Fault) := (fault.span?.map (·.start)).getD 0
  if reach first ≤ reach second then second else first

end Fault

/-! ## Parts out of place -/

/-- The ways in which the parts of a definition can be missing or out of place. -/
inductive Misplaced where
  | noTine (rake : String)
  | setupBehindTine (rake : String)
  | noThrough (rake : String)
  | tineBehindThrough (rake : String)
  | noSweep (rake : String)
  | secondSweep (rake : String)
  | noSweepArm
  | noResultName
  deriving DecidableEq, Repr

namespace Misplaced

/-- The part that is missing or out of place. -/
def construct : Misplaced → String
  | noTine _ | tineBehindThrough _ => "tine declaration"
  | setupBehindTine _ => "setup statement"
  | noThrough _ => "through block"
  | noSweep _ | secondSweep _ => "sweep block"
  | noSweepArm => "sweep arm"
  | noResultName => "result name"

/-- The rule that the definition breaks. -/
def message : Misplaced → String
  | noTine rake => "rake `" ++ rake ++ "` requires at least one tine declaration"
  | setupBehindTine rake =>
    "setup `let` in rake `" ++ rake ++ "` must precede the first tine declaration"
  | noThrough rake => "rake `" ++ rake ++ "` requires at least one through block"
  | tineBehindThrough rake => "tines in rake `" ++ rake ++ "` must precede the first through block"
  | noSweep rake => "rake `" ++ rake ++ "` must end with a sweep block"
  | secondSweep rake => "rake `" ++ rake ++ "` has more than one sweep block"
  | noSweepArm => "sweep block requires at least one arm"
  | noResultName => "result tuple needs at least one name"

/-- The fault of a misplaced part that shows at `span`. -/
def fault (m : Misplaced) (span : Span) : Fault := .structural m.construct m.message span

end Misplaced

/-! ## The faults of a source -/

/-- The faults of one source, in the order in which they were met. -/
structure Diagnostics where
  /-- What the source is called. -/
  sourceId : String
  faults : List Fault
  deriving DecidableEq, Repr

namespace Diagnostics

/-- No faults so far. -/
def empty (sourceId : String) : Diagnostics := ⟨sourceId, []⟩

/-- One more fault. -/
def push (d : Diagnostics) (fault : Fault) : Diagnostics := ⟨d.sourceId, d.faults ++ [fault]⟩

/-- Is the reader to blame for one of the faults? -/
def hasInternal (d : Diagnostics) : Bool := d.faults.any Fault.isInternal

/-- The line on one fault: the source, the place if there is one, and the wording. -/
def line (sourceId : String) (fault : Fault) : String :=
  match fault.span? with
  | some span => sourceId ++ ":" ++ span.render ++ ": " ++ fault.message
  | none => sourceId ++ ": " ++ fault.message

/-- All faults, one on a line. -/
def render (d : Diagnostics) : String :=
  String.intercalate "\n" (d.faults.map (line d.sourceId))

end Diagnostics

end RakeLang
