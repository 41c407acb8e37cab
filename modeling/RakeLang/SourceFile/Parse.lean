import RakeLang.SourceFile.Basic
import RakeLang.Token.Lexer

/-!
# Reading texts

The ways into the library: a text, or a list of tokens, comes in, and a syntax tree or faults
come out.

## Main definitions

* `RakeLang.parseSource` — reads a source file and keeps what made sense.
* `RakeLang.parse`, `RakeLang.parseTokens` — read a source file up to the first fault.
* `RakeLang.parseExpression`, `RakeLang.parsePredicate`, `RakeLang.parseType` — read a text that
  is an expression, a predicate or a type as a whole.
-/

set_option relaxedAutoImplicit false
set_option autoImplicit false

namespace RakeLang

/-! ## Source files -/

/-- What came of a source file: the definitions that made sense, and the faults of those that
did not. -/
structure Parsed where
  file : SourceFile
  diagnostics : Diagnostics
  deriving Repr

namespace Parsed

/-- Was the source read without a fault? -/
def isOk (p : Parsed) : Bool := p.diagnostics.faults.isEmpty

/-- The file, or the diagnostics if there was a fault. -/
def toExcept (p : Parsed) : Except Diagnostics SourceFile :=
  if p.isOk then .ok p.file else .error p.diagnostics

end Parsed

/-- Reads a source file.  Unrecognised characters are told first and otherwise skipped; where
only the first fault is asked for, one of them ends the reading before it begins. -/
def parseSource (sourceId source : String) (mode : ErrorMode) : Parsed :=
  let items := lex source
  let reading := readDefinitions mode (.ofTokens (items.filterMap LexItem.token?))
  match mode, items.filterMap LexItem.fault? with
  | .failFast, fault :: _ => ⟨⟨[], .origin⟩, ⟨sourceId, [fault]⟩⟩
  | _, faults => ⟨reading.file, ⟨sourceId, faults ++ reading.faults⟩⟩

/-- Reads a source file from its tokens, up to the first fault. -/
def parseTokens (tokens : List Token) : Except Fault SourceFile :=
  let reading := readDefinitions .failFast (.ofTokens tokens)
  match reading.faults with
  | [] => .ok reading.file
  | fault :: _ => .error fault

/-- Reads a source file, up to the first fault. -/
def parse (source : String) : Except Fault SourceFile := (tokenize source).bind parseTokens

/-! ## Parts of source files -/

/-- Reads with `parser` and refuses what it leaves unread. -/
def Parser.wholeInput {α : Type} (parser : Parser α) : Parser α := do
  let a ← parser
  if ← check .eof then return a else unexpected ["end of input"]

/-- Reads a text as a whole with `parser`. -/
def parseWith {α : Type} (parser : Parser α) (source : String) : Except Fault α :=
  (tokenize source).bind fun tokens =>
    match parser.wholeInput (.ofTokens tokens) with
    | .ok a _ => .ok a
    | .error fault _ => .error fault

/-- Reads a text as an expression. -/
def parseExpression (source : String) : Except Fault Expression :=
  parseWith Parser.expression source

/-- Reads a text as a predicate. -/
def parsePredicate (source : String) : Except Fault Predicate :=
  parseWith Parser.predicate source

/-- Reads a text as a type. -/
def parseType (source : String) : Except Fault DataType := parseWith Parser.dataType source

end RakeLang
