import RakeLang.SourceFile.Load
import RakeLang.SourceFile.Outline

/-!
# The command line

The program lists the tokens of a source file, or reads it and shows its tree.  It names at most
one file, and what it answers is a function of the arguments and of the content of that file.

    tokens FILE
    parse FILE [--fail-fast] [-q | --quiet]
    --version | -V

Flags can stand before and behind the file, each at most once; behind two dashes everything is a
file.

## Main definitions

* `RakeLang.Command` — the commands; `RakeLang.Command.ofArgs?` reads the arguments.
* `RakeLang.Command.run` — what a command answers.
-/

set_option relaxedAutoImplicit false
set_option autoImplicit false

namespace RakeLang

/-- What the program is asked to do. -/
inductive Command where
  | version
  | tokens (path : String)
  | parse (path : String) (mode : ErrorMode) (quiet : Bool)
  deriving DecidableEq, Repr

/-- What the program writes, and the code with which it ends. -/
structure Answer where
  exit : Nat
  stdout : String
  stderr : String
  deriving DecidableEq, Repr

namespace Command

/-! ## Arguments -/

/-- The arguments of a command that have been read. -/
structure Given where
  path : Option String
  failFast : Bool
  quiet : Bool
  deriving DecidableEq, Repr

namespace Given

/-- No arguments. -/
def nothing : Given := ⟨none, false, false⟩

/-- One more file; there is room for one. -/
def withPath (g : Given) (path : String) : Option Given :=
  if g.path.isSome then none else some { g with path := some path }

/-- The flag `--fail-fast`, once. -/
def withFailFast (g : Given) : Option Given :=
  if g.failFast then none else some { g with failFast := true }

/-- The flag `--quiet`, once. -/
def withQuiet (g : Given) : Option Given :=
  if g.quiet then none else some { g with quiet := true }

end Given

/-- Is the argument a flag?  A single dash is a file. -/
def isFlag (arg : String) : Bool :=
  match arg.toList with
  | '-' :: _ :: _ => true
  | _ => false

/-- The arguments behind two dashes: files only. -/
def readPaths : Given → List String → Option Given
  | g, [] => some g
  | g, arg :: args => (g.withPath arg).bind fun g => readPaths g args

/-- The arguments of a command, with or without the flags of `parse`. -/
def readArgs (flags : Bool) : Given → List String → Option Given
  | g, [] => some g
  | g, arg :: args =>
    if arg = "--" then readPaths g args
    else if isFlag arg then
      if flags = true ∧ arg = "--fail-fast" then g.withFailFast.bind fun g => readArgs flags g args
      else if flags = true ∧ (arg = "--quiet" ∨ arg = "-q") then
        g.withQuiet.bind fun g => readArgs flags g args
      else none
    else (g.withPath arg).bind fun g => readArgs flags g args

/-- Does the argument ask for the version?  A group of short flags is read from the left. -/
def asksVersion (arg : String) : Bool :=
  arg == "--version" || match arg.toList with
    | '-' :: 'V' :: _ => true
    | _ => false

/-- The command that the arguments give; nothing if they are not in order. -/
def ofArgs? : List String → Option Command
  | [] => none
  | arg :: args =>
    if arg = "tokens" then
      (readArgs false .nothing args).bind fun g => g.path.map .tokens
    else if arg = "parse" then
      (readArgs true .nothing args).bind fun g => g.path.map fun path =>
        .parse path (if g.failFast then .failFast else .collectAll) g.quiet
    else if asksVersion arg then some .version
    else none

/-- The file that a command names. -/
def path? : Command → Option String
  | version => none
  | tokens path | parse path _ _ => some path

/-! ## Answers -/

/-- The name of the program and its version. -/
def versionText : String := "rake-syntax 0.1.0"

/-- The cause for which a file gives no text, as a tree on one line. -/
def describe : LoadFault → String
  | .refused code kind reason =>
    "Os \x7b code: " ++ toString code ++ ", kind: " ++ kind ++ ", message: " ++ Text.quote reason
      ++ " \x7d"
  | .notText =>
    "Error \x7b kind: InvalidData, message: " ++ Text.quote LoadFault.notText.message ++ " \x7d"

/-- The answer for a file that gives no text. -/
def refusal (cause : String) : Answer := ⟨1, "", "Error: " ++ cause ++ "\n"⟩

/-- The line on a token: its place, its kind and its text. -/
def tokenLine (t : Token) : String :=
  Text.padLeft 4 (toString t.span.line) ++ ":" ++ Text.padRight 3 (toString t.span.column) ++ " "
    ++ Text.padRight 12 t.kind.name ++ " " ++ Text.quote t.lexeme ++ "\n"

/-- The line on a fault of the lexer. -/
def faultLine (path : String) (fault : Fault) : String := path ++ ": " ++ fault.message ++ "\n"

/-- The tokens of a text. -/
def listTokens (path source : String) : Answer :=
  let items := lex source
  let faults := items.filterMap LexItem.fault?
  { exit := if faults.isEmpty then 0 else 1
    stdout := String.join ((items.filterMap LexItem.token?).map tokenLine)
    stderr := String.join (faults.map (faultLine path)) }

/-- The tree of a text and its faults. -/
def showTree (parsed : Parsed) (quiet : Bool) : Answer :=
  { exit := if parsed.isOk then 0 else 1
    stdout := if quiet then "" else parsed.file.outline.render ++ "\n"
    stderr := if parsed.isOk then "" else parsed.diagnostics.render ++ "\n" }

/-- What a command answers, given the content of the file that it names. -/
def run (content : Except LoadFault ByteArray) : Command → Answer
  | version => ⟨0, versionText ++ "\n", ""⟩
  | tokens path =>
    match loadText content with
    | .ok source => listTokens path source
    | .error fault => refusal (describe fault)
  | parse path mode quiet =>
    match loadText content with
    | .ok source => showTree (parseSource path source mode) quiet
    | .error fault => refusal ("Io \x7b source: " ++ describe fault ++ " \x7d")

end Command

end RakeLang
