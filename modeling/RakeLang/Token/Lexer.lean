import RakeLang.Diagnostic
import RakeLang.Token.Basic
import RakeLang.Token.Lexeme

/-!
# The token stream

A lexer stands at a place of a source text and yields one item after the other: the next token,
or the next character that begins none, behind which it goes on.  The last item is the token at
the end of the input; after it there is nothing.

## Main definitions

* `RakeLang.Lexer` — the text that is left, its place, and what stands before it.
* `RakeLang.Lexer.next?` — the next item and the lexer behind it.
* `RakeLang.Lexer.items` — all items that are left.
* `RakeLang.tokenize` — the tokens of a text, or its first unrecognised character.
-/

set_option relaxedAutoImplicit false
set_option autoImplicit false

namespace RakeLang

/-- What a lexer yields. -/
inductive LexItem where
  | token (token : Token)
  /-- A character that begins no token, with its span. -/
  | unrecognized (char : Char) (span : Span)
  deriving DecidableEq, Repr

namespace LexItem

/-- The token, if the item is one. -/
def token? : LexItem → Option Token
  | token t => some t
  | unrecognized .. => none

/-- The fault, if the item is one. -/
def fault? : LexItem → Option Fault
  | token _ => none
  | unrecognized char span => some (.unrecognized char span)

/-- The item as a token or a fault. -/
def toExcept : LexItem → Except Fault Token
  | token t => .ok t
  | unrecognized char span => .error (.unrecognized char span)

end LexItem

/-- A reader of tokens at a place of a source text. -/
structure Lexer where
  /-- The text that is left. -/
  rest : List Char
  /-- Where it begins. -/
  place : Place
  /-- Can the last token yielded end an operand? -/
  afterOperand : Bool
  /-- Has the token at the end of the input been yielded? -/
  finished : Bool
  deriving DecidableEq, Repr

namespace Lexer

/-- The lexer at the beginning of a text. -/
def ofSource (source : String) : Lexer := ⟨source.toList, .start, false, false⟩

/-- The lexer behind the white space and the comments that it stands at. -/
def skipTrivia (l : Lexer) : Lexer :=
  let gap := Lexeme.trivia l.rest
  { l with rest := l.rest.drop gap.length, place := l.place.after gap }

/-- The item that begins with the first character that is left, and the lexer behind it.  An
unrecognised character leaves the memory of the last token alone. -/
def read (l : Lexer) : LexItem × Lexer :=
  match l.rest with
  | [] => (.token ⟨.eof, "", .between l.place l.place⟩, { l with finished := true })
  | c :: cs =>
    match Lexeme.longest? l.afterOperand (c :: cs) with
    | some (kind, lexeme) =>
      let stop := l.place.after lexeme
      (.token ⟨kind, String.ofList lexeme, .between l.place stop⟩,
        { l with
          rest := (c :: cs).drop lexeme.length, place := stop, afterOperand := kind.endsOperand })
    | none =>
      let stop := l.place.next c
      (.unrecognized c (.between l.place stop), { l with rest := cs, place := stop })

/-- The next item and the lexer behind it, until the input has ended. -/
def next? (l : Lexer) : Option (LexItem × Lexer) :=
  if l.finished then none else some l.skipTrivia.read

/-- The items that are left, at most `n` of them. -/
def itemsUpTo : Nat → Lexer → List LexItem
  | 0, _ => []
  | n + 1, l =>
    match l.next? with
    | none => []
    | some (item, l) => item :: itemsUpTo n l

/-- The items that are left.  Each item but the last takes a character, so that one more than
the characters left are enough. -/
def items (l : Lexer) : List LexItem := itemsUpTo (l.rest.length + 1) l

end Lexer

/-- The items of a source text. -/
def lex (source : String) : List LexItem := (Lexer.ofSource source).items

/-- The tokens of a source text, or the fault of its first unrecognised character. -/
def tokenize (source : String) : Except Fault (List Token) := (lex source).mapM LexItem.toExcept

end RakeLang
