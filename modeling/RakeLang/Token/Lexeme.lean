import RakeLang.Token.Kind
import RakeLang.Text.Blank

/-!
# Lexemes

The lexical grammar, as functions on the characters ahead: how much of them is white space or
comment, and which token begins with the first of them.  Each function answers the part of the
text that it recognises, which is always an initial part.

A number is a run of digits; with a point and more digits behind it, or none, it is a float, and
only a float has an exponent, which counts only with digits of its own.  A minus sign belongs to
a number where no operand stands before it.

## Main definitions

* `RakeLang.Lexeme.trivia` — the white space and the comments at the head of a text.
* `RakeLang.Lexeme.longest?` — the longest token at the head of a text.
-/

set_option relaxedAutoImplicit false
set_option autoImplicit false

namespace RakeLang.Lexeme

/-! ## Between tokens -/

/-- The white space and the comments at the head of a text.  A comment is two tildes and all
that follows up to the end of the line; `inComment` says that the text begins inside one. -/
def triviaFrom : (inComment : Bool) → List Char → List Char
  | _, [] => []
  | true, c :: cs => c :: triviaFrom (c != '\n') cs
  | false, '~' :: '~' :: cs => '~' :: '~' :: triviaFrom true cs
  | false, c :: cs => if Text.isBlank c then c :: triviaFrom false cs else []

/-- The white space and the comments at the head of a text. -/
def trivia (cs : List Char) : List Char := triviaFrom false cs

/-! ## Words -/

/-- A lower case letter or an underscore: the first character of a name. -/
def isNameStart (c : Char) : Bool := c.isLower || c == '_'

/-- A letter, a digit or an underscore: the further characters of a name. -/
def isNamePart (c : Char) : Bool := c.isAlphanum || c == '_'

/-- The kind of a word: a keyword if it is spelled like one. -/
def wordKind (word : List Char) : Kind :=
  match Keyword.all.find? fun k => k.chars == word with
  | some k => .keyword k
  | none => .ident

/-! ## Numbers -/

/-- The digits at the head of a text. -/
def digits (cs : List Char) : List Char := cs.takeWhile Char.isDigit

/-- The plus or minus sign at the head of a text. -/
def sign : List Char → List Char
  | c :: _ => if c = '+' ∨ c = '-' then [c] else []
  | [] => []

/-- The exponent at the head of a text: its letter, a sign or none, and at least one digit. -/
def exponent : List Char → List Char
  | c :: cs =>
    if c = 'e' ∨ c = 'E' then
      let sign := sign cs
      let digits := digits (cs.drop sign.length)
      if digits.isEmpty then [] else c :: (sign ++ digits)
    else []
  | [] => []

/-- The number at the head of a text that begins with a digit. -/
def number (cs : List Char) : Kind × List Char :=
  let whole := digits cs
  match cs.drop whole.length with
  | '.' :: rest =>
    let fraction := digits rest
    (.float, whole ++ '.' :: (fraction ++ exponent (rest.drop fraction.length)))
  | _ => (.int, whole)

/-! ## Symbols -/

/-- The symbol with the longest spelling among those at the head of a text. -/
def symbol? (cs : List Char) : Option Symbol :=
  Symbol.all.find? fun s => s.chars.isPrefixOf cs

/-! ## Tokens -/

/-- Does the text begin with a character of the given class? -/
def startsWith (p : Char → Bool) : List Char → Bool
  | c :: _ => p c
  | [] => false

/-- The longest token at the head of a text, as its kind and its characters; nothing where no
token begins.  `afterOperand` says that the token before may end an operand, so that a minus
sign is no part of a number. -/
def longest? (afterOperand : Bool) : List Char → Option (Kind × List Char)
  | [] => none
  | c :: cs =>
    if c.isDigit then some (number (c :: cs))
    else if c = '-' ∧ startsWith Char.isDigit cs = true ∧ afterOperand = false then
      some ((number cs).1, c :: (number cs).2)
    else if isNameStart c then
      let word := c :: cs.takeWhile isNamePart
      some (wordKind word, word)
    else if c.isUpper then some (.typeIdent, c :: cs.takeWhile isNamePart)
    else if c = '#' then
      if startsWith isNameStart cs then some (.tineRef, c :: cs.takeWhile isNamePart) else none
    else (symbol? (c :: cs)).map fun s => (.symbol s, s.chars)

end RakeLang.Lexeme
