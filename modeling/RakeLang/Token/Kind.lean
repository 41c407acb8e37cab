/-!
# Kinds of tokens

The kinds that the lexical grammar tells apart: names and numbers, the twenty keywords, the
forty-five symbols, and the end of the input.

## Main definitions

* `RakeLang.Keyword`, `RakeLang.Symbol` — the fixed words and signs, each with its spelling.
* `RakeLang.Kind` — the kind of a token.
* `RakeLang.Kind.endsOperand` — the kinds behind which a minus sign is an operator.
* `RakeLang.Kind.opensDefinition` — the keywords at the head of a definition.

## Implementation notes

Spellings are lists of characters, since the lexer compares them with the characters ahead.
`Symbol.all` lists longer spellings before shorter ones, so that the first spelling that fits
is the longest one.
-/

set_option relaxedAutoImplicit false
set_option autoImplicit false

namespace RakeLang

/-- The operators of a lane reduction. -/
inductive ReduceOp where
  | add | mul | min | max | or | and
  deriving DecidableEq, Repr

/-- The operators of a lane scan. -/
inductive ScanOp where
  | add | mul | min | max
  deriving DecidableEq, Repr

/-- The name of a reduction operator. -/
def ReduceOp.name : ReduceOp → String
  | .add => "Add" | .mul => "Mul" | .min => "Min" | .max => "Max" | .or => "Or" | .and => "And"

/-- The name of a scan operator. -/
def ScanOp.name : ScanOp → String
  | .add => "Add" | .mul => "Mul" | .min => "Min" | .max => "Max"

/-! ## Keywords -/

/-- The words that are no identifiers. -/
inductive Keyword where
  | stack | single | type | crunch | rake | run
  | through | elseKw | sweep | overKw | letKw | inKw | funKw
  | true | false | lanes | or | and | not | is
  deriving DecidableEq, Repr

namespace Keyword

/-- All keywords. -/
def all : List Keyword :=
  [stack, single, type, crunch, rake, run, through, elseKw, sweep, overKw, letKw, inKw, funKw,
   true, false, lanes, or, and, not, is]

/-- The spelling of a keyword. -/
def chars : Keyword → List Char
  | stack => ['s', 't', 'a', 'c', 'k']
  | single => ['s', 'i', 'n', 'g', 'l', 'e']
  | type => ['t', 'y', 'p', 'e']
  | crunch => ['c', 'r', 'u', 'n', 'c', 'h']
  | rake => ['r', 'a', 'k', 'e']
  | run => ['r', 'u', 'n']
  | through => ['t', 'h', 'r', 'o', 'u', 'g', 'h']
  | elseKw => ['e', 'l', 's', 'e']
  | sweep => ['s', 'w', 'e', 'e', 'p']
  | overKw => ['o', 'v', 'e', 'r']
  | letKw => ['l', 'e', 't']
  | inKw => ['i', 'n']
  | funKw => ['f', 'u', 'n']
  | true => ['t', 'r', 'u', 'e']
  | false => ['f', 'a', 'l', 's', 'e']
  | lanes => ['l', 'a', 'n', 'e', 's']
  | or => ['o', 'r']
  | and => ['a', 'n', 'd']
  | not => ['n', 'o', 't']
  | is => ['i', 's']

/-- The name of a keyword as a kind of token. -/
def name : Keyword → String
  | stack => "Stack" | single => "Single" | type => "Type" | crunch => "Crunch" | rake => "Rake"
  | run => "Run" | through => "Through" | elseKw => "Else" | sweep => "Sweep" | overKw => "Over"
  | letKw => "Let" | inKw => "In" | funKw => "Fun" | true => "True" | false => "False"
  | lanes => "Lanes" | or => "Or" | and => "And" | not => "Not" | is => "Is"

/-- The table of keywords is complete. -/
theorem mem_all (k : Keyword) : k ∈ all := by cases k <;> decide

end Keyword

/-! ## Symbols -/

/-- Brackets, separators and operators. -/
inductive Symbol where
  | lParen | rParen | lBrace | rBrace | lBracket | rBracket
  | comma | colon | define | dot
  | pipe | pipePipe | pipeForward | ampAmp
  | arrow | leftArrow | atSign | shuffle
  | less | lessEq | greater | greaterEq | equal | notEqual
  | bang | plus | minus | star | slash | percent
  | shl | shr | rol | ror | cross
  | reduce (op : ReduceOp)
  | scan (op : ScanOp)
  deriving DecidableEq, Repr

namespace Symbol

/-- All symbols, those with a longer spelling first. -/
def all : List Symbol :=
  [reduce .min, reduce .max, scan .min, scan .max,
   reduce .add, reduce .mul, reduce .or, reduce .and, scan .add, scan .mul, rol, ror,
   shl, shr, lessEq, greaterEq, leftArrow, cross, arrow, define, pipePipe, pipeForward, ampAmp,
   notEqual, shuffle,
   less, greater, equal, bang, plus, minus, star, slash, percent, lParen, rParen, lBrace,
   rBrace, lBracket, rBracket, comma, colon, dot, pipe, atSign]

/-- The spelling of a symbol. -/
def chars : Symbol → List Char
  | lParen => ['('] | rParen => [')'] | lBrace => ['{'] | rBrace => ['}']
  | lBracket => ['['] | rBracket => [']']
  | comma => [','] | colon => [':'] | define => [':', '='] | dot => ['.']
  | pipe => ['|'] | pipePipe => ['|', '|'] | pipeForward => ['|', '>'] | ampAmp => ['&', '&']
  | arrow => ['-', '>'] | leftArrow => ['<', '-'] | atSign => ['@'] | shuffle => ['~', '>']
  | less => ['<'] | lessEq => ['<', '='] | greater => ['>'] | greaterEq => ['>', '=']
  | equal => ['='] | notEqual => ['!', '=']
  | bang => ['!'] | plus => ['+'] | minus => ['-'] | star => ['*'] | slash => ['/']
  | percent => ['%']
  | shl => ['<', '<'] | shr => ['>', '>'] | rol => ['<', '<', '<'] | ror => ['>', '>', '>']
  | cross => ['>', '<']
  | reduce .add => ['\\', '+', '/'] | reduce .mul => ['\\', '*', '/']
  | reduce .min => ['\\', 'm', 'i', 'n', '/'] | reduce .max => ['\\', 'm', 'a', 'x', '/']
  | reduce .or => ['\\', '|', '/'] | reduce .and => ['\\', '&', '/']
  | scan .add => ['\\', '+', '\\'] | scan .mul => ['\\', '*', '\\']
  | scan .min => ['\\', 'm', 'i', 'n', '\\'] | scan .max => ['\\', 'm', 'a', 'x', '\\']

/-- The name of a symbol as a kind of token. -/
def name : Symbol → String
  | lParen => "LParen" | rParen => "RParen" | lBrace => "LBrace" | rBrace => "RBrace"
  | lBracket => "LBracket" | rBracket => "RBracket"
  | comma => "Comma" | colon => "Colon" | define => "Define" | dot => "Dot"
  | pipe => "Pipe" | pipePipe => "PipePipe" | pipeForward => "PipeForward" | ampAmp => "AmpAmp"
  | arrow => "Arrow" | leftArrow => "LeftArrow" | atSign => "At" | shuffle => "Shuffle"
  | less => "Less" | lessEq => "LessEq" | greater => "Greater" | greaterEq => "GreaterEq"
  | equal => "Equal" | notEqual => "NotEqual"
  | bang => "Bang" | plus => "Plus" | minus => "Minus" | star => "Star" | slash => "Slash"
  | percent => "Percent"
  | shl => "Shl" | shr => "Shr" | rol => "Rol" | ror => "Ror" | cross => "Cross"
  | reduce op => "Reduce" ++ op.name
  | scan op => "Scan" ++ op.name

/-- The table of signs is complete. -/
theorem mem_all (s : Symbol) : s ∈ all := by
  cases s with
  | reduce op => cases op <;> decide
  | scan op => cases op <;> decide
  | _ => decide

end Symbol

/-! ## Kinds -/

/-- The kind of a token. -/
inductive Kind where
  /-- A word that begins with a lower case letter or an underscore and is no keyword. -/
  | ident
  /-- A word that begins with an upper case letter. -/
  | typeIdent
  | int
  | float
  /-- A number sign with a name behind it. -/
  | tineRef
  | keyword (word : Keyword)
  | symbol (sign : Symbol)
  /-- The end of the input. -/
  | eof
  deriving DecidableEq, Repr

namespace Kind

/-- All kinds. -/
def all : List Kind :=
  [ident, typeIdent, int, float, tineRef] ++ Keyword.all.map keyword ++ Symbol.all.map symbol
    ++ [eof]

/-- The name of a kind. -/
def name : Kind → String
  | ident => "Ident"
  | typeIdent => "TypeIdent"
  | int => "Int"
  | float => "Float"
  | tineRef => "TineRef"
  | keyword word => word.name
  | symbol sign => sign.name
  | eof => "Eof"

/-- The kind of the given name. -/
def ofName? (name : String) : Option Kind := all.find? fun kind => kind.name == name

/-- What a kind is called in a message, without quotation marks: keywords and symbols go by
their spelling. -/
def describe : Kind → String
  | ident => "identifier"
  | typeIdent => "type name"
  | int => "integer literal"
  | float => "float literal"
  | tineRef => "tine reference"
  | keyword word => String.ofList word.chars
  | symbol sign => String.ofList sign.chars
  | eof => "end of input"

/-- What a kind is called in a message: a spelling stands between backquotes, a class of tokens
does not. -/
def display : Kind → String
  | keyword word => "`" ++ (keyword word).describe ++ "`"
  | symbol sign => "`" ++ (symbol sign).describe ++ "`"
  | kind => kind.describe

/-- Is this one of the keywords at the head of a definition? -/
def opensDefinition : Kind → Bool
  | keyword .stack | keyword .single | keyword .type
  | keyword .crunch | keyword .rake | keyword .run => true
  | _ => false

/-- Can a token of this kind end an operand?  Behind such a token a minus sign before a digit
is an operator and not the sign of a number. -/
def endsOperand : Kind → Bool
  | ident | typeIdent | int | float
  | keyword .true | keyword .false | keyword .lanes
  | symbol .atSign | symbol .rParen | symbol .rBracket | symbol .rBrace
  | symbol (.reduce _) | symbol (.scan _) => true
  | _ => false

/-- Is this the kind of a number? -/
def isNumber : Kind → Bool
  | int | float => true
  | _ => false

/-- The table of kinds is complete. -/
theorem mem_all (kind : Kind) : kind ∈ all := by
  cases kind <;> simp [all, Keyword.mem_all, Symbol.mem_all]

end Kind

end RakeLang
