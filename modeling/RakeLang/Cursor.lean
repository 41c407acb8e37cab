import RakeLang.Token.Basic

/-!
# Cursors

A cursor is a place in a list of tokens: the tokens that have been read, the tokens ahead, and
the token at the end of the input, which closes every list.  Reading moves tokens from one side
to the other; going back moves them the other way.  A split replaces the token at the cursor by
the tokens that it falls into, so it changes what is ahead and nothing else.

## Main definitions

* `RakeLang.Cursor.ofTokens` — the cursor at the first token of a list.
* `RakeLang.Cursor.peek`, `RakeLang.Cursor.lookahead` — the tokens ahead.
* `RakeLang.Cursor.advance`, `RakeLang.Cursor.seek` — reading a token, going to a position.
* `RakeLang.Cursor.splitSign?`, `RakeLang.Cursor.splitArrow?` — the splits.
* `RakeLang.Cursor.remaining` — the number of tokens ahead, each counted with the pieces that
  it can fall into.  No split changes it and reading a token lowers it, so that it bounds
  every reading.
-/

set_option relaxedAutoImplicit false
set_option autoImplicit false

namespace RakeLang

/-- A place in a list of tokens. -/
structure Cursor where
  /-- The tokens that have been read, the latest first. -/
  past : List Token
  /-- The tokens ahead, without the one that closes the list. -/
  ahead : List Token
  /-- The token at the end of the input. -/
  closing : Token
  closing_kind : closing.kind = .eof

namespace Cursor

/-- The cursor at the first token of a list.  A list without a token at its end that closes the
input gets one, just behind its last token. -/
def ofTokens (tokens : List Token) : Cursor :=
  match tokens.getLast? with
  | none => ⟨[], [], ⟨.eof, "", .origin⟩, rfl⟩
  | some last =>
    if h : last.kind = .eof then ⟨[], tokens.dropLast, last, h⟩
    else ⟨[], tokens, .closing last.span, rfl⟩

/-- All tokens, those that have been read and those ahead. -/
def tokens (c : Cursor) : List Token := c.past.reverse ++ c.ahead ++ [c.closing]

/-! ## Looking -/

/-- The token `n` places ahead; behind the last token there is only the end of the input. -/
def lookahead (c : Cursor) (n : Nat) : Token := (c.ahead.drop n).headD c.closing

/-- The token at the cursor. -/
def peek (c : Cursor) : Token := c.ahead.headD c.closing

/-- Does the token at the cursor end the input? -/
def atEnd (c : Cursor) : Bool := c.peek.kind == .eof

/-- How many tokens have been read. -/
def position (c : Cursor) : Nat := c.past.length

/-- The span of the token that was read last; of the token at the cursor if none was read. -/
def previousSpan (c : Cursor) : Span := (c.past.headD c.peek).span

/-- The number of tokens ahead, each counted with the pieces that it can fall into. -/
def remaining (c : Cursor) : Nat := Token.countPieces c.ahead

/-- Can a definition begin at the cursor?  The words `stack` and `single` also end the name of a
type, so they count only with the name of a type behind them. -/
def atDefinitionStart (c : Cursor) : Bool :=
  match c.peek.kind with
  | .keyword .stack | .keyword .single => (c.lookahead 1).kind == .typeIdent
  | kind => kind.opensDefinition

/-- Does the body of a definition end at the cursor? -/
def atDefinitionBoundary (c : Cursor) : Bool := c.atEnd || c.atDefinitionStart

/-! ## Moving -/

/-- The cursor behind the token that it stands at; the end of the input is never passed. -/
def advance (c : Cursor) : Cursor :=
  match c.ahead with
  | [] => c
  | t :: ts => { c with past := t :: c.past, ahead := ts }

/-- The cursor one token earlier. -/
def retreat (c : Cursor) : Cursor :=
  match c.past with
  | [] => c
  | t :: ts => { c with past := ts, ahead := t :: c.ahead }

/-- The cursor at the position `n`. -/
def seek (c : Cursor) (n : Nat) : Cursor :=
  if n ≤ c.position then Nat.repeat retreat (c.position - n) c
  else Nat.repeat advance (n - c.position) c

/-- The cursor at the next place where a definition can begin, or at the end of the input. -/
def skipToDefinition (c : Cursor) : Cursor :=
  let rec go : Nat → Cursor → Cursor
    | 0, c => c
    | n + 1, c => if c.atDefinitionBoundary then c else go n c.advance
  go c.ahead.length c

/-- Where reading goes on after a definition that began at the position `started` was refused:
at the next place where a definition can begin, past the token where the attempt began. -/
def recover (started : Nat) (c : Cursor) : Cursor :=
  if c.position = started ∨ c.atDefinitionStart = false then c.advance.skipToDefinition
  else c.skipToDefinition

/-! ## Splitting -/

/-- The cursor with the signed number that it stands at split into sign and number. -/
def splitSign? (c : Cursor) : Option Cursor :=
  match c.ahead with
  | [] => none
  | t :: ts => t.splitSign?.map fun (sign, number) => { c with ahead := sign :: number :: ts }

/-- The cursor with the left arrow that it stands at split. -/
def splitArrow? (c : Cursor) : Option Cursor :=
  (Token.splitArrow? c.ahead).map fun ahead => { c with ahead }

/-- The cursor behind an operand, with the token that it stands at split into an operator and
its operand: a minus sign that was read as the sign of a number, or a less-than sign that was
read as an arrow. -/
def splitInfix (c : Cursor) : Cursor :=
  (c.splitSign?.or c.splitArrow?).getD c

end Cursor

end RakeLang
