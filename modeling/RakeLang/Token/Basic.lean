import RakeLang.Span
import RakeLang.Token.Kind

/-!
# Tokens

A token is a kind, the text it was read from and the span of that text.  Two tokens can fall
into smaller ones where the grammar asks for it: a number with a sign becomes a minus sign and
a number, a left arrow becomes a less-than sign and a minus sign.

## Main definitions

* `RakeLang.Token` — kind, lexeme and span.
* `RakeLang.Token.splitSign?` — a signed number as sign and number.
* `RakeLang.Token.splitArrow?` — the left arrow at the head of a list of tokens as a
  less-than sign and a minus sign, the latter joined with an adjacent number.
* `RakeLang.Token.pieces`, `RakeLang.Token.countPieces` — how many tokens a token or a list of
  tokens can fall into.
-/

set_option relaxedAutoImplicit false
set_option autoImplicit false

namespace RakeLang

/-- A token of a source text. -/
structure Token where
  kind : Kind
  /-- The text of the token. -/
  lexeme : String
  /-- Where the text stands. -/
  span : Span
  deriving DecidableEq, Repr

namespace Token

/-- The token that closes a list of tokens, just behind the span of the last one. -/
def closing (last : Span) : Token := ⟨.eof, "", last.closing⟩

/-- What a message says that it found: the text of the token, or the end of the input. -/
def found (t : Token) : String :=
  if t.kind = .eof then "end of input" else "`" ++ t.lexeme ++ "`"

/-- Does the text begin with a minus sign? -/
def hasSign (t : Token) : Bool := t.lexeme.toList.head? == some '-'

/-- Is this a number whose text begins with a minus sign? -/
def isSignedNumber (t : Token) : Bool := t.kind.isNumber && t.hasSign

/-- The minus sign at the given span. -/
def minusAt (span : Span) : Token := ⟨.symbol .minus, "-", span⟩

/-- The less-than sign at the given span. -/
def lessAt (span : Span) : Token := ⟨.symbol .less, "<", span⟩

/-- The number without the first character of its text. -/
def withoutSign (t : Token) : Token :=
  ⟨t.kind, String.ofList (t.lexeme.toList.drop 1), t.span.afterFirstByte⟩

/-- A signed number as a minus sign and a number; nothing for any other token. -/
def splitSign? (t : Token) : Option (Token × Token) :=
  if t.isSignedNumber then some (minusAt t.span.firstByte, t.withoutSign) else none

/-- Does `next` begin where `arrow` ends, and is it a number without a sign?  Then the minus
sign of the arrow becomes the sign of the number. -/
def joinsArrow (arrow next : Token) : Bool :=
  next.kind.isNumber && next.span.start == arrow.span.stop && !next.hasSign

/-- The number `next` with the minus sign of `arrow` in front. -/
def joined (arrow next : Token) : Token :=
  ⟨next.kind, "-" ++ next.lexeme, arrow.span.afterFirstByte.merge next.span⟩

/-- A left arrow at the head of a list of tokens as a less-than sign and a minus sign, where
the minus sign joins a number without a sign that directly follows; nothing if the head is no
left arrow. -/
def splitArrow? : List Token → Option (List Token)
  | [] => none
  | arrow :: rest =>
    if arrow.kind = .symbol .leftArrow then
      let less := lessAt arrow.span.firstByte
      let minus := minusAt arrow.span.afterFirstByte
      match rest with
      | [] => some [less, minus]
      | next :: more =>
        if joinsArrow arrow next then some (less :: joined arrow next :: more)
        else some (less :: minus :: next :: more)
    else none

/-- How many tokens this one can fall into: a left arrow is two signs, a number can lose each
minus sign before its digits. -/
def pieces (t : Token) : Nat :=
  match t.kind with
  | .symbol .leftArrow => 2
  | .int | .float => (t.lexeme.toList.takeWhile (· == '-')).length + 1
  | _ => 1

/-- A token has a piece at least: itself. -/
theorem one_le_pieces (t : Token) : 1 ≤ t.pieces := by
  unfold pieces
  split <;> omega

/-- How many tokens a list of tokens can fall into. -/
def countPieces : List Token → Nat
  | [] => 0
  | t :: ts => t.pieces + countPieces ts

/-- No tokens have no pieces. -/
@[simp] theorem countPieces_nil : countPieces [] = 0 := rfl

/-- The pieces of a token and of others. -/
@[simp] theorem countPieces_cons (t : Token) (ts : List Token) :
    countPieces (t :: ts) = t.pieces + countPieces ts := rfl

/-- Pieces are counted part by part. -/
@[simp] theorem countPieces_append (ts us : List Token) :
    countPieces (ts ++ us) = countPieces ts + countPieces us := by
  induction ts with
  | nil => simp
  | cons t ts ih =>
    rw [List.cons_append, countPieces_cons, countPieces_cons, ih, Nat.add_assoc]

end Token

end RakeLang
