/-!
# Places and spans

A *place* is a position in a source text: the number of bytes before it, its line and its
column.  A *span* is the stretch of text between two places, with the line and the column of
its first character.  Offsets count bytes of the UTF-8 form of the text; columns count
characters.

## Main definitions

* `RakeLang.Place.next`, `RakeLang.Place.after` — the place behind a character, behind a text.
* `RakeLang.Span.between` — the span from one place to another.
* `RakeLang.Span.merge` — the smallest span that covers two spans.
-/

set_option relaxedAutoImplicit false
set_option autoImplicit false

namespace RakeLang

/-- A position in a source text. -/
structure Place where
  /-- The number of bytes before the position. -/
  offset : Nat
  /-- The line, counted from one. -/
  line : Nat
  /-- The column in characters, counted from one. -/
  column : Nat
  deriving DecidableEq, Repr

namespace Place

/-- The place of the first character of a text. -/
def start : Place := ⟨0, 1, 1⟩

/-- The place behind the character `c` that stands at `p`: a newline opens the next line, any
other character moves one column on. -/
def next (p : Place) (c : Char) : Place :=
  if c = '\n' then ⟨p.offset + c.utf8Size, p.line + 1, 1⟩
  else ⟨p.offset + c.utf8Size, p.line, p.column + 1⟩

/-- The place behind the text `cs` that begins at `p`. -/
def after (p : Place) (cs : List Char) : Place := cs.foldl next p

/-- Behind no text a place stays. -/
@[simp] theorem after_nil (p : Place) : p.after [] = p := rfl

/-- Behind a character and others. -/
@[simp] theorem after_cons (p : Place) (c : Char) (cs : List Char) :
    p.after (c :: cs) = (p.next c).after cs := rfl

/-- The place behind a text is found part by part. -/
theorem after_append (p : Place) (cs ds : List Char) :
    p.after (cs ++ ds) = (p.after cs).after ds := by
  simp [after]

end Place

/-- A stretch of a source text. -/
structure Span where
  /-- The line of the first character. -/
  line : Nat
  /-- The column of the first character. -/
  column : Nat
  /-- The number of bytes before the stretch. -/
  start : Nat
  /-- The number of bytes before its end. -/
  stop : Nat
  deriving DecidableEq, Repr

namespace Span

/-- The empty span at the beginning of a text. -/
def origin : Span := ⟨1, 1, 0, 0⟩

/-- The span at the start of the text. -/
instance : Inhabited Span := ⟨origin⟩

/-- The span from the place `p` to the place `q`. -/
def between (p q : Place) : Span := ⟨p.line, p.column, p.offset, q.offset⟩

/-- The smallest span that covers both; line and column are those of the span that starts
first, of the left one if they start together. -/
def merge (a b : Span) : Span :=
  let first := if a.start ≤ b.start then a else b
  ⟨first.line, first.column, first.start, max a.stop b.stop⟩

/-- The number of bytes covered. -/
def length (s : Span) : Nat := s.stop - s.start

/-- Does the span cover no byte? -/
def isEmpty (s : Span) : Bool := s.start == s.stop

/-- The part of a span that its first character, one byte wide, takes. -/
def firstByte (s : Span) : Span := ⟨s.line, s.column, s.start, s.start + 1⟩

/-- The part of a span behind its first character, one byte wide. -/
def afterFirstByte (s : Span) : Span := ⟨s.line, s.column + 1, s.start + 1, s.stop⟩

/-- The empty span just behind `s`, on the line of `s`. -/
def closing (s : Span) : Span := ⟨s.line, s.column + s.length, s.stop, s.stop⟩

/-- A span in a message: its line and its column. -/
def render (s : Span) : String := s!"{s.line}:{s.column}"

end Span

end RakeLang
