/-!
# White space

The characters that separate tokens without being part of one: those with the Unicode property
White_Space, unchanged since Unicode 6.3.

## Main definitions

* `RakeLang.Text.blankRanges` — the property as closed ranges of code points.
* `RakeLang.Text.isBlank` — membership in one of the ranges.
-/

set_option relaxedAutoImplicit false
set_option autoImplicit false

namespace RakeLang.Text

/-- The code points of white space as closed ranges, ascending and apart. -/
def blankRanges : List (Nat × Nat) :=
  [(0x09, 0x0D), (0x20, 0x20), (0x85, 0x85), (0xA0, 0xA0), (0x1680, 0x1680), (0x2000, 0x200A),
   (0x2028, 0x2029), (0x202F, 0x202F), (0x205F, 0x205F), (0x3000, 0x3000)]

/-- Is the character white space? -/
def isBlank (c : Char) : Bool :=
  blankRanges.any fun range => range.1 ≤ c.toNat && c.toNat ≤ range.2

/-- The table adds to the white space of the core library and takes nothing away. -/
theorem isBlank_of_isWhitespace (c : Char) (h : c.isWhitespace = true) : isBlank c = true := by
  simp [Char.isWhitespace] at h
  rcases h with ((h | h) | h) | h <;> subst h <;> decide

example : isBlank ' ' = true ∧ isBlank '\n' = true ∧ isBlank '~' = false := by decide

end RakeLang.Text
