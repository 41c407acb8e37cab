import RakeLang.Text.Quoted

/-!
# Outlines

An outline is the text of a tree, one node under the other: a node is a word, a record with named
fields, a variant with fields in order, or a sequence.  Every part of a node stands on lines of
its own, four blanks further in, with a comma behind it.

## Main definitions

* `RakeLang.Outline` — the nodes.
* `RakeLang.Outline.render` — the text.
-/

set_option relaxedAutoImplicit false
set_option autoImplicit false

namespace RakeLang

/-- A tree that is shown as text. -/
inductive Outline where
  | word (text : String)
  | record (name : String) (fields : List (String × Outline))
  | variant (name : String) (items : List Outline)
  | sequence (items : List Outline)

namespace Outline

/-- The blanks by which the parts of a node stand further in. -/
def indent : String := "    "

mutual

/-- The text of a node whose last line stands behind `margin`. -/
def renderAt (margin : String) : Outline → String
  | word text => text
  | record name fields =>
    name ++ " \x7b\n" ++ renderFields (margin ++ indent) fields ++ margin ++ "\x7d"
  | variant name items => name ++ "(\n" ++ renderItems (margin ++ indent) items ++ margin ++ ")"
  | sequence [] => "[]"
  | sequence (item :: items) =>
    "[\n" ++ renderItems (margin ++ indent) (item :: items) ++ margin ++ "]"

/-- The lines of the fields of a record. -/
def renderFields (margin : String) : List (String × Outline) → String
  | [] => ""
  | (name, value) :: fields =>
    margin ++ name ++ ": " ++ renderAt margin value ++ ",\n" ++ renderFields margin fields

/-- The lines of the items of a variant or of a sequence. -/
def renderItems (margin : String) : List Outline → String
  | [] => ""
  | item :: items => margin ++ renderAt margin item ++ ",\n" ++ renderItems margin items

end

/-- The text of a tree. -/
def render (tree : Outline) : String := renderAt "" tree

/-! ## Common nodes -/

/-- A text as a node. -/
def text (s : String) : Outline := word (Text.quote s)

/-- A natural number as a node. -/
def nat (n : Nat) : Outline := word (toString n)

/-- A truth value as a node. -/
def bool (b : Bool) : Outline := word (if b then "true" else "false")

/-- A part that may be missing. -/
def optional : Option Outline → Outline
  | none => word "None"
  | some part => variant "Some" [part]

end Outline

end RakeLang
