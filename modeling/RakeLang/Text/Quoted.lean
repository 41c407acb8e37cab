/-!
# Quoted text

Lexemes and names in the output of the command line stand between double quotes, with a
backslash before a quote and before a backslash.  All lexemes and names are printable ASCII
text, so no other character needs an escape.
-/

set_option relaxedAutoImplicit false
set_option autoImplicit false

namespace RakeLang.Text

/-- The written form of a text between the quotes. -/
def escape : List Char → List Char
  | [] => []
  | c :: cs => if c = '"' ∨ c = '\\' then '\\' :: c :: escape cs else c :: escape cs

/-- A text between double quotes. -/
def quote (text : String) : String :=
  String.ofList ('"' :: escape text.toList ++ ['"'])

/-- A text followed by blanks up to the given width. -/
def padRight (width : Nat) (text : String) : String :=
  text ++ String.ofList (List.replicate (width - text.length) ' ')

/-- A text behind blanks up to the given width. -/
def padLeft (width : Nat) (text : String) : String :=
  String.ofList (List.replicate (width - text.length) ' ') ++ text

end RakeLang.Text
