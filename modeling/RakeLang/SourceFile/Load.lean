import RakeLang.SourceFile.Parse

/-!
# Loading source files

A source file is a row of bytes that should be UTF-8 text.  A byte order mark is a character like
any other.

## Main definitions

* `RakeLang.LoadFault` — why a file gives no text.
* `RakeLang.loadText` — the text of a file.
* `RakeLang.parseFile` — reads a file.
-/

set_option relaxedAutoImplicit false
set_option autoImplicit false

namespace RakeLang

/-- Why a file gives no text. -/
inductive LoadFault where
  /-- The system refuses, with the number, the name and the text of its cause. -/
  | refused (code : Nat) (kind reason : String)
  /-- The bytes are no UTF-8 text. -/
  | notText
  deriving DecidableEq, Repr

namespace LoadFault

/-- There is no file of that name. -/
def missing : LoadFault := refused 2 "NotFound" "No such file or directory"

/-- The name is that of a directory. -/
def directory : LoadFault := refused 21 "IsADirectory" "Is a directory"

/-- The cause as a phrase. -/
def message : LoadFault → String
  | refused code _ reason => reason ++ " (os error " ++ toString code ++ ")"
  | notText => "stream did not contain valid UTF-8"

end LoadFault

/-- The text of a file, from its bytes or from the cause for which there are none. -/
def loadText (content : Except LoadFault ByteArray) : Except LoadFault String :=
  content.bind fun bytes =>
    match String.fromUTF8? bytes with
    | some text => .ok text
    | none => .error .notText

/-- Reads a file of the given name and content. -/
def parseFile (path : String) (content : Except LoadFault ByteArray) (mode : ErrorMode) :
    Except Fault Parsed :=
  match loadText content with
  | .ok text => .ok (parseSource path text mode)
  | .error fault => .error (.unreadable fault.message)

end RakeLang
