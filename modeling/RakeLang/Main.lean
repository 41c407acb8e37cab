import RakeLang.CommandLine

/-!
# The program

Reads the file that the arguments name, and writes what the command answers.
-/

set_option relaxedAutoImplicit false
set_option autoImplicit false

namespace RakeLang

/-- The content of a file, or the cause for which there is none. -/
def readContent (path : String) : IO (Except LoadFault ByteArray) := do
  try
    let bytes ← IO.FS.readBinFile path
    return .ok bytes
  catch
    | .noFileOrDirectory .. => return .error .missing
    | .inappropriateType .. => return .error .directory
    | fault => return .error (.refused 0 "Other" fault.toString)

end RakeLang

/-- Runs the command that the arguments give. -/
def main (args : List String) : IO UInt32 := do
  match RakeLang.Command.ofArgs? args with
  | none =>
    (← IO.getStderr).putStr "usage: rake-syntax (tokens FILE | parse FILE [--fail-fast] [-q])\n"
    return 2
  | some command =>
    let content ← match command.path? with
      | some path => RakeLang.readContent path
      | none => pure (.error .missing)
    let answer := command.run content
    (← IO.getStdout).putStr answer.stdout
    (← IO.getStderr).putStr answer.stderr
    return UInt32.ofNat answer.exit
