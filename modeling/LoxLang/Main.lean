import LoxLang.Command.Perform

/-!
# The command line

Reads the file or the typed lines that a command is about, and writes what the command gives.
-/

namespace LoxLang

open Command

/-- What is found under the name of a file. -/
def readFileState (name : String) : IO FileState := do
  try
    return .holds (← IO.FS.readBinFile name)
  catch error =>
    match error with
    | .inappropriateType _ 21 _ => return .unreadable .directory
    | .inappropriateType .. => return .unreadable .notDirectory
    | .invalidArgument .. => return .unreadable .nameTooLong
    | _ => return .unreadable .missing

/-- Writes a result and gives its exit status. -/
def writeResult (result : Result) : IO UInt32 := do
  let out ← IO.getStdout
  out.write result.out
  out.flush
  IO.eprint result.err
  return result.exit.toUInt32

/-- The bytes up to and with the next newline, or up to the end. -/
partial def readTypedLine (input : IO.FS.Stream) (line : ByteArray) : IO ByteArray := do
  let next ← input.read 1
  if next.isEmpty then return line
  let line := line ++ next
  if next.toList = [10] then return line else readTypedLine input line

/-- Answers typed lines until there are no more. -/
partial def answerLines (globals : Scope) : IO UInt32 := do
  let out ← IO.getStdout
  IO.print promptMark
  out.flush
  let bytes ← readTypedLine (← IO.getStdin) .empty
  match typedLines [] bytes.toList with
  | [] => IO.println ""; return 0
  | line :: _ =>
    match Utf8.decode ⟨line.toArray⟩ with
    | .error _ => writeResult promptFailure
    | .ok text =>
      let (written, ds, globals) := promptLine Session.ampleRounds globals text
      let _ ← writeResult ⟨0, written, ds.render⟩
      answerLines globals

end LoxLang

open LoxLang in
/-- The program: performs what its arguments ask for. -/
def main (arguments : List String) : IO UInt32 := do
  match Command.ofArguments? arguments with
  | none => writeResult .usage
  | some .prompt => answerLines .empty
  | some command =>
    let file ← match command.file? with
      | some name => readFileState name
      | none => pure (.unreadable .missing)
    writeResult (command.perform Session.ampleRounds file .empty)
