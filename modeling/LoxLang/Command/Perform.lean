import LoxLang.Command.Basic
import LoxLang.Session
import LoxLang.Text.Quoted
import LoxLang.Tree.Render

/-!
# Performing commands

What a command writes and how it ends, given what the file it is about holds or, for the prompt, what is
typed. The exit status is 0, 65 after a static fault, 70 after a fault of a run, 1 if there is nothing to
work on, and 2 if the command line makes no sense.
-/

namespace LoxLang

/-- Why there is nothing to read under a name. -/
inductive FileCause where
  /-- There is nothing of that name. -/
  | missing
  /-- The name leads through something that is no directory. -/
  | notDirectory
  /-- The name is that of a directory. -/
  | directory
  /-- The name, or a part of it, is longer than names can be. -/
  | nameTooLong
  deriving DecidableEq, Repr

/-- The text of a cause, with the number the system gives it. -/
def FileCause.message : FileCause → String
  | missing => "No such file or directory (os error 2)"
  | notDirectory => "Not a directory (os error 20)"
  | directory => "Is a directory (os error 21)"
  | nameTooLong => "File name too long (os error 36)"

/-- What is found under the name of a file. -/
inductive FileState where
  | holds (bytes : ByteArray)
  | unreadable (cause : FileCause)

namespace Command

/-- How a command ended and what it wrote on its two channels. -/
structure Result where
  exit : Nat
  out : ByteArray
  err : String

/-- What is said of a command line that makes no sense. -/
def Result.usage : Result := ⟨2, .empty, "usage"⟩

/-- What is said when there is nothing to work on, and why. -/
def Result.failure (context cause : String) : Result :=
  ⟨1, .empty, "Error: " ++ context ++ "\n\nCaused by:\n    " ++ cause ++ "\n"⟩

/-- The exit status after diagnostics. -/
def exitStatus (ds : Diagnostics) : Nat :=
  if ds.hasStatic then 65 else if ds.hasRun then 70 else 0

/-- Texts with a line for each. -/
def lines (texts : List String) : String :=
  String.join (texts.map (· ++ "\n"))

/-- The result of writing a text and reporting diagnostics. -/
def Result.ofText (text : String) (ds : Diagnostics) : Result :=
  ⟨exitStatus ds, text.toUTF8, ds.render⟩

/-! ## Listing tokens -/

/-- A listing under way: what it has written on the two channels, the tokens it keeps for a document, and
the diagnostics so far. -/
structure Listing where
  out : String
  err : String
  kept : Array Token
  diagnostics : Diagnostics

namespace Listing

/-- A listing that has not met an item yet. -/
def blank : Listing := ⟨"", "", #[], []⟩

/-- Lists an item. A token is written, or kept if a document is asked for; a fault is told at once. -/
def add (json : Bool) (l : Listing) : Item → Listing
  | .token t =>
    if json then { l with kept := l.kept.push t } else { l with out := l.out ++ (t.render ++ "\n") }
  | .fault f =>
    { l with
      err := l.err ++ (f.diagnostic.render ++ "\n")
      diagnostics := l.diagnostics ++ [f.diagnostic] }

/-- The result of a listing that has met all items; the document, if there is to be one, comes last. -/
def result (json : Bool) (l : Listing) : Result :=
  let document :=
    if json then lines [(Json.array (l.kept.toList.map Token.toJson)).indented] else ""
  ⟨exitStatus l.diagnostics, (l.out ++ document).toUTF8, l.err⟩

end Listing

/-! ## Commands about a source -/

/-- Lists the tokens of a source, item by item. -/
def tokenizeSource (json : Bool) (source : String) : Result :=
  ((Source.items source).foldl (Listing.add json) .blank).result json

/-- Shows the trees of a source without static faults. -/
def parseSource (json : Bool) (source : String) : Result :=
  let (statements, ds) := Source.program source
  let text :=
    if ds.hasStatic then ""
    else if json then lines [(Json.array (statements.map Stmt.toJson)).indented]
    else lines (statements.map Stmt.render)
  .ofText text ds

/-- Shows the value of a source that is one expression. -/
def evaluateSource (source : String) : Result :=
  let (value, ds, _) := (Session.start .unlimited).evaluate source
  .ofText (lines (value.toList.map Value.render)) ds

/-- Runs a source. -/
def runSource (rounds : Nat) (source : String) : Result :=
  let report := (Session.start .unlimited).run rounds source
  ⟨exitStatus report.diagnostics, report.session.sink.held, report.diagnostics.render⟩

/-- Does something with the text of a file. -/
def withSource (name : String) (file : FileState) (use : String → Result) : Result :=
  match file with
  | .unreadable cause => .failure ("Failed to read file " ++ Text.quoted name) cause.message
  | .holds bytes =>
    match Utf8.decode bytes with
    | .ok source => use source
    | .error fault => .failure ("File " ++ Text.quoted name ++ " is not valid UTF-8") fault.message

/-! ## The prompt -/

/-- What stands before each line that is typed. -/
def promptMark : String := "> "

/-- The lines of what is typed. Each is a list of bytes; its end, a newline or a carriage return and a
newline, is not part of it. -/
def typedLines (line : List UInt8) : List UInt8 → List (List UInt8)
  | [] => if line.isEmpty then [] else [line.reverse]
  | 10 :: rest =>
    let line := match line with
      | 13 :: before => before
      | _ => line
    line.reverse :: typedLines [] rest
  | b :: rest => typedLines (b :: line) rest

/-- What a typed line writes, its diagnostics, and the root scope behind it. -/
def promptLine (rounds : Nat) (globals : Scope) (line : String) : ByteArray × Diagnostics × Scope :=
  let report := Session.run rounds line ⟨globals, .unlimited⟩
  (report.session.sink.held, report.diagnostics, report.session.globals)

/-- What is said of a typed line that is no text. -/
def promptFailure : Result :=
  .failure "Failed to read from stdin" "stream did not contain valid UTF-8"

/-- The prompt over the lines that are typed; each is a unit of its own in one session. -/
def promptLines (rounds : Nat) (globals : Scope) : List (List UInt8) → Result
  | [] => ⟨0, (promptMark ++ "\n").toUTF8, ""⟩
  | line :: rest =>
    match Utf8.decode ⟨line.toArray⟩ with
    | .error _ => { promptFailure with out := promptMark.toUTF8 }
    | .ok text =>
      let (out, ds, globals) := promptLine rounds globals text
      let others := promptLines rounds globals rest
      ⟨others.exit, promptMark.toUTF8 ++ out ++ others.out, ds.render ++ others.err⟩

/-! ## All commands -/

/-- Performs a command, given what its file is and what is typed. -/
def perform (rounds : Nat) (file : FileState) (typed : ByteArray) : Command → Result
  | version => .ofText "lox 0.1.0\n" []
  | tokenize name json => withSource name file (tokenizeSource json)
  | parse name json => withSource name file (parseSource json)
  | evaluate name => withSource name file evaluateSource
  | run name => withSource name file (runSource rounds)
  | prompt => promptLines rounds .empty (typedLines [] typed.toList)

/-- Performs a command line, given the files and what is typed. -/
def performArguments (rounds : Nat) (files : String → FileState) (typed : ByteArray)
    (arguments : List String) : Result :=
  match ofArguments? arguments with
  | none => .usage
  | some command => command.perform rounds ((command.file?.map files).getD (.unreadable .missing)) typed

end Command

end LoxLang
