/-!
# Commands and their arguments

`Command.ofArguments?` reads the arguments of the command line. Flags may stand before and behind the
name of a command and among its operands, each once in either place; `--` ends them. Whatever does not
fit is no command at all.
-/

namespace LoxLang

/-- What the command line asks for. -/
inductive Command where
  | version
  | tokenize (file : String) (json : Bool)
  | parse (file : String) (json : Bool)
  | evaluate (file : String)
  | run (file : String)
  | prompt
  deriving DecidableEq, Repr

namespace Command

/-- The named commands. -/
inductive Verb where
  | tokenize | parse | evaluate | run | repl
  deriving DecidableEq, Repr

/-- The command of a name. -/
def Verb.ofName? (name : String) : Option Verb :=
  if name = "tokenize" then some .tokenize
  else if name = "parse" then some .parse
  else if name = "evaluate" then some .evaluate
  else if name = "run" then some .run
  else if name = "repl" then some .repl
  else none

/-- Whether a command can answer with a JSON document. -/
def Verb.takesJson : Verb → Bool
  | tokenize | parse => true
  | _ => false

/-- What stands behind the name of a command. -/
structure Operands where
  files : List String
  json : Bool
  log : Bool
  deriving DecidableEq, Repr

/-- Whether an argument has the form of a flag; a lone hyphen has not. -/
def isFlag (argument : String) : Bool :=
  match argument.toList with
  | '-' :: _ :: _ => true
  | _ => false

/-- Adds the arguments behind the name of a command to the operands found so far. -/
def operands? (verb : Verb) : Operands → List String → Option Operands
  | found, [] => some found
  | found, argument :: rest =>
    if argument = "--" then some { found with files := found.files ++ rest }
    else if argument = "--log" then
      if found.log then none else operands? verb { found with log := true } rest
    else if argument = "--json" ∧ verb.takesJson then
      if found.json then none else operands? verb { found with json := true } rest
    else if isFlag argument then none
    else operands? verb { found with files := found.files ++ [argument] } rest

/-- The command of a name and its operands: every command but the prompt is about one file. -/
def ofOperands? (verb : Verb) (found : Operands) : Option Command :=
  match verb, found.files with
  | .repl, [] => some .prompt
  | .repl, _ => none
  | _, [""] => none
  | .tokenize, [file] => some (tokenize file found.json)
  | .parse, [file] => some (parse file found.json)
  | .evaluate, [file] => some (evaluate file)
  | .run, [file] => some (run file)
  | _, _ => none

/-- Whether an argument asks for the version; letters behind the short form are not looked at. -/
def asksVersion (argument : String) : Bool :=
  argument == "--version" ||
    match argument.toList with
    | '-' :: 'V' :: _ => true
    | _ => false

/-- The command of arguments of which `log` says whether the logging flag was among those before. -/
def ofArgumentsAfter? (log : Bool) : List String → Option Command
  | [] => some prompt
  | argument :: rest =>
    if asksVersion argument then some version
    else if argument = "--" then if rest.isEmpty then some prompt else none
    else if argument = "--log" then if log then none else ofArgumentsAfter? true rest
    else if isFlag argument then none
    else do
      let verb ← Verb.ofName? argument
      let found ← operands? verb ⟨[], false, false⟩ rest
      ofOperands? verb found

/-- The command of a command line. -/
def ofArguments? (arguments : List String) : Option Command :=
  ofArgumentsAfter? false arguments

/-- The file that a command is about. -/
def file? : Command → Option String
  | tokenize file _ | parse file _ | evaluate file | run file => some file
  | version | prompt => none

end Command

end LoxLang
