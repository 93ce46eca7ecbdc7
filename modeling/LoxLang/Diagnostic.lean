import LoxLang.Fault
import LoxLang.Parse.Basic
import LoxLang.Text.Utf8
import LoxLang.Token.Item

/-!
# Diagnostics

A diagnostic is what a user is told about a fault. The faults found before a run starts, lexical ones
and those of reading trees, are *static*: where there is one, nothing is run.
-/

namespace LoxLang

/-- What is said about a fault. -/
inductive Diagnostic where
  /-- A stretch of source that is no token. -/
  | lexical (line : Nat) (message : String)
  /-- A place where no tree can be read; the end of the source has no lexeme. -/
  | grammatical (line : Nat) (lexeme : Option String) (message : String)
  /-- An expression without a value. -/
  | runtime (line : Nat) (message : String)
  /-- Output that was not taken. -/
  | output (message : String)
  /-- Bytes that are no text. -/
  | encoding (fault : Utf8.Fault)
  deriving DecidableEq, Repr

namespace Diagnostic

/-- The line of a fault in source. -/
def line? : Diagnostic → Option Nat
  | lexical line _ | grammatical line _ _ | runtime line _ => some line
  | output _ | encoding _ => none

/-- How a message points at a lexeme, or at the end. -/
def place : Option String → String
  | some lexeme => " at '" ++ lexeme ++ "'"
  | none => " at end"

/-- The place of a fault among the tokens. -/
def location? : Diagnostic → Option String
  | grammatical _ lexeme _ => some (place lexeme)
  | _ => none

/-- What is wrong, without the place. -/
def message : Diagnostic → String
  | lexical _ message | grammatical _ _ message | runtime _ message | output message => message
  | encoding fault => fault.message

/-- The full text. -/
def render : Diagnostic → String
  | lexical line message => "[line " ++ toString line ++ "] Error: " ++ message
  | grammatical line lexeme message =>
    "[line " ++ toString line ++ "] Error" ++ place lexeme ++ ": " ++ message
  | runtime line message => message ++ "\n[line " ++ toString line ++ "]"
  | output message => message
  | encoding fault => fault.message

/-- Whether the fault was found before a run started. -/
def isStatic : Diagnostic → Bool
  | lexical .. | grammatical .. => true
  | _ => false

end Diagnostic

/-- What is said about a lexical fault. -/
def LexicalFault.diagnostic (f : LexicalFault) : Diagnostic :=
  .lexical f.line f.cause.message

/-- What is said about a fault in reading trees: its place is that of the blamed token. -/
def ParseFault.diagnostic (f : ParseFault) : Diagnostic :=
  .grammatical f.token.line f.token.quotable? f.cause.message

/-- What is said about an expression without a value. -/
def RuntimeFault.diagnostic (f : RuntimeFault) : Diagnostic :=
  .runtime f.line f.cause.message

/-- What is said about a run that stopped. -/
def RunFault.diagnostic : RunFault → Diagnostic
  | runtime fault => fault.diagnostic
  | output cause => .output cause.message

/-- Diagnostics in the order in which they were found. -/
abbrev Diagnostics := List Diagnostic

namespace Diagnostics

/-- Whether a fault was found before a run started. -/
def hasStatic (ds : Diagnostics) : Bool :=
  ds.any Diagnostic.isStatic

/-- Whether a fault arose in a run. -/
def hasRun (ds : Diagnostics) : Bool :=
  ds.any (!·.isStatic)

/-- The full texts, a line for each. -/
def render (ds : Diagnostics) : String :=
  String.join (ds.map fun d => d.render ++ "\n")

end Diagnostics

end LoxLang
