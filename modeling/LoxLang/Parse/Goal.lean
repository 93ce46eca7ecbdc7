import LoxLang.Diagnostic
import LoxLang.Parse.Stmt

/-!
# Reading a token list more than once

A token list can be read as a program or as an expression, and again after that; each reading starts at
the first token. `Parse.readAll` reads one list for a series of goals and adds the faults of each reading
to the diagnostics found before.
-/

namespace LoxLang.Parse

/-- What a token list is read as. -/
inductive Goal where
  | program
  | expression
  deriving DecidableEq, Repr

/-- What a reading gives. -/
inductive Answer where
  | program (statements : List Stmt)
  | expression (e : Option Expr)

/-- Reads a token list for a goal. -/
def read (tokens : List Token) : Goal → Answer × List ParseFault
  | .program =>
    let (statements, reports) := program tokens
    (.program statements, reports)
  | .expression =>
    let (e, reports) := expression tokens
    (.expression e, reports)

/-- Reads a token list for one goal after the other. -/
def readAll (tokens : List Token) : List Goal → Diagnostics → List Answer × Diagnostics
  | [], found => ([], found)
  | goal :: goals, found =>
    let (answer, reports) := read tokens goal
    let (answers, found) := readAll tokens goals (found ++ reports.map ParseFault.diagnostic)
    (answer :: answers, found)

end LoxLang.Parse
