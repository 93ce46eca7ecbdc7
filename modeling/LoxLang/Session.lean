import LoxLang.Run.Exec
import LoxLang.Source

/-!
# Sessions

A session is what lasts from one unit of source to the next: the root scope and the sink. Nothing else
does, so a unit cannot leave a scope behind, however it ended. `Session.run` runs a unit as a program and
`Session.evaluate` as one expression; either way a static fault in the unit keeps it from being run at
all. The other operations do the same with trees.
-/

namespace LoxLang

/-- What lasts between units of source. -/
structure Session where
  globals : Scope
  sink : Sink

namespace Session

/-- A session that has not run anything yet. -/
def start (sink : Sink) : Session :=
  ⟨.empty, sink⟩

/-- The machine of a session at rest: its root scope is the innermost one. -/
def machine (s : Session) : Machine :=
  ⟨.root s.globals, s.sink⟩

/-- The session that a machine leaves behind. -/
def ofMachine (m : Machine) : Session :=
  ⟨m.chain.globals, m.sink⟩

/-- A number of rounds that no loop gets through. -/
def ampleRounds : Nat := Nat.pow 2 62

/-! ## Trees -/

/-- Evaluates an expression in the root scope. -/
def evaluateExpr (e : Expr) (s : Session) : Evaluated × Session :=
  match s.machine.eval e with
  | (value, m) => (value, ofMachine m)

/-- Executes a statement in the root scope. -/
def executeStmt (rounds : Nat) (stmt : Stmt) (s : Session) : Completion × Session :=
  match stmt.exec rounds s.machine with
  | (completion, m) => (completion, ofMachine m)

/-- Executes statements in a chain of scopes that is not connected with the root scope. -/
def executeIn (rounds : Nat) (chain : Chain) (body : List Stmt) (s : Session) :
    Completion × Session :=
  match Stmt.execAll rounds body ⟨chain, s.sink⟩ with
  | (completion, m) => (completion, { s with sink := m.sink })

/-- Executes statements in the root scope and, if all of them complete, flushes the sink. -/
def interpret (rounds : Nat) (program : List Stmt) (s : Session) : Completion × Session :=
  match Stmt.execAll rounds program s.machine with
  | (.done, m) =>
    match m.sink.flush with
    | .ok () => (.done, ofMachine m)
    | .error cause => (.stopped (.output cause), ofMachine m)
  | (ended, m) => (ended, ofMachine m)

/-! ## Source -/

/-- What a unit of source gave. -/
structure Report where
  diagnostics : Diagnostics
  /-- Whether the unit came to an end within the rounds it was allowed. -/
  finished : Bool
  session : Session

/-- Runs a unit of source as a program. -/
def run (rounds : Nat) (source : String) (s : Session) : Report :=
  let (program, diagnostics) := Source.program source
  if diagnostics.hasStatic then ⟨diagnostics, true, s⟩
  else
    match s.interpret rounds program with
    | (.done, s) => ⟨diagnostics, true, s⟩
    | (.stopped fault, s) => ⟨diagnostics ++ [fault.diagnostic], true, s⟩
    | (.unfinished, s) => ⟨diagnostics, false, s⟩

/-- Evaluates a unit of source as one expression. -/
def evaluate (source : String) (s : Session) : Option Value × Diagnostics × Session :=
  match Source.expression source with
  | (none, diagnostics) => (none, diagnostics, s)
  | (some e, diagnostics) =>
    if diagnostics.hasStatic then (none, diagnostics, s)
    else
      match s.evaluateExpr e with
      | (.ok value, s) => (some value, diagnostics, s)
      | (.error fault, s) => (none, diagnostics ++ [fault.diagnostic], s)

end Session

end LoxLang
