import LoxLang.Run.Eval
import LoxLang.Run.Sink

/-!
# Executing statements

A statement is executed on a machine, a chain of scopes and a sink. It completes, stops at a fault, or
is still unfinished when a loop has gone through the number of rounds that it was allowed; a greater
number never changes what a finished execution gives. A block runs in a scope of its own, which is gone
behind it however it ended.
-/

namespace LoxLang

/-- Where a program runs. -/
structure Machine where
  chain : Chain
  sink : Sink

/-- How an execution ended. -/
inductive Completion where
  | done
  | stopped (fault : RunFault)
  | unfinished
  deriving DecidableEq, Repr

namespace Machine

/-- Evaluates an expression on a machine. -/
def eval (e : Expr) (m : Machine) : Evaluated × Machine :=
  match m with
  | ⟨chain, sink⟩ =>
    match e.eval chain with
    | (value, chain) => (value, ⟨chain, sink⟩)

/-- What `print` writes for a value. -/
def printed (value : Value) : ByteArray :=
  (value.render ++ "\n").toUTF8

/-- Prints a value. -/
def print (value : Value) (m : Machine) : Completion × Machine :=
  match m with
  | ⟨chain, sink⟩ =>
    match sink.write (printed value) with
    | (.ok (), sink) => (.done, ⟨chain, sink⟩)
    | (.error cause, sink) => (.stopped (.output cause), ⟨chain, sink⟩)

/-- Binds a name in the innermost scope. -/
def define (name : Token) (value : Value) (m : Machine) : Machine :=
  { m with chain := m.chain.define name.lexeme value }

/-- The machine in a new scope. -/
def enter (m : Machine) : Machine :=
  { m with chain := m.chain.enter }

/-- The machine behind its innermost scope. -/
def leave (m : Machine) : Machine :=
  { m with chain := m.chain.leave }

/-- Evaluates an expression and goes on with its value. -/
def evalThen (e : Expr) (next : Value → Machine → Completion × Machine) (m : Machine) :
    Completion × Machine :=
  match m.eval e with
  | (.error fault, m) => (.stopped (.runtime fault), m)
  | (.ok value, m) => next value m

/-- Rounds of a loop, at most as many as the bound says. -/
def loop (condition : Expr) (body : Machine → Completion × Machine) :
    Nat → Machine → Completion × Machine
  | 0, m => (.unfinished, m)
  | rounds + 1, m =>
    match m.eval condition with
    | (.error fault, m) => (.stopped (.runtime fault), m)
    | (.ok value, m) =>
      if value.truthy then
        match body m with
        | (.done, m) => loop condition body rounds m
        | ended => ended
      else (.done, m)

end Machine

namespace Stmt

mutual

/-- Executes a statement, with at most `rounds` rounds for each execution of a loop. -/
def exec (rounds : Nat) : Stmt → Machine → Completion × Machine
  | expression e, m => m.evalThen e fun _ m => (.done, m)
  | print e, m => m.evalThen e Machine.print
  | declare name none, m => (.done, m.define name .null)
  | declare name (some e), m => m.evalThen e fun value m => (.done, m.define name value)
  | block body, m =>
    match execAll rounds body m.enter with
    | (completion, m) => (completion, m.leave)
  | ifThen condition yes, m =>
    m.evalThen condition fun value m => if value.truthy then exec rounds yes m else (.done, m)
  | ifThenElse condition yes no, m =>
    m.evalThen condition fun value m =>
      if value.truthy then exec rounds yes m else exec rounds no m
  | whileLoop condition body, m => Machine.loop condition (exec rounds body) rounds m

/-- Executes statements one after the other up to the first that does not complete. -/
def execAll (rounds : Nat) : List Stmt → Machine → Completion × Machine
  | [], m => (.done, m)
  | s :: rest, m =>
    match exec rounds s m with
    | (.done, m) => execAll rounds rest m
    | ended => ended

end

/-- Statements in a row are executed one list after the other. -/
theorem execAll_append (rounds : Nat) (first second : List Stmt) (m : Machine) :
    execAll rounds (first ++ second) m =
      match execAll rounds first m with
      | (.done, m) => execAll rounds second m
      | ended => ended := by
  induction first generalizing m with
  | nil => simp [execAll]
  | cons s rest ih =>
    simp only [List.cons_append, execAll]
    split
    · exact ih _
    · next h => split <;> simp_all

end Stmt

end LoxLang
