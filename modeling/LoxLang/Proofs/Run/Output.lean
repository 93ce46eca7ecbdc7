import LoxLang.Proofs.Run.Scopes

/-!
# What an execution prints

A sink without a limit takes everything, so an execution does not depend on what the sink holds already:
it ends the same way on the same chain, and what it prints goes behind what was held. `Appends` says this of
an execution, with one rule for each way in which executions are put together, and `Stmt.execAll_appends`
of every program. It also says that such an execution stops for the sake of the program only, never for the
sake of the sink.
-/

namespace LoxLang

namespace Sink

/-- The sink takes everything and can be flushed. -/
def Reliable (s : Sink) : Prop :=
  s.limit = none ∧ s.refusesFlush = false

/-- The sink with more bytes behind those it holds. -/
def append (s : Sink) (bytes : ByteArray) : Sink :=
  { s with held := s.held ++ bytes }

/-- A sink without limits takes everything. -/
theorem reliable_unlimited : unlimited.Reliable :=
  ⟨rfl, rfl⟩

/-- A sink that takes everything still does with more bytes in it. -/
theorem Reliable.append {s : Sink} (h : s.Reliable) (bytes : ByteArray) : (s.append bytes).Reliable :=
  h

/-- Adding no bytes leaves a sink as it is. -/
theorem append_empty (s : Sink) : s.append .empty = s := by
  rw [append, ByteArray.append_empty]

/-- Bytes that are added in two steps are added in one. -/
theorem append_append (s : Sink) (first second : ByteArray) :
    (s.append first).append second = s.append (first ++ second) := by
  simp only [append, ByteArray.append_assoc]

/-- A sink that takes everything takes what is written. -/
theorem Reliable.write_eq {s : Sink} (h : s.Reliable) (bytes : ByteArray) :
    s.write bytes = (.ok (), s.append bytes) := by
  have hfitting : s.fitting bytes.size = bytes.size := by rw [fitting, h.1]
  rw [write]
  exact if_pos hfitting

/-- A sink that takes everything can be flushed. -/
theorem Reliable.flush_eq {s : Sink} (h : s.Reliable) : s.flush = .ok () := by
  rw [flush, h.2]
  rfl

end Sink

/-- The execution stopped at an output fault. -/
def Completion.IsOutput : Completion → Prop
  | stopped (.output _) => True
  | _ => False

/-- On a sink that takes everything, the execution ends the same way on the same chain whatever the sink
holds, never at an output fault, and what it prints is added to the sink. -/
def Appends (run : Machine → Completion × Machine) : Prop :=
  ∀ c : Chain, ∃ completion d printed, ¬completion.IsOutput ∧
    ∀ sink : Sink, sink.Reliable → run ⟨c, sink⟩ = (completion, ⟨d, sink.append printed⟩)

section
variable {run : Machine → Completion × Machine}

/-- An execution that does not look at the sink prints nothing. -/
theorem appends_of_chain (completion : Completion) (h : ¬completion.IsOutput) (f : Chain → Chain) :
    Appends fun m => (completion, { m with chain := f m.chain }) := by
  refine fun c => ⟨completion, f c, .empty, h, fun sink _ => ?_⟩
  rw [sink.append_empty]

/-- Printing adds what is written for the value. -/
theorem appends_print (v : Value) : Appends (Machine.print v) := by
  refine fun c => ⟨.done, c, Machine.printed v, id, fun sink hsink => ?_⟩
  rw [Machine.print, hsink.write_eq]

/-- The rule for an evaluation, which prints nothing, and what goes on with its value. -/
theorem Appends.evalThen (e : Expr) {next : Value → Machine → Completion × Machine}
    (hnext : ∀ v, Appends (next v)) : Appends (Machine.evalThen e next) := by
  intro c
  rcases heval : e.eval c with ⟨fault | v, d⟩
  · refine ⟨.stopped (.runtime fault), d, .empty, id, fun sink _ => ?_⟩
    rw [Machine.evalThen_of_error heval, sink.append_empty]
  · obtain ⟨completion, d', printed, hcompletion, hrun⟩ := hnext v d
    refine ⟨completion, d', printed, hcompletion, fun sink hsink => ?_⟩
    rw [Machine.evalThen_of_ok heval]
    exact hrun sink hsink

/-- The rule for an execution and what follows if it completes: the second one prints behind the first. -/
theorem Appends.andThen {next : Machine → Completion × Machine} (h : Appends run)
    (hnext : Appends next) : Appends fun m => Completion.andThen next (run m) := by
  intro c
  obtain ⟨completion, d, printed, hcompletion, hrun⟩ := h c
  cases completion with
  | done =>
    obtain ⟨completion', d', printed', hcompletion', hrun'⟩ := hnext d
    refine ⟨completion', d', printed ++ printed', hcompletion', fun sink hsink => ?_⟩
    dsimp only
    rw [hrun sink hsink, Completion.andThen, hrun' _ (hsink.append printed), sink.append_append]
  | stopped | unfinished =>
    refine ⟨_, d, printed, hcompletion, fun sink hsink => ?_⟩
    dsimp only
    rw [hrun sink hsink, Completion.andThen]

/-- The rule for an execution in a scope of its own. -/
theorem Appends.scope (h : Appends run) :
    Appends fun m => ((run m.enter).1, (run m.enter).2.leave) := by
  intro c
  obtain ⟨completion, d, printed, hcompletion, hrun⟩ := h c.enter
  refine ⟨completion, d.leave, printed, hcompletion, fun sink hsink => ?_⟩
  dsimp only [Machine.enter]
  rw [hrun sink hsink, Machine.leave]

/-- The rule for a loop: every round prints behind those before it. -/
theorem Appends.loop (condition : Expr) (hbody : Appends run) (rounds : Nat) :
    Appends (Machine.loop condition run rounds) := by
  induction rounds with
  | zero => exact appends_of_chain .unfinished id id
  | succ rounds ih =>
    rw [funext (Machine.loop_succ condition run rounds)]
    refine Appends.evalThen condition fun v => ?_
    cases v.truthy with
    | true => exact hbody.andThen ih
    | false => exact appends_of_chain .done id id

end

namespace Stmt

/-- The rule for statements in a row. -/
theorem execAll_appends_of_forall {rounds : Nat} {body : List Stmt}
    (hbody : ∀ s ∈ body, Appends (s.exec rounds)) : Appends (execAll rounds body) := by
  induction body with
  | nil => exact appends_of_chain .done id id
  | cons s rest ih =>
    obtain ⟨hs, hrest⟩ := List.forall_mem_cons.1 hbody
    rw [funext (execAll_cons rounds s rest)]
    exact hs.andThen (ih hrest)

/-- Every statement prints the same whatever the sink holds, behind what it holds. -/
theorem exec_appends (rounds : Nat) (s : Stmt) : Appends (s.exec rounds) := by
  induction s using Stmt.recData with
  | expression e => exact Appends.evalThen e fun _ => appends_of_chain .done id id
  | print e => exact Appends.evalThen e appends_print
  | declare name initial =>
    rw [funext (exec_declare rounds name initial)]
    refine Appends.evalThen _ fun v => ?_
    exact appends_of_chain .done id (Chain.define name.lexeme v)
  | block body ih => exact (execAll_appends_of_forall ih).scope
  | ifThen condition yes ih =>
    refine Appends.evalThen condition fun v => ?_
    cases v.truthy with
    | true => exact ih
    | false => exact appends_of_chain .done id id
  | ifThenElse condition yes no ihyes ihno =>
    refine Appends.evalThen condition fun v => ?_
    cases v.truthy with
    | true => exact ihyes
    | false => exact ihno
  | whileLoop condition body ih => exact ih.loop condition rounds

/-- What a program prints on a sink that takes everything goes behind what the sink holds. -/
theorem execAll_appends (rounds : Nat) (body : List Stmt) : Appends (execAll rounds body) :=
  execAll_appends_of_forall fun s _ => exec_appends rounds s

end Stmt

end LoxLang
