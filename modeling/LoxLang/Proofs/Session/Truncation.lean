import LoxLang.Proofs.Session.Units

/-!
# Runs on a sink with a limit

A sink with a limit stops a run at the print that it has no room for. Up to that print the run is the one on
a sink that takes everything, and nothing of what would follow is done: `interpret_limited` says what is
held, how the run ends and what the root scope binds.

To speak of the moment at which a run stops, the prints of a run are listed (`Stmt.printings`), each with the
machine it was executed on. `Truncates` compares an execution on the two sinks by its list of prints, with
one rule for each way in which executions are put together. Either all of the prints fit, and the two
executions end alike; or one of them crosses the limit, and the execution with a limit is over there.
-/

namespace LoxLang

/-! ## The prints of an execution -/

/-- A print: the value, and the machine it is printed on. -/
structure Printing where
  machine : Machine
  value : Value

namespace Printing

/-- What prints write, one after the other. -/
def output : List Printing → ByteArray
  | [] => .empty
  | p :: rest => Machine.printed p.value ++ output rest

/-- Prints in a row write one after the other. -/
theorem output_append (first second : List Printing) :
    output (first ++ second) = output first ++ output second := by
  induction first with
  | nil => exact ByteArray.empty_append.symm
  | cons p rest ih => rw [List.cons_append, output, output, ih, ByteArray.append_assoc]

/-- The prints of what follows the evaluation of an expression. -/
def evalThen (e : Expr) (next : Value → Machine → List Printing) (m : Machine) : List Printing :=
  match m.eval e with
  | (.error _, _) => []
  | (.ok value, m) => next value m

/-- An evaluation with nothing to print behind it prints nothing. -/
theorem evalThen_nil (e : Expr) : (evalThen e fun _ _ => []) = fun _ => [] := by
  funext m
  rw [evalThen]
  split <;> rfl

/-- The prints of what follows an execution that completed. -/
def behind (next : Machine → List Printing) : Completion × Machine → List Printing
  | (.done, m) => next m
  | (.stopped _, _) | (.unfinished, _) => []

/-- The prints of the rounds of a loop, given a round and its prints. -/
def loop (condition : Expr) (body : Machine → Completion × Machine)
    (printings : Machine → List Printing) : Nat → Machine → List Printing
  | 0, _ => []
  | rounds + 1, m =>
    evalThen condition
      (fun v m =>
        if v.truthy then printings m ++ behind (loop condition body printings rounds) (body m) else [])
      m

end Printing

namespace Stmt

mutual

/-- The prints of an execution, in their order. -/
def printings (rounds : Nat) : Stmt → Machine → List Printing
  | expression _, _ => []
  | print e, m => Printing.evalThen e (fun v m => [⟨m, v⟩]) m
  | declare _ _, _ => []
  | block body, m => printingsAll rounds body m.enter
  | ifThen condition yes, m =>
    Printing.evalThen condition (fun v m => if v.truthy then printings rounds yes m else []) m
  | ifThenElse condition yes no, m =>
    Printing.evalThen condition
      (fun v m => if v.truthy then printings rounds yes m else printings rounds no m) m
  | whileLoop condition body, m =>
    Printing.loop condition (exec rounds body) (printings rounds body) rounds m

/-- The prints of statements that are executed one after the other. -/
def printingsAll (rounds : Nat) : List Stmt → Machine → List Printing
  | [], _ => []
  | s :: rest, m =>
    printings rounds s m ++ Printing.behind (printingsAll rounds rest) (exec rounds s m)

end

end Stmt

/-! ## Sinks with and without a limit -/

namespace Sink

/-- A sink that can be flushed, with the limit and the bytes given. -/
def holding (limit : Option Nat) (held : ByteArray) : Sink :=
  ⟨held, limit, false⟩

/-- A sink without a limit takes what is written behind what it holds. -/
theorem write_unlimited (held bytes : ByteArray) :
    (holding none held).write bytes = (.ok (), holding none (held ++ bytes)) :=
  if_pos rfl

/-- What fits is taken. -/
theorem write_of_le {n : Nat} {held bytes : ByteArray} (h : (held ++ bytes).size ≤ n) :
    (holding (some n) held).write bytes = (.ok (), holding (some n) (held ++ bytes)) := by
  have hfitting : (holding (some n) held).fitting bytes.size = bytes.size := by
    rw [ByteArray.size_append] at h
    exact Nat.min_eq_left (Nat.le_sub_of_add_le (Nat.add_comm _ _ ▸ h))
  rw [write]
  exact if_pos hfitting

/-- Of what does not fit the first bytes are taken, up to the limit. -/
theorem write_of_lt {n : Nat} {held bytes : ByteArray} (hheld : held.size ≤ n)
    (h : n < (held ++ bytes).size) :
    (holding (some n) held).write bytes =
      (.error .full, holding (some n) ((held ++ bytes).extract 0 n)) := by
  rw [ByteArray.size_append] at h
  have hroom : n - held.size < bytes.size := by omega
  have hfitting : (holding (some n) held).fitting bytes.size = n - held.size :=
    Nat.min_eq_right (Nat.le_of_lt hroom)
  have hextract : (held ++ bytes).extract 0 n = held ++ bytes.extract 0 (n - held.size) := by
    have hall : held.extract 0 n = held := by
      rw [← Nat.max_eq_left hheld, ByteArray.extract_zero_max_size]
    rw [ByteArray.extract_append, hall, Nat.zero_sub]
  rw [write, hfitting, hextract]
  exact if_neg (Nat.ne_of_lt hroom)

end Sink

/-- Bytes behind the limit do not change what is held up to it. -/
theorem extract_append_of_le {n : Nat} {a : ByteArray} (b : ByteArray) (h : n ≤ a.size) :
    (a ++ b).extract 0 n = a.extract 0 n := by
  rw [ByteArray.extract_append, Nat.zero_sub, Nat.sub_eq_zero_of_le h, ByteArray.extract_same,
    ByteArray.append_empty]

/-! ## Executions with and without a limit -/

/-- The print among others that crosses the limit, if what is held before them fits. -/
structure Crosses (n : Nat) (held : ByteArray) (printings : List Printing) (p : Printing) : Prop where
  split : ∃ before after, printings = before ++ p :: after ∧
    p.machine.sink = .holding none (held ++ Printing.output before)
  before_le : p.machine.sink.held.size ≤ n
  lt_behind : n < (p.machine.sink.held ++ Machine.printed p.value).size

/-- How an execution with a limit ends, given the prints of the one without and how that one ended. -/
structure Truncated (n : Nat) (held : ByteArray) (printings : List Printing)
    (full limited : Completion × Machine) : Prop where
  fits : (held ++ Printing.output printings).size ≤ n →
    limited = (full.1, ⟨full.2.chain, .holding (some n) (held ++ Printing.output printings)⟩)
  overflows : n < (held ++ Printing.output printings).size →
    limited.1 = .stopped (.output .full) ∧
      limited.2.sink = .holding (some n) ((held ++ Printing.output printings).extract 0 n) ∧
      ∃ p, Crosses n held printings p ∧ limited.2.chain.globals = p.machine.chain.globals

/-- The prints are those of the execution, and with a limit it is cut off at the one that crosses the
limit. -/
structure Truncates (n : Nat) (run : Machine → Completion × Machine)
    (printings : Machine → List Printing) : Prop where
  output : ∀ (c : Chain) (held : ByteArray),
    (run ⟨c, .holding none held⟩).2.sink =
      .holding none (held ++ Printing.output (printings ⟨c, .holding none held⟩))
  truncated : ∀ (c : Chain) (held : ByteArray), held.size ≤ n →
    Truncated n held (printings ⟨c, .holding none held⟩) (run ⟨c, .holding none held⟩)
      (run ⟨c, .holding (some n) held⟩)

section
variable {n : Nat} {held : ByteArray} {full limited : Completion × Machine}

/-- The print that crosses the limit still does with more prints behind it. -/
theorem Crosses.append {printings : List Printing} {p : Printing} (h : Crosses n held printings p)
    (more : List Printing) : Crosses n held (printings ++ more) p := by
  obtain ⟨⟨before, after, rfl, hsink⟩, hbefore, hbehind⟩ := h
  exact ⟨⟨before, after ++ more, by simp, hsink⟩, hbefore, hbehind⟩

/-- A print that crosses the limit among the second of two lists of prints does so among both. -/
theorem Crosses.behind {first second : List Printing} {p : Printing}
    (h : Crosses n (held ++ Printing.output first) second p) : Crosses n held (first ++ second) p := by
  obtain ⟨⟨before, after, rfl, hsink⟩, hbefore, hbehind⟩ := h
  refine ⟨⟨first ++ before, after, by simp, ?_⟩, hbefore, hbehind⟩
  rw [hsink, Printing.output_append, ByteArray.append_assoc]

/-- Only one print crosses the limit: those before it fit, and those behind it follow bytes that do not. -/
theorem Crosses.unique {printings : List Printing} {p q : Printing} (hp : Crosses n held printings p)
    (hq : Crosses n held printings q) : p = q := by
  have hbefore {before more : List Printing} {p q : Printing}
      (hp : p.machine.sink = .holding none (held ++ Printing.output before))
      (hlt : n < (p.machine.sink.held ++ Machine.printed p.value).size)
      (hq : q.machine.sink = .holding none (held ++ Printing.output (before ++ p :: more)))
      (hle : q.machine.sink.held.size ≤ n) : False := by
    rw [hp] at hlt
    rw [hq] at hle
    simp only [Sink.holding, Printing.output_append, Printing.output, ByteArray.size_append] at hlt hle
    omega
  obtain ⟨⟨before, after, rfl, hsink⟩, hle, hlt⟩ := hp
  obtain ⟨⟨before', after', heq, hsink'⟩, hle', hlt'⟩ := hq
  rcases List.append_eq_append_iff.1 heq with ⟨more, rfl, htail⟩ | ⟨more, rfl, htail⟩
  · cases more with
    | nil => exact (List.cons.inj htail).1
    | cons r more =>
      obtain ⟨rfl, -⟩ := List.cons.inj htail
      exact (hbefore hsink hlt hsink' hle').elim
  · cases more with
    | nil => exact (List.cons.inj htail).1.symm
    | cons r more =>
      obtain ⟨rfl, -⟩ := List.cons.inj htail
      exact (hbefore hsink' hlt' hsink hle).elim

/-- What is cut off at one of the first prints stays so with more prints behind them. -/
theorem Truncated.append {first : List Printing} (h : Truncated n held first full limited)
    (hlt : n < (held ++ Printing.output first).size) (second : List Printing)
    (full' : Completion × Machine) : Truncated n held (first ++ second) full' limited := by
  have houtput : held ++ Printing.output (first ++ second) =
      held ++ Printing.output first ++ Printing.output second := by
    rw [Printing.output_append, ByteArray.append_assoc]
  obtain ⟨hcompletion, hsink, p, hcrosses, hglobals⟩ := h.overflows hlt
  refine ⟨fun hle => ?_, fun _ => ⟨hcompletion, ?_, p, hcrosses.append second, hglobals⟩⟩
  · rw [houtput, ByteArray.size_append] at hle
    omega
  · rw [hsink, houtput, extract_append_of_le _ (Nat.le_of_lt hlt)]

/-- What is cut off behind the first prints is cut off when they are counted in. -/
theorem Truncated.behind {first second : List Printing}
    (h : Truncated n (held ++ Printing.output first) second full limited) :
    Truncated n held (first ++ second) full limited := by
  obtain ⟨hfits, hoverflows⟩ := h
  rw [ByteArray.append_assoc, ← Printing.output_append] at hfits hoverflows
  refine ⟨hfits, fun hlt => ?_⟩
  obtain ⟨hcompletion, hsink, p, hcrosses, hglobals⟩ := hoverflows hlt
  exact ⟨hcompletion, hsink, p, hcrosses.behind, hglobals⟩

variable {run : Machine → Completion × Machine} {printings : Machine → List Printing}

/-- An execution that does not look at the sink prints nothing. -/
theorem truncates_of_chain (completion : Completion) (f : Chain → Chain) :
    Truncates n (fun m => (completion, { m with chain := f m.chain })) fun _ => [] where
  output c held := by
    rw [Printing.output, ByteArray.append_empty]
  truncated c held hheld := by
    have hnone : held ++ Printing.output [] = held := ByteArray.append_empty
    refine ⟨fun _ => ?_, fun hlt => ?_⟩
    · rw [hnone]
    · rw [hnone] at hlt
      omega

/-- A print is cut off if it crosses the limit, and only then. -/
theorem truncates_print (v : Value) : Truncates n (Machine.print v) fun m => [⟨m, v⟩] where
  output c held := by
    rw [Machine.print, Sink.write_unlimited, Printing.output, Printing.output, ByteArray.append_empty]
  truncated c held hheld := by
    have hone (m : Machine) : Printing.output [⟨m, v⟩] = Machine.printed v := ByteArray.append_empty
    rw [Machine.print, Sink.write_unlimited, Machine.print]
    refine ⟨fun hle => ?_, fun hlt => ?_⟩
    · rw [hone] at hle ⊢
      rw [Sink.write_of_le hle]
    · rw [hone] at hlt ⊢
      rw [Sink.write_of_lt hheld hlt]
      refine ⟨rfl, rfl, _, ⟨⟨[], [], rfl, ?_⟩, hheld, hlt⟩, rfl⟩
      rw [Printing.output, ByteArray.append_empty]

/-- The rule for an evaluation, which prints nothing, and what goes on with its value. -/
theorem Truncates.evalThen (e : Expr) {next : Value → Machine → Completion × Machine}
    {later : Value → Machine → List Printing} (hnext : ∀ v, Truncates n (next v) (later v)) :
    Truncates n (Machine.evalThen e next) (Printing.evalThen e later) where
  output c held := by
    rw [Machine.evalThen, Printing.evalThen, Machine.eval]
    rcases e.eval c with ⟨fault | v, d⟩
    · exact (truncates_of_chain (n := n) (.stopped (.runtime fault)) id).output d held
    · exact (hnext v).output d held
  truncated c held hheld := by
    rw [Machine.evalThen, Machine.evalThen, Printing.evalThen, Machine.eval, Machine.eval]
    rcases e.eval c with ⟨fault | v, d⟩
    · exact (truncates_of_chain (n := n) (.stopped (.runtime fault)) id).truncated d held hheld
    · exact (hnext v).truncated d held hheld

/-- The rule for an execution and what follows if it completes. The limit is crossed in the first, which is then
over, or in the second. -/
theorem Truncates.andThen {next : Machine → Completion × Machine} {later : Machine → List Printing}
    (h : Truncates n run printings) (hnext : Truncates n next later) :
    Truncates n (fun m => Completion.andThen next (run m))
      fun m => printings m ++ Printing.behind later (run m) where
  output c held := by
    have hsink := h.output c held
    generalize printings ⟨c, .holding none held⟩ = first at hsink ⊢
    rcases hrun : run ⟨c, .holding none held⟩ with ⟨completion, d, sink⟩
    rw [hrun] at hsink
    dsimp only at hsink
    subst hsink
    cases completion with
    | done =>
      have hsink := hnext.output d (held ++ Printing.output first)
      rw [Completion.andThen, Printing.behind, hsink, Printing.output_append, ByteArray.append_assoc]
    | stopped | unfinished => rw [Completion.andThen, Printing.behind, List.append_nil]
  truncated c held hheld := by
    have hsink := h.output c held
    have hfirst := h.truncated c held hheld
    generalize printings ⟨c, .holding none held⟩ = first at hsink hfirst ⊢
    rcases hrun : run ⟨c, .holding none held⟩ with ⟨completion, d, sink⟩
    rw [hrun] at hsink hfirst
    dsimp only at hsink
    subst hsink
    by_cases hle : (held ++ Printing.output first).size ≤ n
    · have hlimited := hfirst.fits hle
      cases completion with
      | done =>
        rw [hlimited]
        exact (hnext.truncated d _ hle).behind
      | stopped | unfinished =>
        rw [hlimited, Completion.andThen, Completion.andThen, Printing.behind, List.append_nil, ← hlimited]
        exact hfirst
    · -- The first execution is cut off, so the second one is not begun.
      have hlt := Nat.lt_of_not_le hle
      obtain ⟨hstopped, -⟩ := hfirst.overflows hlt
      rcases hrun' : run ⟨c, .holding (some n) held⟩ with ⟨completion', m⟩
      rw [hrun'] at hstopped hfirst
      dsimp only at hstopped
      subst hstopped
      exact hfirst.append hlt _ _

/-- Leaving a scope does not change the root scope. -/
theorem Chain.globals_leave (c : Chain) : c.leave.globals = c.globals := by
  cases c <;> rfl

/-- The rule for an execution in a scope of its own. -/
theorem Truncates.scope (h : Truncates n run printings) :
    Truncates n (fun m => ((run m.enter).1, (run m.enter).2.leave)) fun m => printings m.enter where
  output c held := h.output c.enter held
  truncated c held hheld := by
    obtain ⟨hfits, hoverflows⟩ := h.truncated c.enter held hheld
    refine ⟨fun hle => ?_, fun hlt => ?_⟩
    · have hlimited := hfits hle
      dsimp only [Machine.enter]
      rw [hlimited]
      rfl
    · obtain ⟨hcompletion, hsink, p, hcrosses, hglobals⟩ := hoverflows hlt
      refine ⟨hcompletion, hsink, p, hcrosses, ?_⟩
      exact (Chain.globals_leave _).trans hglobals

/-- The rule for a loop, by induction on the number of rounds. -/
theorem Truncates.loop (condition : Expr) (hbody : Truncates n run printings) (rounds : Nat) :
    Truncates n (Machine.loop condition run rounds) (Printing.loop condition run printings rounds) := by
  induction rounds with
  | zero => exact truncates_of_chain .unfinished id
  | succ rounds ih =>
    rw [funext (Machine.loop_succ condition run rounds)]
    refine Truncates.evalThen condition fun v => ?_
    cases v.truthy with
    | true => exact hbody.andThen ih
    | false => exact truncates_of_chain .done id

end

namespace Stmt

variable {n rounds : Nat}

/-- The rule for statements in a row. -/
theorem execAll_truncates_of_forall {body : List Stmt}
    (hbody : ∀ s ∈ body, Truncates n (s.exec rounds) (s.printings rounds)) :
    Truncates n (execAll rounds body) (printingsAll rounds body) := by
  induction body with
  | nil => exact truncates_of_chain .done id
  | cons s rest ih =>
    obtain ⟨hs, hrest⟩ := List.forall_mem_cons.1 hbody
    rw [funext (execAll_cons rounds s rest)]
    exact hs.andThen (ih hrest)

/-- Every statement is cut off at the print that crosses the limit. -/
theorem exec_truncates (n rounds : Nat) (s : Stmt) :
    Truncates n (s.exec rounds) (s.printings rounds) := by
  induction s using Stmt.recData with
  | expression e =>
    have hnone : (expression e).printings rounds = fun _ => [] := rfl
    rw [hnone, ← Printing.evalThen_nil e]
    exact .evalThen e fun _ => truncates_of_chain .done id
  | print e => exact .evalThen e truncates_print
  | declare name initial =>
    have hnone : (declare name initial).printings rounds = fun _ => [] := rfl
    rw [hnone, ← Printing.evalThen_nil (initial.getD (.literal .null)),
      funext (exec_declare rounds name initial)]
    exact .evalThen _ fun v => truncates_of_chain .done (Chain.define name.lexeme v)
  | block body ih => exact (execAll_truncates_of_forall ih).scope
  | ifThen condition yes ih =>
    refine Truncates.evalThen condition fun v => ?_
    cases v.truthy with
    | true => exact ih
    | false => exact truncates_of_chain .done id
  | ifThenElse condition yes no ihyes ihno =>
    refine Truncates.evalThen condition fun v => ?_
    cases v.truthy with
    | true => exact ihyes
    | false => exact ihno
  | whileLoop condition body ih => exact ih.loop condition rounds

/-- A program on a sink with a limit is cut off at the print that crosses the limit. -/
theorem execAll_truncates (n rounds : Nat) (body : List Stmt) :
    Truncates n (execAll rounds body) (printingsAll rounds body) :=
  execAll_truncates_of_forall fun s _ => exec_truncates n rounds s

end Stmt

/-! ## Programs on a sink with a limit -/

namespace Session

/-- A sink with a limit truncates a run exactly. Whatever the program, the root scope and the limit `n`, let
`output` be what the program prints on a sink that takes everything. With the limit the first `n` bytes of it
are held, or all of it if it is shorter; then the run ends in the same way with the same root scope. If it is
longer, the run ends at an output fault, and the root scope is the one from when the unlimited run executed the
print that crosses the limit: nothing behind that print has an effect. Either way the root scope is the
innermost one again. -/
theorem interpret_limited (n rounds : Nat) (program : List Stmt) (globals : Scope) :
    let unlimited : Session := ⟨globals, ⟨.empty, none, false⟩⟩
    let limited : Session := ⟨globals, ⟨.empty, some n, false⟩⟩
    let full := unlimited.interpret rounds program
    let cut := limited.interpret rounds program
    let output := full.2.sink.held
    let printings := Stmt.printingsAll rounds program unlimited.machine
    output = Printing.output printings ∧
      cut.2.sink.held = output.extract 0 (min n output.size) ∧
      (output.size ≤ n → cut.1 = full.1 ∧ cut.2.globals = full.2.globals) ∧
      (n < output.size → cut.1 = .stopped (.output .full) ∧
        (∃ p, Crosses n .empty printings p) ∧
        ∀ p, Crosses n .empty printings p → cut.2.globals = p.machine.chain.globals) ∧
      (Stmt.execAll rounds program limited.machine).2.chain = .root cut.2.globals := by
  intro unlimited limited full cut output printings
  have htruncates := Stmt.execAll_truncates n rounds program
  have hsink : (Stmt.execAll rounds program unlimited.machine).2.sink =
      .holding none (.empty ++ Printing.output printings) :=
    htruncates.output (.root globals) .empty
  have htruncated : Truncated n .empty printings (Stmt.execAll rounds program unlimited.machine)
      (Stmt.execAll rounds program limited.machine) :=
    htruncates.truncated (.root globals) .empty (Nat.zero_le n)
  obtain ⟨hfits, hoverflows⟩ := htruncated
  have hroot := congrArg Machine.chain (machine_ofMachine_execAll rounds program limited)
  -- Both sinks can be flushed, so the sessions end as the executions of their statements do.
  have hfull : full = _ := interpret_of_flush (s := unlimited) rfl rounds program
  have hcut : cut = _ := interpret_of_flush (s := limited) rfl rounds program
  have houtput : output = Printing.output printings := by
    have hheld : output = (Stmt.execAll rounds program unlimited.machine).2.sink.held :=
      congrArg (fun r => r.2.sink.held) hfull
    rw [hheld, hsink, ByteArray.empty_append]
    rfl
  rw [ByteArray.empty_append, ← houtput] at hfits hoverflows
  rw [hcut]
  refine ⟨houtput, ?_, fun hle => ?_, fun hlt => ?_, hroot.symm⟩
  · rcases Nat.lt_or_ge n output.size with hlt | hle
    · rw [ofMachine, (hoverflows hlt).2.1, Nat.min_eq_left (Nat.le_of_lt hlt)]
      rfl
    · rw [ofMachine, hfits hle, Nat.min_eq_right hle, ByteArray.extract_zero_size]
      rfl
  · rw [hfull, hfits hle]
    exact ⟨rfl, rfl⟩
  · obtain ⟨hcompletion, -, p, hp, hglobals⟩ := hoverflows hlt
    refine ⟨hcompletion, ⟨p, hp⟩, fun q hq => ?_⟩
    rw [hq.unique hp]
    exact hglobals

/-- The print that crosses the limit has evaluated its expression, and nothing is done behind it. -/
example :
    let source := "var a = \"x\"; \x7b var b; print a; print a = \"yz\"; \x7d a = \"w\";"
    let cut := (Session.mk .empty ⟨.empty, some 3, false⟩).interpret 1 (Source.program source).1
    cut.1 = .stopped (.output .full) ∧ cut.2.sink.held = "x\ny".toUTF8 ∧
      cut.2.globals = .ofList [("a", .string "yz")] := by
  decide +kernel

end Session

end LoxLang
