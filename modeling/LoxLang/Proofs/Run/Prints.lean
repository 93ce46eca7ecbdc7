import LoxLang.Proofs.Run.Output
import LoxLang.Proofs.Run.Rounds

/-!
# What a program prints and how it ends

`Stmt.Prints` says what becomes of a program, without a word on how it is executed: `Prints program c vs ending d`
holds if the program, begun in the chain `c`, prints the values `vs`, in this order, and then comes to an end in
the chain `d`. There is no sink in it and no number of rounds. A loop is the statements of one round and the loop
again, and of a program that goes on for ever `Prints` says nothing.

On a sink that takes everything, executing a program comes to the same. An execution that comes to its end prints
what `Prints` says (`execAll_prints`), and what `Prints` says is executed within some number of rounds
(`Prints.exists_executes`) and within every greater one (`Executes.mono`). The first goes through the ways in
which executions are put together, for the statements that they execute (`Traced`); the second is an induction over
the rules of `Prints`, in which a loop takes one round more than what follows its condition.
-/

namespace LoxLang

/-- How a program comes to its end: it is through, or an expression in it has no value. -/
inductive Ending where
  | completed
  | faulted (fault : RuntimeFault)
  deriving DecidableEq, Repr

/-- The completion of an execution that comes to such an end. -/
def Ending.completion : Ending → Completion
  | completed => .done
  | faulted fault => .stopped (.runtime fault)

/-- A program that comes to its end is not one that had to be broken off. -/
theorem Ending.completion_ne_unfinished (ending : Ending) : ending.completion ≠ .unfinished := by
  cases ending <;> nofun

namespace Machine

/-- What printing values writes. -/
def printedAll : List Value → ByteArray
  | [] => .empty
  | v :: rest => printed v ++ printedAll rest

/-- Values in a row are written one behind the other. -/
theorem printedAll_append (vs ws : List Value) :
    printedAll (vs ++ ws) = printedAll vs ++ printedAll ws := by
  induction vs with
  | nil => exact ByteArray.empty_append.symm
  | cons v rest ih => rw [List.cons_append, printedAll, printedAll, ih, ByteArray.append_assoc]

end Machine

open Machine

/-- Printing no values adds nothing to a sink. -/
theorem Sink.append_printedAll_nil (s : Sink) : s.append (printedAll []) = s :=
  s.append_empty

namespace Stmt

/-- The expression that a statement evaluates before all else; a block has none of its own. -/
def first? : Stmt → Option Expr
  | expression e | print e => some e
  | declare _ initial => some (initial.getD (.literal .null))
  | block _ => none
  | ifThen condition _ | ifThenElse condition _ _ | whileLoop condition _ => some condition

/-- The program, begun in the first chain, prints the values and comes to this end in the second one. -/
inductive Prints : List Stmt → Chain → List Value → Ending → Chain → Prop where
  | nil {c : Chain} : Prints [] c [] .completed c
  | faulted {s : Stmt} {rest : List Stmt} {e : Expr} {c d : Chain} {fault : RuntimeFault} :
      s.first? = some e → e.eval c = (.error fault, d) → Prints (s :: rest) c [] (.faulted fault) d
  | expression {e : Expr} {rest : List Stmt} {c d d' : Chain} {v : Value} {vs : List Value}
      {ending : Ending} :
      e.eval c = (.ok v, d) → Prints rest d vs ending d' → Prints (.expression e :: rest) c vs ending d'
  | print {e : Expr} {rest : List Stmt} {c d d' : Chain} {v : Value} {vs : List Value} {ending : Ending} :
      e.eval c = (.ok v, d) → Prints rest d vs ending d' → Prints (.print e :: rest) c (v :: vs) ending d'
  | declare {name : Token} {initial : Option Expr} {rest : List Stmt} {c d d' : Chain} {v : Value}
      {vs : List Value} {ending : Ending} :
      (initial.getD (.literal .null)).eval c = (.ok v, d) → Prints rest (d.define name.lexeme v) vs ending d' →
        Prints (.declare name initial :: rest) c vs ending d'
  /-- The scope of a block is left before what follows the block. -/
  | block {body rest : List Stmt} {c d d' : Chain} {vs ws : List Value} {ending : Ending} :
      Prints body c.enter vs .completed d → Prints rest d.leave ws ending d' →
        Prints (.block body :: rest) c (vs ++ ws) ending d'
  | blockFaulted {body rest : List Stmt} {c d : Chain} {vs : List Value} {fault : RuntimeFault} :
      Prints body c.enter vs (.faulted fault) d → Prints (.block body :: rest) c vs (.faulted fault) d.leave
  | ifThen {condition : Expr} {yes : Stmt} {rest : List Stmt} {c d d' : Chain} {v : Value}
      {vs : List Value} {ending : Ending} :
      condition.eval c = (.ok v, d) → Prints ((if v.truthy then [yes] else []) ++ rest) d vs ending d' →
        Prints (.ifThen condition yes :: rest) c vs ending d'
  | ifThenElse {condition : Expr} {yes no : Stmt} {rest : List Stmt} {c d d' : Chain} {v : Value}
      {vs : List Value} {ending : Ending} :
      condition.eval c = (.ok v, d) → Prints ([if v.truthy then yes else no] ++ rest) d vs ending d' →
        Prints (.ifThenElse condition yes no :: rest) c vs ending d'
  /-- A loop is one round and the loop again, as long as its condition holds. -/
  | whileLoop {condition : Expr} {body : Stmt} {rest : List Stmt} {c d d' : Chain} {v : Value}
      {vs : List Value} {ending : Ending} :
      condition.eval c = (.ok v, d) →
        Prints ((if v.truthy then [body, .whileLoop condition body] else []) ++ rest) d vs ending d' →
        Prints (.whileLoop condition body :: rest) c vs ending d'

/-! ## Executions print what `Prints` says -/

/-- An execution of the first statements of a program, begun in a chain on a sink, ended in accordance with
`Prints`: whatever statements follow, they go on from there, or there is nothing left to do after a fault. An
execution that had to be broken off need not be in accordance with anything. -/
inductive Traced (todo : List Stmt) (c : Chain) (sink : Sink) : Completion × Machine → Prop where
  | done {d : Chain} {vs : List Value} :
      (∀ {rest ws ending d'}, Prints rest d ws ending d' → Prints (todo ++ rest) c (vs ++ ws) ending d') →
        Traced todo c sink (.done, ⟨d, sink.append (printedAll vs)⟩)
  | stopped {d : Chain} {vs : List Value} {fault : RuntimeFault} :
      (∀ rest, Prints (todo ++ rest) c vs (.faulted fault) d) →
        Traced todo c sink (.stopped (.runtime fault), ⟨d, sink.append (printedAll vs)⟩)
  | unfinished {m : Machine} : Traced todo c sink (.unfinished, m)

section
variable {todo more : List Stmt} {s : Stmt} {c d : Chain} {sink : Sink} {ended : Completion × Machine}

/-- No statements print nothing. -/
theorem traced_nil (c : Chain) (sink : Sink) : Traced [] c sink (.done, ⟨c, sink⟩) := by
  have h : Traced [] c sink (.done, ⟨c, sink.append (printedAll [])⟩) := .done id
  rwa [sink.append_printedAll_nil] at h

/-- Statements that lead to others, in another chain, end in accordance with `Prints` if those do. -/
theorem Traced.of_imp (h : Traced more d sink ended)
    (himp : ∀ {rest vs ending d'},
      Prints (more ++ rest) d vs ending d' → Prints (todo ++ rest) c vs ending d') :
    Traced todo c sink ended := by
  cases h with
  | done hdone => exact .done fun hrest => himp (hdone hrest)
  | stopped hstopped => exact .stopped fun rest => himp (hstopped rest)
  | unfinished => exact .unfinished

/-- A statement whose first expression has no value stops there; otherwise it goes on with the value. -/
theorem traced_evalThen {e : Expr} {next : Value → Machine → Completion × Machine}
    (hfirst : s.first? = some e)
    (hnext : ∀ v d, e.eval c = (.ok v, d) → Traced [s] c sink (next v ⟨d, sink⟩)) :
    Traced [s] c sink (Machine.evalThen e next ⟨c, sink⟩) := by
  rcases heval : e.eval c with ⟨fault | v, d⟩
  · rw [Machine.evalThen_of_error heval]
    have h : Traced [s] c sink (.stopped (.runtime fault), ⟨d, sink.append (printedAll [])⟩) :=
      .stopped fun _ => .faulted hfirst heval
    rwa [sink.append_printedAll_nil] at h
  · rw [Machine.evalThen_of_ok heval]
    exact hnext v d heval

/-- The rule for an execution and what follows if it completes: the statements of both are executed in a row. -/
theorem Traced.andThen {next : Machine → Completion × Machine} (h : Traced todo c sink ended)
    (hsink : sink.Reliable)
    (hnext : ∀ (d : Chain) (sink : Sink), sink.Reliable → Traced more d sink (next ⟨d, sink⟩)) :
    Traced (todo ++ more) c sink (Completion.andThen next ended) := by
  cases h with
  | @done d vs hdone =>
    have hmore := hnext d (sink.append (printedAll vs)) (hsink.append _)
    rw [Completion.andThen]
    generalize next ⟨d, sink.append (printedAll vs)⟩ = ended at hmore ⊢
    cases hmore with
    | done hmore =>
      rw [Sink.append_append, ← printedAll_append]
      refine .done fun hrest => ?_
      rw [List.append_assoc, List.append_assoc]
      exact hdone (hmore hrest)
    | stopped hmore =>
      rw [Sink.append_append, ← printedAll_append]
      refine .stopped fun rest => ?_
      rw [List.append_assoc]
      exact hdone (hmore rest)
    | unfinished => exact .unfinished
  | stopped hstopped =>
    refine .stopped fun rest => ?_
    rw [List.append_assoc]
    exact hstopped (more ++ rest)
  | unfinished => exact .unfinished

/-- A block ends as its statements do, outside of its scope. -/
theorem Traced.block {body : List Stmt} (h : Traced body c.enter sink ended) :
    Traced [.block body] c sink (ended.1, ended.2.leave) := by
  cases h with
  | @done d vs hdone =>
    have hbody := hdone (.nil (c := d))
    rw [List.append_nil, List.append_nil] at hbody
    exact .done fun hrest => .block hbody hrest
  | stopped hstopped =>
    have hbody := hstopped []
    rw [List.append_nil] at hbody
    exact .stopped fun _ => .blockFaulted hbody
  | unfinished => exact .unfinished

/-- A loop is traced by its rounds, each of which is its body and the loop again. The induction is on the number of
rounds. -/
theorem traced_loop {condition : Expr} {body : Stmt} {run : Machine → Completion × Machine}
    (hbody : ∀ (c : Chain) (sink : Sink), sink.Reliable → Traced [body] c sink (run ⟨c, sink⟩))
    (rounds : Nat) (c : Chain) (sink : Sink) (hsink : sink.Reliable) :
    Traced [.whileLoop condition body] c sink (Machine.loop condition run rounds ⟨c, sink⟩) := by
  induction rounds generalizing c sink with
  | zero => exact .unfinished
  | succ rounds ih =>
    rw [Machine.loop_succ]
    refine traced_evalThen rfl fun v d heval => ?_
    cases htruthy : v.truthy with
    | true =>
      have hround := (hbody d sink hsink).andThen hsink ih
      refine hround.of_imp fun hrest => .whileLoop heval ?_
      rw [if_pos htruthy]
      exact hrest
    | false =>
      refine (traced_nil d sink).of_imp fun hrest => .whileLoop heval ?_
      rw [htruthy]
      exact hrest

end

variable {rounds : Nat}

/-- Statements in a row are traced if each of them is. -/
theorem execAll_traced_of_forall {body : List Stmt}
    (hbody : ∀ s ∈ body, ∀ (c : Chain) (sink : Sink), sink.Reliable →
      Traced [s] c sink (s.exec rounds ⟨c, sink⟩))
    (c : Chain) (sink : Sink) (hsink : sink.Reliable) :
    Traced body c sink (execAll rounds body ⟨c, sink⟩) := by
  induction body generalizing c sink with
  | nil => exact traced_nil c sink
  | cons s rest ih =>
    obtain ⟨hs, hrest⟩ := List.forall_mem_cons.1 hbody
    rw [execAll_cons]
    exact (hs c sink hsink).andThen hsink (ih hrest)

/-- Every statement is executed in accordance with `Prints`, unless its execution had to be broken off. -/
theorem exec_traced (rounds : Nat) (s : Stmt) (c : Chain) (sink : Sink) (hsink : sink.Reliable) :
    Traced [s] c sink (s.exec rounds ⟨c, sink⟩) := by
  induction s using Stmt.recData generalizing c sink with
  | expression e =>
    refine traced_evalThen rfl fun v d heval => ?_
    exact (traced_nil d sink).of_imp (.expression heval)
  | print e =>
    refine traced_evalThen rfl fun v d heval => ?_
    have hone : printedAll [v] = printed v := ByteArray.append_empty
    have h : Traced [.print e] c sink (.done, ⟨d, sink.append (printedAll [v])⟩) := .done (.print heval)
    rw [hone] at h
    rw [Machine.print, hsink.write_eq]
    exact h
  | declare name initial =>
    rw [exec_declare]
    refine traced_evalThen rfl fun v d heval => ?_
    exact (traced_nil (d.define name.lexeme v) sink).of_imp (.declare heval)
  | block body ih => exact (execAll_traced_of_forall ih c.enter sink hsink).block
  | ifThen condition yes ih =>
    refine traced_evalThen rfl fun v d heval => ?_
    have hbranch : Traced (if v.truthy then [yes] else []) d sink
        (if v.truthy then yes.exec rounds ⟨d, sink⟩ else (.done, ⟨d, sink⟩)) := by
      cases v.truthy with
      | true => exact ih d sink hsink
      | false => exact traced_nil d sink
    exact hbranch.of_imp (.ifThen heval)
  | ifThenElse condition yes no ihyes ihno =>
    refine traced_evalThen rfl fun v d heval => ?_
    have hbranch : Traced [if v.truthy then yes else no] d sink
        (if v.truthy then yes.exec rounds ⟨d, sink⟩ else no.exec rounds ⟨d, sink⟩) := by
      cases v.truthy with
      | true => exact ihyes d sink hsink
      | false => exact ihno d sink hsink
    exact hbranch.of_imp (.ifThenElse heval)
  | whileLoop condition body ih => exact traced_loop ih rounds c sink hsink

/-- An execution that comes to its end on a sink that takes everything prints what `Prints` says, and ends as it
says. -/
theorem execAll_prints (program : List Stmt) (c : Chain) {sink : Sink} (hsink : sink.Reliable)
    (hend : (execAll rounds program ⟨c, sink⟩).1 ≠ .unfinished) :
    ∃ vs ending d, Prints program c vs ending d ∧
      execAll rounds program ⟨c, sink⟩ = (ending.completion, ⟨d, sink.append (printedAll vs)⟩) := by
  have htraced : Traced program c sink (execAll rounds program ⟨c, sink⟩) :=
    execAll_traced_of_forall (fun s _ => exec_traced rounds s) c sink hsink
  generalize execAll rounds program ⟨c, sink⟩ = ended at htraced hend ⊢
  cases htraced with
  | @done d vs hdone =>
    have hprogram := hdone (.nil (c := d))
    rw [List.append_nil, List.append_nil] at hprogram
    exact ⟨vs, .completed, d, hprogram, rfl⟩
  | @stopped d vs fault hstopped =>
    have hprogram := hstopped []
    rw [List.append_nil] at hprogram
    exact ⟨vs, .faulted fault, d, hprogram, rfl⟩
  | unfinished => exact absurd rfl hend

/-! ## What `Prints` says is executed -/

/-- With this number of rounds the program prints the values and comes to this end, on every sink that takes
everything. -/
def Executes (rounds : Nat) (program : List Stmt) (c : Chain) (vs : List Value) (ending : Ending)
    (d : Chain) : Prop :=
  ∀ sink : Sink, sink.Reliable →
    execAll rounds program ⟨c, sink⟩ = (ending.completion, ⟨d, sink.append (printedAll vs)⟩)

section
variable {more : Nat} {program rest : List Stmt} {s : Stmt} {e : Expr} {c d : Chain} {vs : List Value}
  {ending : Ending} {fault : RuntimeFault}

/-- A program that comes to its end within some number of rounds does so within every greater one. -/
theorem Executes.mono (h : Executes rounds program c vs ending d) (hle : rounds ≤ more) :
    Executes more program c vs ending d := by
  intro sink hsink
  have hrun := h sink hsink
  have hend : (execAll rounds program ⟨c, sink⟩).1 ≠ .unfinished := by
    rw [hrun]
    exact ending.completion_ne_unfinished
  rw [execAll_prolongs hle program ⟨c, sink⟩ hend, hrun]

/-- No statements need no rounds. -/
theorem executes_nil : Executes rounds [] c [] .completed c := by
  intro sink _
  rw [execAll, sink.append_printedAll_nil]
  rfl

/-- A statement that goes on with a value as other statements do. -/
theorem Executes.evalThen {next : Value → Machine → Completion × Machine} (todo : List Stmt)
    {d' d'' : Chain} {v : Value} (heval : e.eval c = (.ok v, d))
    (hexec : s.exec rounds = Machine.evalThen e next)
    (hnext : ∀ sink, next v ⟨d, sink⟩ = execAll rounds todo ⟨d', sink⟩)
    (h : Executes rounds (todo ++ rest) d' vs ending d'') :
    Executes rounds (s :: rest) c vs ending d'' := by
  intro sink hsink
  rw [execAll_cons, hexec, Machine.evalThen_of_ok heval, hnext, ← execAll_append_andThen]
  exact h sink hsink

/-- A print statement prints its value before what the statements behind it print. -/
theorem Executes.print {d' : Chain} {v : Value} (heval : e.eval c = (.ok v, d))
    (h : Executes rounds rest d vs ending d') :
    Executes rounds (.print e :: rest) c (v :: vs) ending d' := by
  intro sink hsink
  have hmore := h _ (hsink.append (printed v))
  rw [Sink.append_append] at hmore
  rw [execAll_cons, exec, Machine.evalThen_of_ok heval, Machine.print, hsink.write_eq]
  exact hmore

/-- A statement that evaluates an expression before all else does so if a loop is allowed a round at all. -/
theorem exists_exec_eq_evalThen (hfirst : s.first? = some e) (rounds : Nat) :
    ∃ next, s.exec (rounds + 1) = Machine.evalThen e next := by
  cases s with
  | block body => cases hfirst
  | declare name initial =>
    cases hfirst
    exact ⟨_, funext (exec_declare (rounds + 1) name initial)⟩
  | whileLoop condition body =>
    cases hfirst
    exact ⟨_, funext (Machine.loop_succ e (body.exec (rounds + 1)) rounds)⟩
  | expression | print | ifThen | ifThenElse =>
    cases hfirst
    exact ⟨_, rfl⟩

/-- A statement whose first expression has no value ends the program there. -/
theorem executes_faulted (hfirst : s.first? = some e) (heval : e.eval c = (.error fault, d)) :
    Executes 1 (s :: rest) c [] (.faulted fault) d := by
  intro sink _
  obtain ⟨next, hnext⟩ := exists_exec_eq_evalThen hfirst 0
  rw [execAll_cons, hnext, Machine.evalThen_of_error heval, sink.append_printedAll_nil]
  rfl

/-- A block that comes through is executed before the statements behind it, which are in the scope around it. -/
theorem Executes.block {body : List Stmt} {d' : Chain} {ws : List Value}
    (hbody : Executes rounds body c.enter vs .completed d)
    (hrest : Executes rounds rest d.leave ws ending d') :
    Executes rounds (.block body :: rest) c (vs ++ ws) ending d' := by
  intro sink hsink
  have hmore := hrest _ (hsink.append (printedAll vs))
  rw [Sink.append_append, ← printedAll_append] at hmore
  rw [execAll_cons, exec, Machine.enter, hbody sink hsink]
  exact hmore

/-- A block that ends at a fault ends the program, with its scope left. -/
theorem Executes.blockFaulted {body : List Stmt}
    (hbody : Executes rounds body c.enter vs (.faulted fault) d) :
    Executes rounds (.block body :: rest) c vs (.faulted fault) d.leave := by
  intro sink hsink
  rw [execAll_cons, exec, Machine.enter, hbody sink hsink]
  rfl

/-- A loop takes one round more than its first round and what follows it. -/
theorem Executes.whileLoop {condition : Expr} {body : Stmt} {d' : Chain} {v : Value}
    (heval : condition.eval c = (.ok v, d)) (htruthy : v.truthy = true)
    (h : Executes rounds (body :: .whileLoop condition body :: rest) d vs ending d') :
    Executes (rounds + 1) (.whileLoop condition body :: rest) c vs ending d' := by
  intro sink hsink
  have hround := h sink hsink
  -- With one round more, the round and the loop behind it do what they do without it.
  have hbody := exec_prolongs (Nat.le_add_right rounds 1) body
  have hprolongs := hbody.andThen
    ((hbody.loop condition (Nat.le_refl rounds)).andThen (execAll_prolongs (Nat.le_add_right rounds 1) rest))
  rw [execAll_cons, funext (execAll_cons rounds (.whileLoop condition body) rest)] at hround
  rw [execAll_cons, exec, Machine.loop_succ, Machine.evalThen_of_ok heval, if_pos htruthy,
    Completion.andThen_assoc]
  refine (hprolongs ⟨d, sink⟩ fun hunfinished => ?_).trans hround
  exact ending.completion_ne_unfinished ((congrArg Prod.fst hround).symm.trans hunfinished)

/-- What `Prints` says is executed within some number of rounds. -/
theorem Prints.exists_executes (h : Prints program c vs ending d) :
    ∃ rounds, Executes rounds program c vs ending d := by
  induction h with
  | nil => exact ⟨0, executes_nil⟩
  | faulted hfirst heval => exact ⟨1, executes_faulted hfirst heval⟩
  | expression heval _ ih =>
    obtain ⟨rounds, ih⟩ := ih
    exact ⟨rounds, .evalThen [] heval rfl (fun _ => rfl) ih⟩
  | print heval _ ih =>
    obtain ⟨rounds, ih⟩ := ih
    exact ⟨rounds, .print heval ih⟩
  | declare heval _ ih =>
    obtain ⟨rounds, ih⟩ := ih
    exact ⟨rounds, .evalThen [] heval (funext (exec_declare rounds _ _)) (fun _ => rfl) ih⟩
  | block _ _ ihbody ihrest =>
    obtain ⟨rounds, ihbody⟩ := ihbody
    obtain ⟨rounds', ihrest⟩ := ihrest
    refine ⟨max rounds rounds', ?_⟩
    exact (ihbody.mono (Nat.le_max_left _ _)).block (ihrest.mono (Nat.le_max_right _ _))
  | blockFaulted _ ih =>
    obtain ⟨rounds, ih⟩ := ih
    exact ⟨rounds, ih.blockFaulted⟩
  | @ifThen _ _ _ _ _ _ v _ _ heval _ ih =>
    obtain ⟨rounds, ih⟩ := ih
    refine ⟨rounds, .evalThen _ heval rfl (fun sink => ?_) ih⟩
    cases v.truthy with
    | true => exact (execAll_singleton _ _ _).symm
    | false => rfl
  | @ifThenElse _ _ _ _ _ _ _ v _ _ heval _ ih =>
    obtain ⟨rounds, ih⟩ := ih
    refine ⟨rounds, .evalThen _ heval rfl (fun sink => ?_) ih⟩
    rw [execAll_singleton]
    cases v.truthy <;> rfl
  | @whileLoop _ _ _ _ _ _ v _ _ heval _ ih =>
    obtain ⟨rounds, ih⟩ := ih
    -- One round for this test of the condition, and as many as the loop needs from there on.
    refine ⟨rounds + 1, ?_⟩
    cases hv : v.truthy with
    | true =>
      rw [hv] at ih
      exact .whileLoop heval hv ih
    | false =>
      rw [hv] at ih
      refine .evalThen [] heval (funext (Machine.loop_succ _ _ _)) (fun sink => ?_)
        (ih.mono (Nat.le_add_right rounds 1))
      rw [hv]
      rfl

end

end Stmt

end LoxLang
