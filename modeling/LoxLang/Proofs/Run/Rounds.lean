import LoxLang.Proofs.Run.Scopes

/-!
# More rounds

The number of rounds that the loops of a program are allowed is no part of what the program does. With more
of them an execution that came to its end comes to the same end, on the same machine: `Prolongs` relates an
execution to one with more rounds, with one rule for each way in which executions are put together, and
`Stmt.execAll_prolongs` gives it for every program. Only an execution that had to be broken off may go on.
-/

namespace LoxLang

/-- Wherever the first execution comes to an end, the second one does the same. -/
def Prolongs (run longer : Machine → Completion × Machine) : Prop :=
  ∀ m, (run m).1 ≠ .unfinished → longer m = run m

section
variable {run longer next later : Machine → Completion × Machine}

/-- An execution does what it does. -/
theorem prolongs_refl (run : Machine → Completion × Machine) : Prolongs run run :=
  fun _ _ => rfl

/-- The rule for an evaluation and what goes on with its value. -/
theorem Prolongs.evalThen (e : Expr) {next later : Value → Machine → Completion × Machine}
    (h : ∀ v, Prolongs (next v) (later v)) :
    Prolongs (Machine.evalThen e next) (Machine.evalThen e later) := by
  intro m hend
  rw [Machine.evalThen] at hend ⊢
  rw [Machine.evalThen]
  rcases heval : m.eval e with ⟨fault | v, n⟩
  · rfl
  · rw [heval] at hend
    exact h v n hend

/-- The rule for an execution and what follows if it completes. -/
theorem Prolongs.andThen (h : Prolongs run longer) (hnext : Prolongs next later) :
    Prolongs (fun m => Completion.andThen next (run m)) fun m => Completion.andThen later (longer m) := by
  intro m hend
  have hlonger := h m
  dsimp only at hend ⊢
  generalize run m = ended at hlonger hend ⊢
  rcases ended with ⟨completion, n⟩
  cases completion with
  | done =>
    rw [hlonger nofun]
    exact hnext n hend
  | stopped fault => rw [hlonger nofun, Completion.andThen, Completion.andThen]
  | unfinished => exact absurd rfl hend

/-- The rule for an execution in a scope of its own. -/
theorem Prolongs.scope (h : Prolongs run longer) :
    Prolongs (fun m => ((run m.enter).1, (run m.enter).2.leave))
      fun m => ((longer m.enter).1, (longer m.enter).2.leave) := by
  intro m hend
  dsimp only at hend ⊢
  rw [h m.enter hend]

/-- A loop goes on with more rounds, and with a body that goes on itself. -/
theorem Prolongs.loop (condition : Expr) (h : Prolongs run longer) {rounds more : Nat}
    (hle : rounds ≤ more) :
    Prolongs (Machine.loop condition run rounds) (Machine.loop condition longer more) := by
  induction rounds generalizing more with
  | zero => exact fun m hend => absurd rfl hend
  | succ rounds ih =>
    obtain ⟨more, rfl⟩ := Nat.exists_eq_add_of_le' hle
    rw [funext (Machine.loop_succ condition run rounds), ← Nat.add_assoc,
      funext (Machine.loop_succ condition longer (more + rounds))]
    refine Prolongs.evalThen condition fun v => ?_
    cases v.truthy with
    | true => exact h.andThen (ih (Nat.le_add_left rounds more))
    | false => exact prolongs_refl _

end

namespace Stmt

variable {rounds more : Nat}

/-- The rule for statements in a row. -/
theorem execAll_prolongs_of_forall {body : List Stmt}
    (hbody : ∀ s ∈ body, Prolongs (s.exec rounds) (s.exec more)) :
    Prolongs (execAll rounds body) (execAll more body) := by
  induction body with
  | nil => exact prolongs_refl _
  | cons s rest ih =>
    obtain ⟨hs, hrest⟩ := List.forall_mem_cons.1 hbody
    rw [funext (execAll_cons rounds s rest), funext (execAll_cons more s rest)]
    exact hs.andThen (ih hrest)

/-- With more rounds, a statement that comes to its end comes to the same end. -/
theorem exec_prolongs (hle : rounds ≤ more) (s : Stmt) : Prolongs (s.exec rounds) (s.exec more) := by
  induction s using Stmt.recData with
  | expression | print => exact prolongs_refl _
  | declare name initial =>
    rw [funext (exec_declare rounds name initial), funext (exec_declare more name initial)]
    exact prolongs_refl _
  | block body ih => exact (execAll_prolongs_of_forall ih).scope
  | ifThen condition yes ih =>
    refine Prolongs.evalThen condition fun v => ?_
    cases v.truthy with
    | true => exact ih
    | false => exact prolongs_refl _
  | ifThenElse condition yes no ihyes ihno =>
    refine Prolongs.evalThen condition fun v => ?_
    cases v.truthy with
    | true => exact ihyes
    | false => exact ihno
  | whileLoop condition body ih => exact ih.loop condition hle

/-- A program that comes to its end within some rounds comes to the same end with more of them. -/
theorem execAll_prolongs (hle : rounds ≤ more) (body : List Stmt) :
    Prolongs (execAll rounds body) (execAll more body) :=
  execAll_prolongs_of_forall fun s _ => exec_prolongs hle s

end Stmt

end LoxLang
