import LoxLang.Proofs.Parse.Regular
import LoxLang.Proofs.Run.Lockstep

/-!
# The meaning of a `for` statement

A `for` statement has no tree of its own: it is read as a block around a `while` loop, or as the loop alone
if it has no initializer, and the loop's body is a block again if there is an increment. `ForClauses.run`
says directly what its clauses mean, in one new scope for all of them, and `forStatement_exec` that every
`for` statement that is read is executed that way.

The scopes differ. The direct meaning has one for the loop whatever the clauses are, and none around a
single round. Neither is noticed, because a `for` statement's body is no declaration: it binds no name
outside of its blocks, so that it is executed in a new scope as it is without one (`Stmt.exec_enter`).
-/

namespace LoxLang

/-! ## A scope that is not noticed -/

/-- A new scope is not noticed where variables are read and assigned. -/
theorem Tracks.enter : Tracks id (Token.reline id) (fun _ => True) fun c c' => c' = c.enter where
  read := by
    rintro t c _ - rfl
    rw [Evaluated.reline_id, Chain.enter, readVariable_inner]
    rfl
  assign := by
    rintro t c _ v - rfl
    have hfree : Scope.empty.get? (t.reline id).lexeme = none := rfl
    rw [Chain.enter, assignVariable_inner_of_free hfree]
    exact ⟨(Evaluated.reline_id _).symm, rfl⟩

/-- A statement that declares nothing outside of its blocks is executed in a new scope as it is without
one, and leaves it empty. -/
theorem Stmt.exec_enter {s : Stmt} (h : s.declared = []) (rounds : Nat) (m : Machine) :
    s.exec rounds m.enter = ((s.exec rounds m).1, (s.exec rounds m).2.enter) := by
  have hdeclared : ∀ t ∈ s.declared, ∀ (v : Value) {c c' : Chain}, c' = c.enter →
      c'.define t.lexeme v = (c.define t.lexeme v).enter := by
    rw [h]
    exact nofun
  obtain ⟨hcompletion, hchain, hsink⟩ :=
    Stmt.exec_step Tracks.enter s (fun _ _ => trivial) hdeclared rounds m m.enter ⟨rfl, rfl⟩
  rw [Stmt.reline_id] at hcompletion hchain hsink
  rw [Completion.reline_id] at hcompletion
  rcases hrun : s.exec rounds m with ⟨completion, n⟩
  rcases hrun' : s.exec rounds m.enter with ⟨completion', n'⟩
  rw [hrun, hrun'] at hcompletion hchain hsink
  dsimp only at hcompletion hchain hsink ⊢
  rw [hcompletion, Machine.enter, ← hchain, ← hsink]

/-! ## What the clauses mean -/

namespace ForClauses

/-- Runs the initializer, if there is one. -/
def start (f : ForClauses) (rounds : Nat) (m : Machine) : Completion × Machine :=
  match f.initial with
  | none => (.done, m)
  | some s => s.exec rounds m

/-- The value of the condition; a missing one is true. -/
def test (f : ForClauses) (m : Machine) : Evaluated × Machine :=
  match f.condition with
  | none => (.ok (.bool true), m)
  | some e => m.eval e

/-- Evaluates the increment, if there is one. -/
def advance (f : ForClauses) (m : Machine) : Completion × Machine :=
  match f.increment with
  | none => (.done, m)
  | some e =>
    match m.eval e with
    | (.error fault, m) => (.stopped (.runtime fault), m)
    | (.ok _, m) => (.done, m)

/-- Goes through at most `left` rounds in one scope: tests the condition and, unless it is falsy, executes
the body and evaluates the increment. -/
def repeated (f : ForClauses) (rounds : Nat) : (left : Nat) → Machine → Completion × Machine
  | 0, m => (.unfinished, m)
  | left + 1, m =>
    match f.test m with
    | (.error fault, m) => (.stopped (.runtime fault), m)
    | (.ok value, m) =>
      if value.truthy then
        match f.body.exec rounds m with
        | (.done, m) =>
          match f.advance m with
          | (.done, m) => f.repeated rounds left m
          | ended => ended
        | ended => ended
      else (.done, m)

/-- Enters a scope, runs the initializer once and then the rounds of the loop in it, and leaves the scope
however they ended. -/
def run (f : ForClauses) (rounds : Nat) (m : Machine) : Completion × Machine :=
  let ended :=
    match f.start rounds m.enter with
    | (.done, m) => f.repeated rounds rounds m
    | ended => ended
  (ended.1, ended.2.leave)

/-! ## The statement that is read -/

variable {f : ForClauses}

/-- The condition of the loop is tested. -/
theorem eval_condition (f : ForClauses) (m : Machine) :
    m.eval (f.condition.getD (.literal (.bool true))) = f.test m := by
  rw [test]
  cases f.condition <;> rfl

/-- The increment is evaluated as an expression statement is. -/
theorem advance_of_increment {e : Expr} (h : f.increment = some e) (rounds : Nat) (m : Machine) :
    f.advance m = (Stmt.expression e).exec rounds m := by
  unfold advance
  rw [h]
  rcases heval : m.eval e with ⟨_ | _, n⟩ <;> simp only [heval, Stmt.exec, Machine.evalThen]

/-- A round of the loop is an execution of the body and an evaluation of the increment. A block around
them makes no difference: both are executed in its scope as they are outside of it. -/
theorem exec_round (hbody : f.body.declared = []) (rounds : Nat) (m : Machine) :
    (f.body.withIncrement f.increment).exec rounds m =
      Completion.andThen f.advance (f.body.exec rounds m) := by
  cases hincrement : f.increment with
  | none =>
    have hadvance : ∀ n, f.advance n = (.done, n) := by
      intro n
      rw [advance, hincrement]
    rw [Stmt.withIncrement]
    rcases f.body.exec rounds m with ⟨_ | _ | _, n⟩
    · exact (hadvance n).symm
    · rfl
    · rfl
  | some e =>
    have hadvance : f.advance = (Stmt.expression e).exec rounds :=
      funext (advance_of_increment hincrement rounds)
    have hexpression (n : Machine) := Stmt.exec_enter (s := .expression e) rfl rounds n
    rw [Stmt.withIncrement, Stmt.exec, Stmt.execAll_cons, Stmt.exec_enter hbody, hadvance]
    rcases f.body.exec rounds m with ⟨_ | _ | _, n⟩
    · dsimp only [Completion.andThen]
      rw [Stmt.execAll_cons, hexpression]
      rcases (Stmt.expression e).exec rounds n with ⟨_ | _ | _, k⟩ <;> rfl
    · rfl
    · rfl

/-- The loop goes through the rounds: by induction on how many are left. -/
theorem loop_eq_repeated (hbody : f.body.declared = []) (rounds left : Nat) (m : Machine) :
    Machine.loop (f.condition.getD (.literal (.bool true)))
      ((f.body.withIncrement f.increment).exec rounds) left m = f.repeated rounds left m := by
  induction left generalizing m with
  | zero => rfl
  | succ left ih =>
    rw [Machine.loop, repeated, eval_condition]
    rcases f.test m with ⟨fault | v, n⟩
    · rfl
    · dsimp only
      rw [exec_round hbody]
      split
      · rcases f.body.exec rounds n with ⟨_ | _ | _, k⟩
        · dsimp only [Completion.andThen]
          rcases f.advance k with ⟨_ | _ | _, k'⟩
          · exact ih k'
          · rfl
          · rfl
        · rfl
        · rfl
      · rfl

/-- The loop is executed round by round, where the block that a round shares with the increment is not noticed. -/
theorem exec_loop (hbody : f.body.declared = []) (rounds : Nat) (m : Machine) :
    f.loop.exec rounds m = f.repeated rounds rounds m := by
  rw [loop, Stmt.exec, loop_eq_repeated hbody]

/-- The clauses of a regular `for` statement mean what the statement does. -/
theorem exec_desugar {S : Token → Prop} (h : f.Regular S) (rounds : Nat) (m : Machine) :
    f.desugar.exec rounds m = f.run rounds m := by
  have hbody : f.body.declared = [] := h.body.declared_eq_nil h.isDeclare_body
  have hloop : f.loop.declared = [] := h.loop.declared_eq_nil rfl
  have hdesugar : f.desugar = f.loop.withInitial f.initial := rfl
  rw [hdesugar, run, start]
  cases f.initial with
  | none =>
    have henter := Stmt.exec_enter hloop rounds m
    rw [exec_loop hbody, exec_loop hbody] at henter
    dsimp only
    rw [henter, Stmt.withInitial, exec_loop hbody]
    rfl
  | some s =>
    dsimp only
    rw [Stmt.withInitial, Stmt.exec, Stmt.execAll_cons]
    rcases s.exec rounds m.enter with ⟨_ | _ | _, n⟩
    · dsimp only [Completion.andThen]
      rw [Stmt.execAll_cons, exec_loop hbody]
      rcases f.repeated rounds rounds n with ⟨_ | _ | _, k⟩ <;> rfl
    · rfl
    · rfl

end ForClauses

/-- Every `for` statement that is read, whichever of its clauses are there and whatever is reported about
its body, is executed as its clauses mean: the same bytes are printed, it ends the same way, and every
scope is left with the same values. The body binds no name in any scope there is, so neither the condition
nor the increment ever sees a variable that it declares. -/
theorem forStatement_exec {bound : Nat} {stop : Token} {tokens : List Token} {s : Stmt}
    (h : (Parser.forStatement bound (Parser.statement bound) stop tokens).result = .ok s) :
    ∃ f : ForClauses,
      (Parser.forClauses bound (Parser.statement bound) stop tokens).result = .ok f ∧
      (∀ (rounds : Nat) (m : Machine), s.exec rounds m = f.run rounds m) ∧
      ∀ (rounds : Nat) (m : Machine), m.chain.Grows [] (f.body.exec rounds m).2.chain := by
  have hyields := Parser.forClauses_yields bound
    (Parser.statement_yields (S := fun _ => True) bound)
  obtain ⟨-, hregular⟩ := hyields stop tokens fun _ _ => trivial
  rw [Parser.forStatement_eq] at h
  rcases hclauses : Parser.forClauses bound (Parser.statement bound) stop tokens with
    ⟨fault | f, reports, rest⟩
  · rw [Parser.bind_of_error hclauses] at h
    cases h
  · rw [hclauses] at hregular
    have hf : f.Regular fun _ => True := hregular f rfl
    have hbody : f.body.declared = [] := hf.body.declared_eq_nil hf.isDeclare_body
    rw [Parser.bind_of_ok hclauses] at h
    cases h
    refine ⟨f, rfl, f.exec_desugar hf, fun rounds m => ?_⟩
    have hgrows := f.body.exec_grows rounds m
    rwa [hbody] at hgrows

/-- The clauses `var a = true; a; a = !a` of a loop whose body declares a variable of the same name. -/
def shadowingLoop : ForClauses :=
  let a : Token := ⟨.identifier, "a", none, 1⟩
  { initial := some (.declare a (some (.literal (.bool true))))
    condition := some (.read a)
    increment := some (.assign a (.unary ⟨.bang, "!", none, 1⟩ (.read a)))
    body := .block [.declare a none, .print (.read a)] }

/-- The tokens of the loop behind its first word. -/
def shadowingLoopTokens : List Token :=
  [(.leftParen, "("), (.varWord, "var"), (.identifier, "a"), (.equal, "="), (.trueWord, "true"),
    (.semicolon, ";"), (.identifier, "a"), (.semicolon, ";"), (.identifier, "a"), (.equal, "="),
    (.bang, "!"), (.identifier, "a"), (.rightParen, ")"), (.leftBrace, "\x7b"), (.varWord, "var"),
    (.identifier, "a"), (.semicolon, ";"), (.printWord, "print"), (.identifier, "a"),
    (.semicolon, ";"), (.rightBrace, "\x7d")].map fun (kind, lexeme) => ⟨kind, lexeme, none, 1⟩

/-- The increment of the loop assigns the variable of the first clause and not that of the body. -/
theorem forStatement_exec_shadowingLoop :
    (Parser.forStatement 21 (Parser.statement 21) (Item.endMark 1) shadowingLoopTokens).result =
        .ok shadowingLoop.desugar ∧
      ∃ f, (Parser.forClauses 21 (Parser.statement 21) (Item.endMark 1) shadowingLoopTokens).result =
          .ok f ∧
        shadowingLoop.desugar.exec 2 ⟨.root .empty, .unlimited⟩ =
          f.run 2 ⟨.root .empty, .unlimited⟩ := by
  have hread : (Parser.forStatement 21 (Parser.statement 21) (Item.endMark 1)
      shadowingLoopTokens).result = .ok shadowingLoop.desugar := rfl
  obtain ⟨f, hclauses, hexec, -⟩ := forStatement_exec hread
  exact ⟨hread, f, hclauses, hexec 2 _⟩

end LoxLang
