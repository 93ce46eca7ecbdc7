import LoxLang.Proofs.Session.Reports

/-!
# Scopes behind an execution, and sessions at rest

A block is executed in a scope of its own, and an execution can stop anywhere in it. However it ends, the
scope in effect behind it is the one from before (`Chain.Restored`): the chain is as long as it was, no
scope of it has lost a name, and only the innermost one may have gained some, those that are declared
outside of blocks. `Stmt.exec_restored` says so for every statement, and `Stmt.execAll_leave_restored` for
statements in a scope that is supplied from outside.

A session keeps its root scope between calls and forgets its chain. `Machine.perform` keeps the whole
machine instead: a run goes back to the root before it starts, but an evaluation takes the machine as the
call before left it. The two come to the same (`machine_performAll`), because no call leaves a scope
behind; what the root binds was declared at the top level of a run (`declares_of_mem_globals`).
-/

namespace LoxLang

/-! ## Chains place by place -/

namespace Chain

/-- The scopes of a chain, the innermost one first. -/
def scopes : Chain → List Scope
  | root s => [s]
  | inner s outer => s :: outer.scopes

/-- The scope at a place of the chain, counted from the innermost one, binds the name. -/
def BindsAt (c : Chain) (place : Nat) (name : String) : Prop :=
  ∃ s, c.scopes[place]? = some s ∧ (s.get? name).isSome

/-- The chain behind an execution still has the scope in effect before it as its innermost one, with all
scopes around it. None of them has lost a name, and only the innermost one has new ones. -/
structure Restored (new : List String) (before after : Chain) : Prop where
  length : after.scopes.length = before.scopes.length
  kept : ∀ place name, before.BindsAt place name → after.BindsAt place name
  outer : ∀ place name, after.BindsAt (place + 1) name → before.BindsAt (place + 1) name
  innermost : ∀ name, after.BindsAt 0 name → before.BindsAt 0 name ∨ name ∈ new

/-- The only place of a root binds the names of its scope. -/
theorem bindsAt_root_zero {s : Scope} {name : String} :
    (root s).BindsAt 0 name ↔ name ∈ s.names := by
  simp [BindsAt, scopes, s.isSome_get?_iff]

/-- A root has no further place. -/
theorem not_bindsAt_root_succ {s : Scope} {place : Nat} {name : String} :
    ¬(root s).BindsAt (place + 1) name := by
  simp [BindsAt, scopes]

/-- The first place of a chain binds the names of its innermost scope. -/
theorem bindsAt_inner_zero {s : Scope} {outer : Chain} {name : String} :
    (inner s outer).BindsAt 0 name ↔ name ∈ s.names := by
  simp [BindsAt, scopes, s.isSome_get?_iff]

/-- The other places of a chain are those of the chain around its innermost scope. -/
theorem bindsAt_inner_succ {s : Scope} {outer : Chain} {place : Nat} {name : String} :
    (inner s outer).BindsAt (place + 1) name ↔ outer.BindsAt place name := by
  simp [BindsAt, scopes]

end Chain

/-- A scope that grows loses no name. -/
theorem Scope.Grows.mem_names_of_mem {new : List String} {s t : Scope} (h : s.Grows new t)
    {name : String} (hname : name ∈ s.names) : name ∈ t.names := by
  obtain ⟨gained, -, hnames⟩ := h
  rw [hnames]
  exact List.mem_append_left _ hname

/-- A scope that grows gains none but new names. -/
theorem Scope.Grows.mem_names_or_mem_new {new : List String} {s t : Scope} (h : s.Grows new t)
    {name : String} (hname : name ∈ t.names) : name ∈ s.names ∨ name ∈ new := by
  obtain ⟨gained, hgained, hnames⟩ := h
  rw [hnames] at hname
  exact (List.mem_append.1 hname).imp_right fun hname => hgained hname

namespace Chain

/-- A chain that has grown is restored, scope by scope. -/
theorem Grows.restored {new : List String} {c d : Chain} (h : c.Grows new d) : Restored new c d := by
  induction c generalizing new d with
  | root s =>
    cases d with
    | inner => exact h.elim
    | root t =>
      have hscope : s.Grows new t := h
      refine ⟨rfl, ?_, ?_, ?_⟩
      · rintro (_ | place) name hbinds
        · exact bindsAt_root_zero.2 (hscope.mem_names_of_mem (bindsAt_root_zero.1 hbinds))
        · exact (not_bindsAt_root_succ hbinds).elim
      · exact fun place name hbinds => (not_bindsAt_root_succ hbinds).elim
      · intro name hbinds
        rw [bindsAt_root_zero] at hbinds ⊢
        exact hscope.mem_names_or_mem_new hbinds
  | inner s c ih =>
    cases d with
    | root => exact h.elim
    | inner t d =>
      obtain ⟨hscope, houter⟩ := h
      have hrestored := ih houter
      refine ⟨congrArg (· + 1) hrestored.length, ?_, ?_, ?_⟩
      · rintro (_ | place) name hbinds
        · exact bindsAt_inner_zero.2 (hscope.mem_names_of_mem (bindsAt_inner_zero.1 hbinds))
        · exact bindsAt_inner_succ.2 (hrestored.kept place name (bindsAt_inner_succ.1 hbinds))
      · intro place name hbinds
        rw [bindsAt_inner_succ] at hbinds ⊢
        -- No scope around the innermost one has a new name, the next one included.
        cases place with
        | zero => exact (hrestored.innermost name hbinds).resolve_right List.not_mem_nil
        | succ place => exact hrestored.outer place name hbinds
      · intro name hbinds
        rw [bindsAt_inner_zero] at hbinds ⊢
        exact hscope.mem_names_or_mem_new hbinds

/-- A root that has grown has only new names more. -/
theorem Grows.globals {new : List String} {s : Scope} {c : Chain} (h : (root s).Grows new c)
    {name : String} (hname : name ∈ c.globals.names) : name ∈ s.names ∨ name ∈ new := by
  cases c with
  | root t => exact Scope.Grows.mem_names_or_mem_new h hname
  | inner => exact h.elim

end Chain

/-- Whatever the statement and however its execution ends, the scope in effect is the one from before, and
it has at most the names more that the statement declares outside of its blocks. -/
theorem Stmt.exec_restored (rounds : Nat) (s : Stmt) (m : Machine) :
    Chain.Restored (s.declared.map Token.lexeme) m.chain (s.exec rounds m).2.chain :=
  (s.exec_grows rounds m).restored

/-- Statements that are executed in a supplied scope, whatever it binds, leave the chain around it as they
found it. -/
theorem Stmt.execAll_leave_restored (rounds : Nat) (body : List Stmt) (supplied : Scope) (m : Machine) :
    Chain.Restored [] m.chain
      (Stmt.execAll rounds body ⟨.inner supplied m.chain, m.sink⟩).2.leave.chain :=
  (Stmt.execAll_grows rounds body ⟨.inner supplied m.chain, m.sink⟩).leave.restored

/-! ## Calls on a machine -/

namespace Session

/-- The session behind a program is that of the machine behind it, also where the sink cannot be flushed. -/
theorem snd_interpret (rounds : Nat) (program : List Stmt) (s : Session) :
    (s.interpret rounds program).2 = ofMachine (Stmt.execAll rounds program s.machine).2 := by
  rw [interpret]
  rcases Stmt.execAll rounds program s.machine with ⟨_ | _ | _, m⟩
  · dsimp only
    split <;> rfl
  · rfl
  · rfl

/-- The session behind a run, however it ended. -/
theorem session_run (rounds : Nat) (source : String) (s : Session) :
    (s.run rounds source).session =
      if (Source.program source).2.hasStatic then s
      else ofMachine (Stmt.execAll rounds (Source.program source).1 s.machine).2 := by
  rw [← snd_interpret, run]
  dsimp only
  split
  · rfl
  · rcases s.interpret rounds (Source.program source).1 with ⟨_ | _ | _, s'⟩ <;> rfl

/-- The expression that a unit is evaluated as, if it has no static fault. -/
def evaluable? (source : String) : Option Expr :=
  match Source.expression source with
  | (some e, ds) => if ds.hasStatic then none else some e
  | (none, _) => none

/-- The session behind an evaluation, however it ended. -/
theorem session_evaluate (source : String) (s : Session) :
    (s.evaluate source).2.2 =
      match evaluable? source with
      | some e => ofMachine (s.machine.eval e).2
      | none => s := by
  rw [evaluate, evaluable?]
  rcases Source.expression source with ⟨_ | e, ds⟩
  · rfl
  · dsimp only
    split
    · rfl
    · dsimp only
      rw [evaluateExpr]
      rcases s.machine.eval e with ⟨_ | v, m⟩ <;> rfl

end Session

namespace Machine

/-- The machine behind a call on it. A run starts from the root of the chain, whatever chain there is, and
an evaluation from the chain itself; a unit with a static fault is not executed. -/
def perform (m : Machine) : Session.Call → Machine
  | .run rounds source =>
    if (Source.program source).2.hasStatic then m
    else (Stmt.execAll rounds (Source.program source).1 ⟨.root m.chain.globals, m.sink⟩).2
  | .evaluate source =>
    match Session.evaluable? source with
    | some e => (m.eval e).2
    | none => m

/-- The machine behind calls on it one after the other. -/
def performAll (m : Machine) (calls : List Session.Call) : Machine :=
  calls.foldl perform m

end Machine

namespace Session

/-- The session behind calls on it one after the other. -/
def afterAll (s : Session) (calls : List Call) : Session :=
  calls.foldl (fun s call => (s.perform call).session) s

/-- Behind an evaluation from a session at rest, the root scope is the innermost one again. -/
theorem machine_ofMachine_eval (e : Expr) (s : Session) :
    (ofMachine (s.machine.eval e).2).machine = (s.machine.eval e).2 := by
  have hroot := Chain.Grows.eq_root (Machine.eval_grows e s.machine)
  rw [machine, ofMachine, ← hroot]

/-- A call on a machine at rest leaves it at rest, as the session that the call leaves. -/
theorem machine_perform (s : Session) (call : Call) :
    s.machine.perform call = (s.perform call).session.machine := by
  cases call with
  | run rounds source =>
    have hsession : (s.perform (.run rounds source)).session = (s.run rounds source).session := rfl
    rw [hsession, session_run, Machine.perform]
    split
    · rfl
    · exact (machine_ofMachine_execAll rounds _ s).symm
  | evaluate source =>
    have hsession : (s.perform (.evaluate source)).session = (s.evaluate source).2.2 := rfl
    rw [hsession, session_evaluate, Machine.perform]
    cases evaluable? source with
    | none => rfl
    | some e => exact (machine_ofMachine_eval e s).symm

/-- A session may forget its chain between calls: a machine that is kept is at rest there. -/
theorem machine_performAll (s : Session) (calls : List Call) :
    s.machine.performAll calls = (s.afterAll calls).machine := by
  induction calls generalizing s with
  | nil => rfl
  | cons call rest ih =>
    have hstep := machine_perform s call
    rw [Machine.performAll, List.foldl_cons, hstep]
    exact ih (s.perform call).session

/-! ## Where the names of the root come from -/

/-- The call runs a program without static faults that declares the name at its top level. -/
def Call.Declares (name : String) : Call → Prop
  | .run _ source =>
    (Source.program source).2.hasStatic = false ∧
      ∃ t initial, .declare t initial ∈ (Source.program source).1 ∧ t.lexeme = name
  | .evaluate _ => False

/-- What a program that is read declares outside of blocks stands at its top level. -/
theorem exists_declare_of_mem_declared {tokens : List Token} {t : Token}
    (h : t ∈ (Parse.program tokens).1.flatMap Stmt.declared) :
    ∃ initial, .declare t initial ∈ (Parse.program tokens).1 := by
  obtain ⟨stmt, hstmt, ht⟩ := List.mem_flatMap.1 h
  have hregular := Parse.program_regular tokens stmt hstmt
  cases stmt with
  | declare name initial =>
    obtain rfl : t = name := List.mem_singleton.1 ht
    exact ⟨initial, hstmt⟩
  | _ =>
    rw [hregular.declared_eq_nil rfl] at ht
    cases ht

/-- A call binds no name in the root scope that it does not declare. -/
theorem declares_of_mem_perform {s : Session} {call : Call} {name : String}
    (h : name ∈ (s.perform call).session.globals.names) :
    name ∈ s.globals.names ∨ call.Declares name := by
  cases call with
  | run rounds source =>
    have hsession : (s.perform (.run rounds source)).session = (s.run rounds source).session := rfl
    rw [hsession, session_run] at h
    split at h
    · exact .inl h
    · next hstatic =>
      have hnames := (Stmt.execAll_grows rounds (Source.program source).1 s.machine).globals h
      refine hnames.imp_right fun hnew => ?_
      obtain ⟨t, ht, hlexeme⟩ := List.mem_map.1 hnew
      obtain ⟨initial, hdeclare⟩ := exists_declare_of_mem_declared ht
      exact ⟨Bool.eq_false_iff.2 hstatic, t, initial, hdeclare, hlexeme⟩
  | evaluate source =>
    have hsession : (s.perform (.evaluate source)).session = (s.evaluate source).2.2 := rfl
    rw [hsession, session_evaluate] at h
    cases he : evaluable? source with
    | none =>
      rw [he] at h
      exact .inl h
    | some e =>
      rw [he] at h
      have hnames := (Machine.eval_grows e s.machine).globals h
      exact .inl (hnames.resolve_right List.not_mem_nil)

/-- A name that is bound in the root scope behind calls was bound there before them, or one of them declares it. -/
theorem declares_of_mem_globals {s : Session} {calls : List Call} {name : String}
    (h : name ∈ (s.afterAll calls).globals.names) :
    name ∈ s.globals.names ∨ ∃ call ∈ calls, call.Declares name := by
  induction calls generalizing s with
  | nil => exact .inl h
  | cons call rest ih =>
    rcases ih h with h | ⟨earlier, hmem, hdeclares⟩
    · exact (declares_of_mem_perform h).imp_right fun hdeclares => ⟨call, List.mem_cons_self, hdeclares⟩
    · exact .inr ⟨earlier, List.mem_cons_of_mem call hmem, hdeclares⟩

/-- Scopes are restored and do not leak. Whatever statement is executed on whatever machine, and however
that ends, the scope in effect is the one from before: no scope has lost a name, and only the innermost
one has gained some, of those that the statement declares outside of blocks. Statements in a supplied
scope, inside of the chain or in a chain of its own, leave the chain from before in effect. So a session
that keeps its machine from call to call is at the root between any two of them, and the root binds only
what a run before has declared at its top level. -/
theorem scopes_restored (rounds : Nat) (sink : Sink) :
    (∀ (stmt : Stmt) (m : Machine),
        Chain.Restored (stmt.declared.map Token.lexeme) m.chain (stmt.exec rounds m).2.chain) ∧
      (∀ (body : List Stmt) (supplied : Scope) (m : Machine),
        Chain.Restored [] m.chain
          (Stmt.execAll rounds body ⟨.inner supplied m.chain, m.sink⟩).2.leave.chain) ∧
      (∀ (body : List Stmt) (supplied : Chain) (s : Session),
        (s.executeIn rounds supplied body).2.machine.chain = s.machine.chain ∧
          (Stmt.execAll rounds body ⟨supplied, s.sink⟩).2.chain.scopes.length =
            supplied.scopes.length) ∧
      ∀ calls : List Call,
        (start sink).machine.performAll calls = ((start sink).afterAll calls).machine ∧
          ((start sink).machine.performAll calls).chain = .root ((start sink).afterAll calls).globals ∧
          ∀ name, (((start sink).afterAll calls).globals.get? name).isSome →
            ∃ call ∈ calls, call.Declares name := by
  refine ⟨Stmt.exec_restored rounds, Stmt.execAll_leave_restored rounds, ?_, fun calls => ?_⟩
  · intro body supplied s
    exact ⟨rfl, (Stmt.execAll_grows rounds body ⟨supplied, s.sink⟩).restored.length⟩
  · have hrest := machine_performAll (start sink) calls
    refine ⟨hrest, congrArg Machine.chain hrest, fun name hname => ?_⟩
    rw [Scope.isSome_get?_iff] at hname
    exact (declares_of_mem_globals hname).resolve_left List.not_mem_nil

end Session

end LoxLang
