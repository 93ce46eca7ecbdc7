import LoxLang.Proofs.Tree.Tokens
import LoxLang.Run.Exec

/-!
# What an execution does to a machine

An execution changes its machine by assigning variables, by printing, by declaring variables and by
entering and leaving scopes. `Frame` lists what a relation between a machine and a later one needs in order
to hold across each of these, as far as only certain variables are written, and `Frame.exec` gives it for
every statement and however the execution ended. Two frames are used here: the scopes of the chain stay
where they are and only the innermost one is bound more names, those that the statement declares outside
of its blocks (`Stmt.exec_grows`); and of a sink only the bytes it holds change (`Stmt.execAll_sink`).
-/

namespace LoxLang

/-! ## Evaluations in sequence -/

/-- Goes on with the value of an evaluation, on the chain behind it. -/
def Evaluated.andThen (next : Value → Chain → Evaluated × Chain) :
    Evaluated × Chain → Evaluated × Chain
  | (.error fault, c) => (.error fault, c)
  | (.ok value, c) => next value c

namespace Expr

/-- A unary operator is applied behind the evaluation of its operand. -/
theorem eval_unary (operator : Token) (right : Expr) (c : Chain) :
    (unary operator right).eval c =
      Evaluated.andThen (fun v c => (applyUnary operator v, c)) (right.eval c) := by
  rw [eval]
  rcases right.eval c with ⟨_ | _, d⟩ <;> rfl

/-- An infix operator is applied behind the evaluations of both operands, the left one first. -/
theorem eval_binary (left : Expr) (operator : Token) (right : Expr) (c : Chain) :
    (binary left operator right).eval c =
      Evaluated.andThen
        (fun x c => Evaluated.andThen (fun y c => (applyBinary operator x y, c)) (right.eval c))
        (left.eval c) := by
  rw [eval]
  rcases left.eval c with ⟨_ | x, d⟩
  · rfl
  · rcases hright : right.eval d with ⟨_ | y, d'⟩ <;> simp only [Evaluated.andThen, hright]

/-- What a logical operator does with the value of its left operand. -/
def shortCircuit (operator : Token) (right : Expr) (x : Value) (c : Chain) : Evaluated × Chain :=
  match decides operator x with
  | .error fault => (.error fault, c)
  | .ok true => (.ok x, c)
  | .ok false => right.eval c

/-- The right operand of a logical operator is evaluated behind the left one, unless that one decides. -/
theorem eval_logical (left : Expr) (operator : Token) (right : Expr) (c : Chain) :
    (logical left operator right).eval c =
      Evaluated.andThen (shortCircuit operator right) (left.eval c) := by
  rw [eval]
  rcases left.eval c with ⟨_ | x, d⟩ <;> rfl

/-- A value is assigned behind its evaluation. -/
theorem eval_assign (name : Token) (value : Expr) (c : Chain) :
    (assign name value).eval c = Evaluated.andThen (assignVariable name) (value.eval c) := by
  rw [eval]
  rcases value.eval c with ⟨_ | v, d⟩ <;> rfl

/-- A relation between a chain and a later one that the assignments in an expression keep is kept by the
expression. -/
theorem eval_keeps {Q : Chain → Chain → Prop} (refl : ∀ c, Q c c)
    (trans : ∀ {c d e}, Q c d → Q d e → Q c e) (e : Expr)
    (assign : ∀ name ∈ e.targets, ∀ v c, Q c (assignVariable name v c).2) (c : Chain) :
    Q c (e.eval c).2 := by
  -- Operands are evaluated one after the other, each on the chain that the one before it left.
  have sequence {next : Value → Chain → Evaluated × Chain} {c : Chain} {p : Evaluated × Chain}
      (hp : Q c p.2) (hnext : ∀ v d, Q d (next v d).2) : Q c (Evaluated.andThen next p).2 := by
    rcases p with ⟨_ | v, d⟩
    · exact hp
    · exact trans hp (hnext v d)
  induction e generalizing c with
  | literal | read => exact refl c
  | grouping inner ih => exact ih assign c
  | unary operator right ih =>
    rw [eval_unary]
    exact sequence (ih assign c) fun _ => refl
  | binary left operator right ihleft ihright =>
    obtain ⟨hleft, hright⟩ := List.forall_mem_append.1 assign
    rw [eval_binary]
    exact sequence (ihleft hleft c) fun _ d => sequence (ihright hright d) fun _ => refl
  | logical left operator right ihleft ihright =>
    obtain ⟨hleft, hright⟩ := List.forall_mem_append.1 assign
    rw [eval_logical]
    refine sequence (ihleft hleft c) fun x d => ?_
    rw [shortCircuit]
    rcases decides operator x with _ | _ | _
    · exact refl d
    · exact ihright hright d
    · exact refl d
  | assign name value ih =>
    obtain ⟨hname, hvalue⟩ := List.forall_mem_cons.1 assign
    rw [eval_assign]
    exact sequence (ih hvalue c) hname

end Expr

/-! ## Executions in sequence -/

/-- Goes on behind an execution that completed. -/
def Completion.andThen (next : Machine → Completion × Machine) :
    Completion × Machine → Completion × Machine
  | (.done, m) => next m
  | (.stopped fault, m) => (.stopped fault, m)
  | (.unfinished, m) => (.unfinished, m)

/-- Three executions in a row can be put together from either end. -/
theorem Completion.andThen_assoc (next later : Machine → Completion × Machine)
    (ended : Completion × Machine) :
    andThen later (andThen next ended) = andThen (fun m => andThen later (next m)) ended := by
  rcases ended with ⟨_ | _ | _, m⟩ <;> rfl

section
variable {e : Expr} {c d : Chain}

/-- Behind a value, execution goes on with it on the chain that the evaluation leaves. -/
theorem Machine.evalThen_of_ok {v : Value} (h : e.eval c = (.ok v, d))
    (next : Value → Machine → Completion × Machine) (sink : Sink) :
    evalThen e next ⟨c, sink⟩ = next v ⟨d, sink⟩ := by
  rw [evalThen, eval, h]

/-- Behind a fault, execution stops at it on the chain that the evaluation leaves. -/
theorem Machine.evalThen_of_error {fault : RuntimeFault} (h : e.eval c = (.error fault, d))
    (next : Value → Machine → Completion × Machine) (sink : Sink) :
    evalThen e next ⟨c, sink⟩ = (.stopped (.runtime fault), ⟨d, sink⟩) := by
  rw [evalThen, eval, h]

end

/-- A loop with rounds left evaluates its condition and, if that holds, executes its body and goes on with a round
less. -/
theorem Machine.loop_succ (condition : Expr) (body : Machine → Completion × Machine) (rounds : Nat)
    (m : Machine) :
    Machine.loop condition body (rounds + 1) m =
      m.evalThen condition fun v m =>
        if v.truthy then Completion.andThen (Machine.loop condition body rounds) (body m)
        else (.done, m) := by
  rw [Machine.loop, Machine.evalThen]
  rcases m.eval condition with ⟨_ | v, n⟩
  · rfl
  · dsimp only
    rcases body n with ⟨_ | _ | _, k⟩ <;> rfl

/-- Statements are executed behind the first of them. -/
theorem Stmt.execAll_cons (rounds : Nat) (s : Stmt) (rest : List Stmt) (m : Machine) :
    Stmt.execAll rounds (s :: rest) m =
      Completion.andThen (Stmt.execAll rounds rest) (s.exec rounds m) := by
  rw [Stmt.execAll]
  rcases s.exec rounds m with ⟨_ | _ | _, n⟩ <;> rfl

/-- A single statement in a row is executed as it is alone. -/
theorem Stmt.execAll_singleton (rounds : Nat) (s : Stmt) (m : Machine) :
    Stmt.execAll rounds [s] m = s.exec rounds m := by
  rw [execAll_cons]
  rcases s.exec rounds m with ⟨_ | _ | _, n⟩ <;> rfl

/-- The second of two lists of statements is executed behind the first. -/
theorem Stmt.execAll_append_andThen (rounds : Nat) (first second : List Stmt) (m : Machine) :
    Stmt.execAll rounds (first ++ second) m =
      Completion.andThen (Stmt.execAll rounds second) (Stmt.execAll rounds first m) := by
  rw [Stmt.execAll_append]
  rcases Stmt.execAll rounds first m with ⟨_ | _ | _, n⟩ <;> rfl

/-- A declaration without an initial value is one with `null`. -/
theorem Stmt.exec_declare (rounds : Nat) (name : Token) (initial : Option Expr) (m : Machine) :
    (Stmt.declare name initial).exec rounds m =
      m.evalThen (initial.getD (.literal .null)) fun v m => (.done, m.define name v) := by
  cases initial <;> rw [Stmt.exec] <;> rfl

/-- What stands behind a declaration is executed with its name bound. -/
theorem Stmt.execAll_declare_cons (rounds : Nat) (name : Token) (initial : Option Expr)
    (rest : List Stmt) (m : Machine) :
    Stmt.execAll rounds (.declare name initial :: rest) m =
      m.evalThen (initial.getD (.literal .null)) fun v m =>
        Stmt.execAll rounds rest (m.define name v) := by
  rw [Stmt.execAll_cons, Stmt.exec_declare, Machine.evalThen, Machine.evalThen]
  rcases m.eval (initial.getD (.literal .null)) with ⟨_ | v, n⟩ <;> rfl

/-! ## Frames -/

/-- A relation between a machine and a later one, in view of the names declared in between, that holds
across everything an execution does which writes only variables that satisfy `W`. -/
structure Frame (W : Token → Prop) (Q : List Token → Machine → Machine → Prop) : Prop where
  refl : ∀ m, Q [] m m
  trans : ∀ {new : List Token} {m n k : Machine}, Q new m n → Q new n k → Q new m k
  mono : ∀ {new more : List Token} {m n : Machine}, new ⊆ more → Q new m n → Q more m n
  assign : ∀ {name : Token}, W name → ∀ (v : Value) (m : Machine),
    Q [] m { m with chain := (assignVariable name v m.chain).2 }
  print : ∀ (v : Value) (m : Machine), Q [] m (m.print v).2
  define : ∀ {name : Token}, W name → ∀ (v : Value) (m : Machine), Q [name] m (m.define name v)
  scope : ∀ {new : List Token} {m n : Machine}, Q new m.enter n → Q [] m n.leave

namespace Frame

variable {W : Token → Prop} {Q : List Token → Machine → Machine → Prop} {new : List Token}

/-- A machine is in the relation to itself, whatever may have been declared. -/
theorem same (h : Frame W Q) (m : Machine) : Q new m m :=
  h.mono (List.nil_subset new) (h.refl m)

/-- An evaluation only assigns variables. -/
theorem eval (h : Frame W Q) {e : Expr} (he : ∀ t ∈ e.targets, W t) (m : Machine) :
    Q new m (m.eval e).2 := by
  have hassign : ∀ name ∈ e.targets, ∀ v c,
      Q new ⟨c, m.sink⟩ ⟨(assignVariable name v c).2, m.sink⟩ := by
    intro name hname v c
    exact h.mono (List.nil_subset new) (h.assign (he name hname) v ⟨c, m.sink⟩)
  exact e.eval_keeps (Q := fun c d => Q new ⟨c, m.sink⟩ ⟨d, m.sink⟩) (fun c => h.same _) h.trans
    hassign m.chain

/-- The rule for an evaluation and what goes on with its value. -/
theorem evalThen (h : Frame W Q) {e : Expr} (he : ∀ t ∈ e.targets, W t)
    {next : Value → Machine → Completion × Machine} (hnext : ∀ v m, Q new m (next v m).2)
    (m : Machine) : Q new m (m.evalThen e next).2 := by
  have hm : Q new m (m.eval e).2 := h.eval he m
  rw [Machine.evalThen]
  rcases hn : m.eval e with ⟨_ | v, n⟩
  · rw [hn] at hm
    exact hm
  · rw [hn] at hm
    exact h.trans hm (hnext v n)

/-- The rule for an execution and what follows if it completes. -/
theorem sequence (h : Frame W Q) {next : Machine → Completion × Machine}
    (hnext : ∀ m, Q new m (next m).2) {m : Machine} {p : Completion × Machine} (hp : Q new m p.2) :
    Q new m (Completion.andThen next p).2 := by
  rcases p with ⟨_ | _ | _, n⟩
  · exact h.trans hp (hnext n)
  · exact hp
  · exact hp

/-- The rule for a loop: the condition and the body of each round keep the relation. -/
theorem loop (h : Frame W Q) {condition : Expr} (hcondition : ∀ t ∈ condition.targets, W t)
    {body : Machine → Completion × Machine} (hbody : ∀ m, Q new m (body m).2) (rounds : Nat)
    (m : Machine) : Q new m (Machine.loop condition body rounds m).2 := by
  induction rounds generalizing m with
  | zero => exact h.same m
  | succ rounds ih =>
    rw [Machine.loop_succ]
    refine h.evalThen hcondition (fun v n => ?_) m
    split
    · exact h.sequence ih (hbody n)
    · exact h.same n

/-- The rule for statements in a row, each of which keeps the relation with what it declares. -/
theorem execAll_of_forall (h : Frame W Q) (rounds : Nat) (body : List Stmt)
    (hbody : ∀ s ∈ body, ∀ m, Q s.declared m (s.exec rounds m).2) (m : Machine) :
    Q (body.flatMap Stmt.declared) m (Stmt.execAll rounds body m).2 := by
  induction body generalizing m with
  | nil => exact h.same m
  | cons s rest ih =>
    obtain ⟨hs, hrest⟩ := List.forall_mem_cons.1 hbody
    rw [Stmt.execAll_cons, List.flatMap_cons]
    refine h.sequence (fun n => ?_) ?_
    · exact h.mono (List.subset_append_right _ _) (ih hrest n)
    · exact h.mono (List.subset_append_left _ _) (hs m)

/-- A frame holds across a statement, however its execution ended. -/
theorem exec (h : Frame W Q) (rounds : Nat) {s : Stmt} (hs : ∀ t ∈ s.targets, W t) (m : Machine) :
    Q s.declared m (s.exec rounds m).2 := by
  induction s using Stmt.recData generalizing m with
  | expression e =>
    rw [Stmt.exec]
    exact h.evalThen hs (fun _ => h.same) m
  | print e =>
    rw [Stmt.exec]
    exact h.evalThen hs h.print m
  | declare name initial =>
    obtain ⟨hname, hinitial⟩ := List.forall_mem_cons.1 hs
    rw [Stmt.exec_declare]
    exact h.evalThen hinitial (h.define hname) m
  | block body ih =>
    rw [Stmt.targets, Stmt.targetsAll_eq_flatMap, List.forall_mem_flatMap] at hs
    rw [Stmt.exec]
    exact h.scope (h.execAll_of_forall rounds body (fun s hmem => ih s hmem (hs s hmem)) m.enter)
  | ifThen condition yes ih =>
    obtain ⟨hcondition, hyes⟩ := List.forall_mem_append.1 hs
    rw [Stmt.exec]
    refine h.evalThen hcondition (fun v n => ?_) m
    split
    · exact ih hyes n
    · exact h.same n
  | ifThenElse condition yes no ihyes ihno =>
    obtain ⟨hboth, hno⟩ := List.forall_mem_append.1 hs
    obtain ⟨hcondition, hyes⟩ := List.forall_mem_append.1 hboth
    rw [Stmt.exec]
    refine h.evalThen hcondition (fun v n => ?_) m
    split
    · exact h.mono (List.subset_append_left _ _) (ihyes hyes n)
    · exact h.mono (List.subset_append_right _ _) (ihno hno n)
  | whileLoop condition body ih =>
    obtain ⟨hcondition, hbody⟩ := List.forall_mem_append.1 hs
    rw [Stmt.exec]
    exact h.loop hcondition (ih hbody) rounds m

/-- A frame holds across statements in a row, however their execution ended. -/
theorem execAll (h : Frame W Q) (rounds : Nat) {body : List Stmt}
    (hbody : ∀ s ∈ body, ∀ t ∈ s.targets, W t) (m : Machine) :
    Q (body.flatMap Stmt.declared) m (Stmt.execAll rounds body m).2 :=
  h.execAll_of_forall rounds body (fun s hs => h.exec rounds (hbody s hs)) m

end Frame

/-! ## Scopes keep their names -/

/-- The second scope binds the names of the first and then some of the new ones. -/
def Scope.Grows (new : List String) (s t : Scope) : Prop :=
  ∃ gained, gained ⊆ new ∧ t.names = s.names ++ gained

/-- A scope grows by nothing into itself. -/
theorem Scope.Grows.refl (s : Scope) : s.Grows [] s :=
  ⟨[], List.nil_subset _, (List.append_nil _).symm⟩

/-- A scope grows in two steps by what each of them adds. -/
theorem Scope.Grows.trans {new : List String} {s t u : Scope} (hs : s.Grows new t)
    (ht : t.Grows new u) : s.Grows new u := by
  obtain ⟨a, ha, hnames⟩ := hs
  obtain ⟨b, hb, hnames'⟩ := ht
  exact ⟨a ++ b, List.append_subset.2 ⟨ha, hb⟩, by rw [hnames', hnames, List.append_assoc]⟩

/-- A scope that grows by some of a few names grows by some of more names. -/
theorem Scope.Grows.mono {new more : List String} {s t : Scope} (hnew : new ⊆ more)
    (h : s.Grows new t) : s.Grows more t := by
  obtain ⟨gained, hgained, hnames⟩ := h
  exact ⟨gained, List.Subset.trans hgained hnew, hnames⟩

/-- Putting a name keeps the names in their order and adds the name at the end if it is new. -/
theorem Scope.map_fst_put (name : String) (v : Value) (l : List (String × Value)) :
    (Scope.put name v l).map Prod.fst =
      if name ∈ l.map Prod.fst then l.map Prod.fst else l.map Prod.fst ++ [name] := by
  induction l with
  | nil => rfl
  | cons p rest ih =>
    obtain ⟨n, w⟩ := p
    by_cases hn : n = name
    · simp [Scope.put, hn]
    · have hmem : name ∈ n :: rest.map Prod.fst ↔ name ∈ rest.map Prod.fst := by
        rw [List.mem_cons, or_iff_right (Ne.symm hn)]
      rw [Scope.put, if_neg hn, List.map_cons, List.map_cons, ih]
      by_cases h : name ∈ rest.map Prod.fst
      · rw [if_pos h, if_pos (hmem.2 h)]
      · rw [if_neg h, if_neg (mt hmem.1 h), List.cons_append]

/-- Binding a name that is bound adds none, and any other name adds itself. -/
theorem Scope.names_define (s : Scope) (name : String) (v : Value) :
    (s.define name v).names = if name ∈ s.names then s.names else s.names ++ [name] :=
  Scope.map_fst_put name v s.bindings

/-- A name has a value exactly when it is bound. -/
theorem Scope.isSome_get?_iff (s : Scope) (name : String) :
    (s.get? name).isSome ↔ name ∈ s.names := by
  rw [Scope.get?, Scope.names, List.lookup_isSome_iff, List.mem_map]
  simp only [beq_iff_eq, eq_comm (a := name)]

/-- Binding a name grows a scope by that name at most. -/
theorem Scope.Grows.define (s : Scope) (name : String) (v : Value) :
    s.Grows [name] (s.define name v) := by
  rw [Scope.Grows, Scope.names_define]
  split
  · exact ⟨[], List.nil_subset _, (List.append_nil _).symm⟩
  · exact ⟨[name], List.Subset.refl _, rfl⟩

/-- Binding a name again leaves the names as they are. -/
theorem Scope.Grows.assign {s : Scope} {name : String} (h : (s.get? name).isSome) (v : Value) :
    s.Grows [] (s.define name v) := by
  rw [Scope.Grows, Scope.names_define, if_pos ((s.isSome_get?_iff name).1 h)]
  exact Scope.Grows.refl s

namespace Chain

/-- The chains are equally long, the innermost scope of the second binds some of the new names besides
those of the first, and every other scope binds the same names. -/
def Grows : List String → Chain → Chain → Prop
  | new, root s, root t => s.Grows new t
  | new, inner s c, inner t d => s.Grows new t ∧ Grows [] c d
  | _, root _, inner _ _ | _, inner _ _, root _ => False

namespace Grows

/-- A chain grows by nothing into itself. -/
theorem refl (c : Chain) : c.Grows [] c := by
  induction c with
  | root s => exact Scope.Grows.refl s
  | inner s outer ih => exact ⟨.refl s, ih⟩

/-- A chain grows in two steps by what each of them adds. -/
theorem trans {new : List String} {c d e : Chain} (hc : c.Grows new d) (hd : d.Grows new e) :
    c.Grows new e := by
  induction c generalizing new d e with
  | root s =>
    cases d with
    | inner => exact hc.elim
    | root t =>
    cases e with
    | inner => exact hd.elim
    | root u => exact Scope.Grows.trans hc hd
  | inner s c ih =>
    cases d with
    | root => exact hc.elim
    | inner t d =>
    cases e with
    | root => exact hd.elim
    | inner u e => exact ⟨hc.1.trans hd.1, ih hc.2 hd.2⟩

/-- A chain that grows by some of a few names grows by some of more names. -/
theorem mono {new more : List String} {c d : Chain} (hnew : new ⊆ more) (h : c.Grows new d) :
    c.Grows more d := by
  cases c <;> cases d
  case root.root => exact Scope.Grows.mono hnew h
  case root.inner | inner.root => exact h
  case inner.inner => exact ⟨h.1.mono hnew, h.2⟩

/-- A definition grows a chain by its name at most. -/
theorem define (name : String) (v : Value) (c : Chain) : c.Grows [name] (c.define name v) := by
  cases c with
  | root s => exact Scope.Grows.define s name v
  | inner s outer => exact ⟨.define s name v, .refl outer⟩

/-- An assignment grows a chain by nothing, since the owner binds the name already. -/
theorem assign {name : String} {v : Value} {c d : Chain} (h : c.assign? name v = some d) :
    c.Grows [] d := by
  induction c generalizing d with
  | root s =>
    obtain ⟨hs, hd⟩ := Option.ite_none_right_eq_some.1 h
    cases hd
    exact Scope.Grows.assign hs v
  | inner s outer ih =>
    rw [assign?] at h
    split at h
    · next hs =>
      cases h
      exact ⟨.assign hs v, .refl outer⟩
    · obtain ⟨outer', houter, rfl⟩ := Option.map_eq_some_iff.1 h
      exact ⟨.refl s, ih houter⟩

/-- What a chain gained in its innermost scope is gone with that scope. -/
theorem leave {new : List String} {s : Scope} {c d : Chain} (h : (inner s c).Grows new d) :
    c.Grows [] d.leave := by
  cases d with
  | root => exact h.elim
  | inner t d => exact h.2

end Grows

/-- A chain that has only its root has no more behind an execution. -/
theorem Grows.eq_root {new : List String} {s : Scope} {c : Chain} (h : (root s).Grows new c) :
    c = root c.globals := by
  cases c with
  | root t => rfl
  | inner t d => exact h.elim

end Chain

/-- The chain behind an execution has grown by declared names. -/
theorem Frame.grows :
    Frame (fun _ => True) fun new m n => m.chain.Grows (new.map Token.lexeme) n.chain where
  refl m := .refl m.chain
  trans := .trans
  mono hnew := .mono (List.map_subset _ hnew)
  assign _ v m := by
    rw [assignVariable]
    split
    · next h => exact .assign h
    · exact .refl m.chain
  print v m := by
    rw [Machine.print]
    split <;> exact .refl m.chain
  define {name} _ v m := .define name.lexeme v m.chain
  scope := .leave

/-- However an execution ends, the scopes of the chain are those from before it; they bind the names they
bound, and the innermost one besides them some of those the statement declares outside of its blocks. -/
theorem Stmt.exec_grows (rounds : Nat) (s : Stmt) (m : Machine) :
    m.chain.Grows (s.declared.map Token.lexeme) (s.exec rounds m).2.chain :=
  Frame.grows.exec rounds (fun _ _ => trivial) m

/-- However the execution of statements in a row ends, the chain has grown by names that they declare outside of
their blocks. -/
theorem Stmt.execAll_grows (rounds : Nat) (body : List Stmt) (m : Machine) :
    m.chain.Grows ((body.flatMap Stmt.declared).map Token.lexeme)
      (Stmt.execAll rounds body m).2.chain :=
  Frame.grows.execAll rounds (fun _ _ _ _ => trivial) m

/-! ## Sinks keep their limits -/

/-- The second sink is the first one with other bytes in it. -/
def Sink.SameLimits (s t : Sink) : Prop :=
  t.limit = s.limit ∧ t.refusesFlush = s.refusesFlush

/-- Writing changes the bytes that a sink holds and neither of its limits. -/
theorem Sink.SameLimits.write (s : Sink) (bytes : ByteArray) : s.SameLimits (s.write bytes).2 := by
  rw [Sink.write]
  split <;> exact ⟨rfl, rfl⟩

/-- The sink behind an execution has the limits of the sink before it. -/
theorem Frame.sameLimits : Frame (fun _ => True) fun _ m n => m.sink.SameLimits n.sink where
  refl _ := ⟨rfl, rfl⟩
  trans h h' := ⟨h'.1.trans h.1, h'.2.trans h.2⟩
  mono _ h := h
  assign _ _ _ := ⟨rfl, rfl⟩
  print v m := by
    have h := Sink.SameLimits.write m.sink (Machine.printed v)
    rw [Machine.print]
    split <;> next hwrite => rw [hwrite] at h; exact h
  define _ _ _ := ⟨rfl, rfl⟩
  scope h := h

/-- Of a sink an execution changes nothing but the bytes it holds. -/
theorem Stmt.execAll_sink (rounds : Nat) (body : List Stmt) (m : Machine) :
    m.sink.SameLimits (Stmt.execAll rounds body m).2.sink :=
  Frame.sameLimits.execAll rounds (fun _ _ _ _ => trivial) m

end LoxLang
