import LoxLang.Proofs.Run.Scopes

/-!
# Two executions in lockstep

A program is executed twice, on two machines whose chains of scopes are related and whose sinks are the
same, the second time with other tokens in its trees. The executions keep step if the relation survives
what an expression does to a chain, reading and assigning variables: `Tracks` says that it does, and it is
all that is asked for. `Expr.eval_step` carries it through an expression, `Stmt.exec_step` through a
statement whose lines are moved. Both executions then end the same way, up to the line of a fault, on
machines that are related again.

A block needs no assumption of its own, since the same scope is entered on both sides: `Inside p R` relates
chains with the same innermost scope, around which `R` holds, and tracks what `R` tracks. Only a name
that is declared outside of a block must be one that can be bound on both sides.
-/

namespace LoxLang

/-! ## Faults with their lines moved -/

/-- The fault with its line moved. -/
def RuntimeFault.reline (move : Nat → Nat) (f : RuntimeFault) : RuntimeFault :=
  { f with line := move f.line }

/-- The fault with its line moved; an output fault has none. -/
def RunFault.reline (move : Nat → Nat) : RunFault → RunFault
  | runtime f => runtime (f.reline move)
  | output cause => output cause

/-- The completion with the line of its fault moved. -/
def Completion.reline (move : Nat → Nat) : Completion → Completion
  | done => done
  | stopped f => stopped (f.reline move)
  | unfinished => unfinished

/-- The value, or the fault with its line moved. -/
def Evaluated.reline (move : Nat → Nat) (r : Evaluated) : Evaluated :=
  r.mapError (RuntimeFault.reline move)

/-- A completion with its line left alone is the same. -/
theorem Completion.reline_id (c : Completion) : c.reline id = c := by
  cases c with
  | done | unfinished => rfl
  | stopped f => cases f <;> rfl

/-- An answer with its line left alone is the same. -/
theorem Evaluated.reline_id (r : Evaluated) : r.reline id = r := by
  cases r <;> rfl

/-! ## Operators do not look at lines -/

/-- A unary operator does with lines moved what it does, up to the line of its fault. -/
theorem applyUnary_reline (move : Nat → Nat) (operator : Token) (v : Value) :
    applyUnary (operator.reline move) v = Evaluated.reline move (applyUnary operator v) := by
  simp only [applyUnary, Token.reline_kind]
  split
  · rfl
  · cases v <;> rfl
  · rfl

/-- An operator on numbers does with lines moved what it does, up to the line of its fault. -/
theorem applyNumeric_reline (move : Nat → Nat) (operator : Token) (f : Float → Float → Value)
    (x y : Value) :
    applyNumeric (operator.reline move) f x y =
      Evaluated.reline move (applyNumeric operator f x y) := by
  cases x <;> cases y <;> rfl

/-- Addition does with lines moved what it does, up to the line of its fault. -/
theorem applyPlus_reline (move : Nat → Nat) (operator : Token) (x y : Value) :
    applyPlus (operator.reline move) x y = Evaluated.reline move (applyPlus operator x y) := by
  cases x <;> cases y <;> rfl

/-- An infix operator does with lines moved what it does, up to the line of its fault. -/
theorem applyBinary_reline (move : Nat → Nat) (operator : Token) (x y : Value) :
    applyBinary (operator.reline move) x y =
      Evaluated.reline move (applyBinary operator x y) := by
  simp only [applyBinary, Token.reline_kind]
  split
  case h_1 => exact applyPlus_reline move operator x y
  case h_9 | h_10 | h_11 => rfl
  all_goals exact applyNumeric_reline move operator _ x y

/-- A logical operator is decided with lines moved as it is, up to the line of its fault. -/
theorem decides_reline (move : Nat → Nat) (operator : Token) (x : Value) :
    decides (operator.reline move) x =
      (decides operator x).mapError (RuntimeFault.reline move) := by
  simp only [decides, Token.reline_kind]
  split <;> rfl

/-! ## Expressions -/

section
variable {move : Nat → Nat} {name : Token → Token} {P : Token → Prop} {R : Chain → Chain → Prop}

/-- The second answer is the first, up to the line of a fault, and the chains are related. -/
def EvalStep (move : Nat → Nat) (R : Chain → Chain → Prop) (p q : Evaluated × Chain) : Prop :=
  q.1 = p.1.reline move ∧ R p.2 q.2

/-- Reading and assigning the variables that satisfy `P`, under another name on the other side, gives the
same answers on related chains and leaves them related. -/
structure Tracks (move : Nat → Nat) (name : Token → Token) (P : Token → Prop)
    (R : Chain → Chain → Prop) : Prop where
  read : ∀ {t : Token} {c c' : Chain}, P t → R c c' →
    readVariable (name t) c' = (readVariable t c).reline move
  assign : ∀ {t : Token} {c c' : Chain} (v : Value), P t → R c c' →
    EvalStep move R (assignVariable t v c) (assignVariable (name t) v c')

/-- The rule for an evaluation and what goes on with its value. -/
theorem EvalStep.andThen {p q : Evaluated × Chain} {next next' : Value → Chain → Evaluated × Chain}
    (h : EvalStep move R p q)
    (hnext : ∀ v {c c' : Chain}, R c c' → EvalStep move R (next v c) (next' v c')) :
    EvalStep move R (Evaluated.andThen next p) (Evaluated.andThen next' q) := by
  obtain ⟨r, c⟩ := p
  obtain ⟨r', c'⟩ := q
  obtain ⟨hr, hc⟩ := h
  dsimp only at hr hc
  subst hr
  cases r with
  | error fault => exact ⟨rfl, hc⟩
  | ok v => exact hnext v hc

/-- The evaluations of an expression and of the same one with other tokens keep step. -/
theorem Expr.eval_step (h : Tracks move name P R) (e : Expr) (hnames : ∀ t ∈ e.names, P t)
    {c c' : Chain} (hc : R c c') :
    EvalStep move R (e.eval c) ((e.relabel move name).eval c') := by
  induction e generalizing c c' with
  | literal value => exact ⟨rfl, hc⟩
  | grouping inner ih => exact ih hnames hc
  | read t => exact ⟨h.read (hnames t List.mem_cons_self) hc, hc⟩
  | unary operator right ih =>
    rw [Expr.relabel, Expr.eval_unary, Expr.eval_unary]
    refine (ih hnames hc).andThen fun v d d' hd => ?_
    exact ⟨applyUnary_reline move operator v, hd⟩
  | binary left operator right ihleft ihright =>
    obtain ⟨hleft, hright⟩ := List.forall_mem_append.1 hnames
    rw [Expr.relabel, Expr.eval_binary, Expr.eval_binary]
    refine (ihleft hleft hc).andThen fun x d d' hd => ?_
    refine (ihright hright hd).andThen fun y d d' hd => ?_
    exact ⟨applyBinary_reline move operator x y, hd⟩
  | logical left operator right ihleft ihright =>
    obtain ⟨hleft, hright⟩ := List.forall_mem_append.1 hnames
    rw [Expr.relabel, Expr.eval_logical, Expr.eval_logical]
    refine (ihleft hleft hc).andThen fun x d d' hd => ?_
    rw [Expr.shortCircuit, Expr.shortCircuit, decides_reline]
    rcases decides operator x with fault | _ | _
    · exact ⟨rfl, hd⟩
    · exact ihright hright hd
    · exact ⟨rfl, hd⟩
  | assign t value ih =>
    obtain ⟨ht, hvalue⟩ := List.forall_mem_cons.1 hnames
    rw [Expr.relabel, Expr.eval_assign, Expr.eval_assign]
    exact (ih hvalue hc).andThen fun v d d' hd => h.assign v ht hd

/-! ## Machines -/

/-- The machines have related chains and the same sink. -/
def Beside (R : Chain → Chain → Prop) (m m' : Machine) : Prop :=
  R m.chain m'.chain ∧ m'.sink = m.sink

/-- The second execution ended as the first, up to the line of a fault, on a machine beside its. -/
def RunStep (move : Nat → Nat) (R : Chain → Chain → Prop) (p q : Completion × Machine) : Prop :=
  q.1 = p.1.reline move ∧ Beside R p.2 q.2

/-- Machines side by side stay so when each executes its own statement. -/
def InStep (move : Nat → Nat) (R : Chain → Chain → Prop) (rounds : Nat) (s s' : Stmt) : Prop :=
  ∀ m m' : Machine, Beside R m m' → RunStep move R (s.exec rounds m) (s'.exec rounds m')

variable {F : Chain → Chain → Prop}

/-- Machines beside each other are so with a weaker relation of their chains. -/
theorem Beside.mono (hRF : ∀ {c c' : Chain}, R c c' → F c c') {m m' : Machine}
    (h : Beside R m m') : Beside F m m' :=
  ⟨hRF h.1, h.2⟩

/-- Executions in step are so with a weaker relation of their chains. -/
theorem RunStep.mono (hRF : ∀ {c c' : Chain}, R c c' → F c c') {p q : Completion × Machine}
    (h : RunStep move R p q) : RunStep move F p q :=
  ⟨h.1, h.2.mono hRF⟩

/-- Machines behind executions that kept step keep step further on, if need be in another relation. -/
theorem RunStep.andThen {p q : Completion × Machine} {next next' : Machine → Completion × Machine}
    (h : RunStep move R p q) (hRF : ∀ {c c' : Chain}, R c c' → F c c')
    (hnext : ∀ {m m' : Machine}, Beside R m m' → RunStep move F (next m) (next' m')) :
    RunStep move F (Completion.andThen next p) (Completion.andThen next' q) := by
  obtain ⟨completion, m⟩ := p
  obtain ⟨completion', m'⟩ := q
  obtain ⟨hcompletion, hm⟩ := h
  dsimp only at hcompletion hm
  subst hcompletion
  cases completion with
  | done => exact hnext hm
  | stopped fault => exact ⟨rfl, hm.mono hRF⟩
  | unfinished => exact ⟨rfl, hm.mono hRF⟩

/-- The rule for an expression and what goes on with its value. The second relation may be weaker, since what goes
on may leave a scope. -/
theorem evalThen_step (h : Tracks move name P R) (hRF : ∀ {c c' : Chain}, R c c' → F c c')
    {e : Expr} (hnames : ∀ t ∈ e.names, P t) {next next' : Value → Machine → Completion × Machine}
    (hnext : ∀ v {m m' : Machine}, Beside R m m' → RunStep move F (next v m) (next' v m'))
    {m m' : Machine} (hm : Beside R m m') :
    RunStep move F (m.evalThen e next) (m'.evalThen (e.relabel move name) next') := by
  obtain ⟨hr, hchain⟩ := Expr.eval_step h e hnames hm.1
  rw [Machine.evalThen, Machine.evalThen, Machine.eval, Machine.eval]
  rcases heval : e.eval m.chain with ⟨r, d⟩
  rcases heval' : (e.relabel move name).eval m'.chain with ⟨r', d'⟩
  rw [heval, heval'] at hr hchain
  dsimp only at hr hchain
  subst hr
  cases r with
  | error fault => exact ⟨rfl, hRF hchain, hm.2⟩
  | ok v => exact hnext v ⟨hchain, hm.2⟩

/-- Printing writes the same to the same sink, with the same outcome. -/
theorem print_step (v : Value) {m m' : Machine} (hm : Beside R m m') :
    RunStep move R (m.print v) (m'.print v) := by
  rw [Machine.print, Machine.print, hm.2]
  rcases m.sink.write (Machine.printed v) with ⟨_ | _, sink⟩
  · exact ⟨rfl, hm.1, rfl⟩
  · exact ⟨rfl, hm.1, rfl⟩

/-- The loops keep step: by induction on the rounds, since each leaves the machines side by side. -/
theorem loop_step (h : Tracks move name P R) {condition : Expr}
    (hnames : ∀ t ∈ condition.names, P t) {body body' : Machine → Completion × Machine}
    (hbody : ∀ {m m' : Machine}, Beside R m m' → RunStep move R (body m) (body' m'))
    (rounds : Nat) {m m' : Machine} (hm : Beside R m m') :
    RunStep move R (Machine.loop condition body rounds m)
      (Machine.loop (condition.relabel move name) body' rounds m') := by
  induction rounds generalizing m m' with
  | zero => exact ⟨rfl, hm⟩
  | succ rounds ih =>
    rw [Machine.loop_succ, Machine.loop_succ]
    refine evalThen_step h id hnames (fun v n n' hn => ?_) hm
    by_cases hv : v.truthy
    · rw [if_pos hv, if_pos hv]
      exact (hbody hn).andThen id ih
    · rw [if_neg hv, if_neg hv]
      exact ⟨rfl, hn⟩

/-- The rule for statements in a row, each in step with its counterpart. -/
theorem execAll_step {rounds : Nat} {f : Stmt → Stmt} {body : List Stmt}
    (hbody : ∀ s ∈ body, InStep move R rounds s (f s)) {m m' : Machine} (hm : Beside R m m') :
    RunStep move R (Stmt.execAll rounds body m) (Stmt.execAll rounds (body.map f) m') := by
  induction body generalizing m m' with
  | nil => exact ⟨rfl, hm⟩
  | cons s rest ih =>
    obtain ⟨hs, hrest⟩ := List.forall_mem_cons.1 hbody
    rw [List.map_cons, Stmt.execAll_cons, Stmt.execAll_cons]
    exact (hs m m' hm).andThen id (ih hrest)

/-! ## Statements -/

namespace InStep

variable {rounds : Nat}

/-- An expression statement keeps step if its names are tracked. -/
theorem expression (h : Tracks move name P R) {e : Expr} (hnames : ∀ t ∈ e.names, P t) :
    InStep move R rounds (.expression e) (.expression (e.relabel move name)) := by
  intro m m' hm
  rw [Stmt.exec, Stmt.exec]
  exact evalThen_step h id hnames (fun _ _ _ hn => ⟨rfl, hn⟩) hm

/-- A print statement keeps step if its names are tracked. -/
theorem print (h : Tracks move name P R) {e : Expr} (hnames : ∀ t ∈ e.names, P t) :
    InStep move R rounds (.print e) (.print (e.relabel move name)) := by
  intro m m' hm
  rw [Stmt.exec, Stmt.exec]
  exact evalThen_step h id hnames print_step hm

/-- An `if` statement keeps step if its condition is tracked and its branch keeps step. -/
theorem ifThen (h : Tracks move name P R) {condition : Expr}
    (hnames : ∀ t ∈ condition.names, P t) {yes yes' : Stmt} (hyes : InStep move R rounds yes yes') :
    InStep move R rounds (.ifThen condition yes) (.ifThen (condition.relabel move name) yes') := by
  intro m m' hm
  rw [Stmt.exec, Stmt.exec]
  refine evalThen_step h id hnames (fun v n n' hn => ?_) hm
  by_cases hv : v.truthy
  · rw [if_pos hv, if_pos hv]
    exact hyes n n' hn
  · rw [if_neg hv, if_neg hv]
    exact ⟨rfl, hn⟩

/-- An `if` statement with an alternative keeps step if its condition is tracked and both branches keep step. -/
theorem ifThenElse (h : Tracks move name P R) {condition : Expr}
    (hnames : ∀ t ∈ condition.names, P t) {yes yes' no no' : Stmt}
    (hyes : InStep move R rounds yes yes') (hno : InStep move R rounds no no') :
    InStep move R rounds (.ifThenElse condition yes no)
      (.ifThenElse (condition.relabel move name) yes' no') := by
  intro m m' hm
  rw [Stmt.exec, Stmt.exec]
  refine evalThen_step h id hnames (fun v n n' hn => ?_) hm
  by_cases hv : v.truthy
  · rw [if_pos hv, if_pos hv]
    exact hyes n n' hn
  · rw [if_neg hv, if_neg hv]
    exact hno n n' hn

/-- A `while` statement keeps step if its condition is tracked and its body keeps step. -/
theorem whileLoop (h : Tracks move name P R) {condition : Expr}
    (hnames : ∀ t ∈ condition.names, P t) {body body' : Stmt}
    (hbody : InStep move R rounds body body') :
    InStep move R rounds (.whileLoop condition body)
      (.whileLoop (condition.relabel move name) body') := by
  intro m m' hm
  rw [Stmt.exec, Stmt.exec]
  exact loop_step h hnames (hbody _ _) rounds hm

end InStep

/-- The names of an initial value are names of the declaration; `null` in its place has none. -/
theorem initial_names {t : Token} {initial : Option Expr}
    (hnames : ∀ u ∈ (Stmt.declare t initial).names, P u) :
    ∀ u ∈ (initial.getD (.literal .null)).names, P u := by
  cases initial with
  | none => exact nofun
  | some e => exact (List.forall_mem_cons.1 hnames).2

/-- A declaration keeps step if its names are tracked and the name itself can be bound on both sides. -/
theorem InStep.declare (h : Tracks move name P R) {t t' : Token} {initial : Option Expr}
    (hnames : ∀ u ∈ (Stmt.declare t initial).names, P u)
    (hdefine : ∀ (v : Value) {c c' : Chain}, R c c' → R (c.define t.lexeme v) (c'.define t'.lexeme v))
    {rounds : Nat} :
    InStep move R rounds (.declare t initial)
      (.declare t' (initial.map (Expr.relabel move name))) := by
  intro m m' hm
  have hdone (v : Value) {n n' : Machine} (hn : Beside R n n') :
      RunStep move R (.done, n.define t v) (.done, n'.define t' v) :=
    ⟨rfl, hdefine v hn.1, hn.2⟩
  have hstep := evalThen_step h id (initial_names hnames) hdone hm
  rw [Stmt.exec_declare, Stmt.exec_declare]
  cases initial <;> exact hstep

/-- A declaration may be what changes the relation, since it binds a name on either side. -/
theorem declareThen_step (h : Tracks move name P R) (hRF : ∀ {c c' : Chain}, R c c' → F c c')
    {t t' : Token} {initial : Option Expr} (hnames : ∀ u ∈ (Stmt.declare t initial).names, P u)
    {rounds : Nat} {rest rest' : List Stmt}
    (hrest : ∀ (v : Value) {m m' : Machine}, Beside R m m' →
      RunStep move F (Stmt.execAll rounds rest (m.define t v))
        (Stmt.execAll rounds rest' (m'.define t' v)))
    {m m' : Machine} (hm : Beside R m m') :
    RunStep move F (Stmt.execAll rounds (.declare t initial :: rest) m)
      (Stmt.execAll rounds (.declare t' (initial.map (Expr.relabel move name)) :: rest') m') := by
  have hstep := evalThen_step h hRF (initial_names hnames) hrest hm
  rw [Stmt.execAll_declare_cons, Stmt.execAll_declare_cons]
  cases initial <;> exact hstep

/-- The chains have the same innermost scope, which satisfies `p`, and the chains around it are
related. -/
def Inside (p : Scope → Prop) (R : Chain → Chain → Prop) (c c' : Chain) : Prop :=
  ∃ scope outer outer', c = .inner scope outer ∧ c' = .inner scope outer' ∧ p scope ∧ R outer outer'

variable {p q : Scope → Prop}

/-- Entering a scope on both sides leads inside. -/
theorem Inside.enter (hp : p .empty) {c c' : Chain} (hc : R c c') : Inside p R c.enter c'.enter :=
  ⟨.empty, c, c', rfl, rfl, hp, hc⟩

/-- Leaving the scope on both sides leads back. -/
theorem Inside.leave {c c' : Chain} (hc : Inside p R c c') : R c.leave c'.leave := by
  obtain ⟨scope, outer, outer', rfl, rfl, -, houter⟩ := hc
  exact houter

/-- Inside, a name is bound in the same scope on both sides. -/
theorem Inside.define {x : String} {v : Value} (hp : ∀ {scope : Scope}, p scope → q (scope.define x v))
    {c c' : Chain} (hc : Inside p R c c') : Inside q R (c.define x v) (c'.define x v) := by
  obtain ⟨scope, outer, outer', rfl, rfl, hscope, houter⟩ := hc
  exact ⟨scope.define x v, outer, outer', rfl, rfl, hp hscope, houter⟩

/-- Blocks keep step if their bodies do in new scopes. The relation that their bodies end in matters only
as far as it says something about the chains around these scopes. -/
theorem InStep.block {rounds : Nat} {body body' : List Stmt}
    (hF : ∀ {c c' : Chain}, F c c' → R c.leave c'.leave)
    (hbody : ∀ m m' : Machine, Beside R m m' →
      RunStep move F (Stmt.execAll rounds body m.enter) (Stmt.execAll rounds body' m'.enter)) :
    InStep move R rounds (.block body) (.block body') := by
  intro m m' hm
  obtain ⟨hcompletion, hchain, hsink⟩ := hbody m m' hm
  rw [Stmt.exec, Stmt.exec]
  exact ⟨hcompletion, hF hchain, hsink⟩

end

/-! ## Looking a name up behind a scope -/

/-- A variable is read in the innermost scope if that binds it, and otherwise around it. -/
theorem readVariable_inner (t : Token) (scope : Scope) (outer : Chain) :
    readVariable t (.inner scope outer) =
      match scope.get? t.lexeme with
      | some v => .ok v
      | none => readVariable t outer := by
  rw [readVariable, Chain.get?]
  cases scope.get? t.lexeme <;> rfl

/-- A variable that the innermost scope binds is assigned there. -/
theorem assignVariable_inner_of_bound {t : Token} {scope : Scope} (h : (scope.get? t.lexeme).isSome)
    (v : Value) (outer : Chain) :
    assignVariable t v (.inner scope outer) = (.ok v, .inner (scope.define t.lexeme v) outer) := by
  rw [assignVariable, Chain.assign?, if_pos h]

/-- A variable that the innermost scope does not bind is assigned around it, and the scope stays as it is. -/
theorem assignVariable_inner_of_free {t : Token} {scope : Scope} (h : scope.get? t.lexeme = none)
    (v : Value) (outer : Chain) :
    assignVariable t v (.inner scope outer) =
      ((assignVariable t v outer).1, .inner scope (assignVariable t v outer).2) := by
  have hnone : ¬(scope.get? t.lexeme).isSome := by
    rw [h]
    exact Bool.false_ne_true
  rw [assignVariable, Chain.assign?, if_neg hnone, assignVariable]
  cases outer.assign? t.lexeme v <;> rfl

section
variable {move : Nat → Nat} {name : Token → Token} {P : Token → Prop} {R : Chain → Chain → Prop}

/-- What a relation tracks is tracked from inside of a scope: a name that the scope binds has to keep its
lexeme, and any other name is looked up around the scope, under the name that is tracked there. -/
theorem Tracks.inside (h : Tracks move name P R) {name' : Token → Token} {p : Scope → Prop}
    (hbound : ∀ {scope : Scope} {t : Token}, p scope → P t → (scope.get? t.lexeme).isSome →
      (name' t).lexeme = t.lexeme)
    (hfree : ∀ {scope : Scope} {t : Token}, p scope → P t → scope.get? t.lexeme = none →
      name' t = name t ∧ scope.get? (name t).lexeme = none)
    (hdefine : ∀ {scope : Scope} {x : String} (v : Value), p scope → (scope.get? x).isSome →
      p (scope.define x v)) :
    Tracks move name' P (Inside p R) where
  read := by
    rintro t _ _ ht ⟨scope, outer, outer', rfl, rfl, hscope, houter⟩
    rw [readVariable_inner, readVariable_inner]
    cases hget : scope.get? t.lexeme with
    | some v =>
      have hlexeme := hbound hscope ht (Option.isSome_of_eq_some hget)
      rw [hlexeme, hget]
      rfl
    | none =>
      obtain ⟨hname, hget'⟩ := hfree hscope ht hget
      rw [hname, hget']
      exact h.read ht houter
  assign := by
    rintro t _ _ v ht ⟨scope, outer, outer', rfl, rfl, hscope, houter⟩
    cases hget : scope.get? t.lexeme with
    | some w =>
      have hsome := Option.isSome_of_eq_some hget
      have hlexeme := hbound hscope ht hsome
      rw [assignVariable_inner_of_bound hsome, assignVariable_inner_of_bound (hlexeme ▸ hsome), hlexeme]
      exact ⟨rfl, scope.define t.lexeme v, outer, outer', rfl, rfl, hdefine v hscope hsome, houter⟩
    | none =>
      obtain ⟨hname, hget'⟩ := hfree hscope ht hget
      obtain ⟨hr, hc⟩ := h.assign v ht houter
      rw [hname, assignVariable_inner_of_free hget, assignVariable_inner_of_free hget']
      exact ⟨hr, scope, _, _, rfl, rfl, hscope, hc⟩

/-- Names that keep their lexemes are tracked from inside of every scope. -/
theorem Tracks.insideAny (h : Tracks move (Token.reline move) P R) :
    Tracks move (Token.reline move) P (Inside (fun _ => True) R) :=
  h.inside (fun _ _ _ => rfl) (fun _ _ hget => ⟨rfl, hget⟩) fun _ _ _ => trivial

/-- The executions of a statement and of the same one with its lines moved keep step, if every name that
is declared outside of a block can be bound on both sides. -/
theorem Stmt.exec_step (h : Tracks move (Token.reline move) P R) (s : Stmt)
    (hnames : ∀ t ∈ s.names, P t)
    (hdeclared : ∀ t ∈ s.declared, ∀ (v : Value) {c c' : Chain}, R c c' →
      R (c.define t.lexeme v) (c'.define t.lexeme v)) (rounds : Nat) :
    InStep move R rounds s (s.reline move) := by
  induction s using Stmt.recData generalizing R with
  | expression e => exact .expression h hnames
  | print e => exact .print h hnames
  | declare t initial =>
    have hdefine := hdeclared t List.mem_cons_self
    rw [Stmt.reline]
    refine .declare h hnames ?_
    exact hdefine
  | block body ih =>
    -- The same new scope is entered on both sides, so its names can be declared without an assumption.
    have hbody : ∀ s ∈ body, InStep move (Inside (fun _ => True) R) rounds s (s.reline move) := by
      intro s hs
      refine ih s hs h.insideAny (fun t ht => hnames t (Stmt.names_subset_block hs ht)) ?_
      exact fun t _ v _ _ hc => hc.define fun _ => trivial
    rw [Stmt.reline, Stmt.relineAll_eq_map]
    exact .block Inside.leave fun m m' hm => execAll_step hbody ⟨.enter trivial hm.1, hm.2⟩
  | ifThen condition yes ih =>
    obtain ⟨hcondition, hyes⟩ := List.forall_mem_append.1 hnames
    exact .ifThen h hcondition (ih h hyes hdeclared)
  | ifThenElse condition yes no ihyes ihno =>
    obtain ⟨hboth, hno⟩ := List.forall_mem_append.1 hnames
    obtain ⟨hcondition, hyes⟩ := List.forall_mem_append.1 hboth
    obtain ⟨hdyes, hdno⟩ := List.forall_mem_append.1 hdeclared
    exact .ifThenElse h hcondition (ihyes h hyes hdyes) (ihno h hno hdno)
  | whileLoop condition body ih =>
    obtain ⟨hcondition, hbody⟩ := List.forall_mem_append.1 hnames
    exact .whileLoop h hcondition (ih h hbody hdeclared)

end

/-! ## The same machine twice -/

/-- The equality of chains tracks every name, whatever happens to its line. -/
theorem Tracks.eq (move : Nat → Nat) : Tracks move (Token.reline move) (fun _ => True) Eq where
  read := by
    rintro t c _ - rfl
    rw [readVariable, readVariable, Token.reline_lexeme]
    cases c.get? t.lexeme <;> rfl
  assign := by
    rintro t c _ v - rfl
    rw [assignVariable, assignVariable, Token.reline_lexeme]
    cases c.assign? t.lexeme v <;> exact ⟨rfl, rfl⟩

/-- With chains that are equal, executions in step differ in the line of a fault alone. -/
theorem RunStep.eq {move : Nat → Nat} {p q : Completion × Machine} (h : RunStep move Eq p q) :
    q = (p.1.reline move, p.2) := by
  obtain ⟨hcompletion, hchain, hsink⟩ := h
  obtain ⟨completion, chain, sink⟩ := p
  obtain ⟨completion', chain', sink'⟩ := q
  dsimp only at hcompletion hchain hsink ⊢
  rw [hcompletion, hchain, hsink]

/-- Statements with their lines moved are executed to the same machine and end the same way, up to the
line of a fault. -/
theorem Stmt.execAll_reline (move : Nat → Nat) (rounds : Nat) (body : List Stmt) (m : Machine) :
    Stmt.execAll rounds (body.map (Stmt.reline move)) m =
      ((Stmt.execAll rounds body m).1.reline move, (Stmt.execAll rounds body m).2) := by
  have hbody : ∀ s ∈ body, InStep move Eq rounds s (s.reline move) := by
    intro s _
    refine Stmt.exec_step (Tracks.eq move) s (fun _ _ => trivial) ?_ rounds
    intro t _ v c c' hc
    rw [hc]
  exact (execAll_step hbody ⟨rfl, rfl⟩).eq

/-- Statements that are executed twice from inside of the same scope keep step there. -/
theorem execAll_inside_step {P : Token → Prop} {p : Scope → Prop} {R : Chain → Chain → Prop}
    (h : Tracks id (Token.reline id) P (Inside p R))
    (hdefine : ∀ {scope : Scope} (x : String) (v : Value), p scope → p (scope.define x v))
    {body : List Stmt} (hnames : ∀ s ∈ body, ∀ t ∈ s.names, P t) (rounds : Nat) {m m' : Machine}
    (hm : Beside (Inside p R) m m') :
    RunStep id (Inside p R) (Stmt.execAll rounds body m) (Stmt.execAll rounds body m') := by
  have hbody : ∀ s ∈ body, InStep id (Inside p R) rounds s (id s) := by
    intro s hs
    have hstep := Stmt.exec_step h s (hnames s hs) (fun t _ v _ _ hc => hc.define (hdefine _ v)) rounds
    rwa [Stmt.reline_id] at hstep
  have hstep := execAll_step hbody hm
  rwa [List.map_id] at hstep

end LoxLang
