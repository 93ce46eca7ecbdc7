import LoxLang.Proofs.Run.Scopes

/-!
# The faults that a run can stop at

An evaluation stops at operands of the wrong types, at a name that no scope of its chain binds, or at an
operator of a kind that cannot be applied where it stands, and at nothing else (`Expr.eval_error`).
An execution stops where an expression of the statement does (`Stmt.exec_stopsOnlyAt`): `Stmt.sites` lists
the expressions of a statement with the names that are visible to each, and the chain that the expression
is evaluated in binds at least those. So what a run can report is read off the tree of its program.

Names stay bound (`Chain.Covers.grows`), which makes this an induction over the tree: whatever was
executed before an expression, the names that were visible there still are.
-/

namespace LoxLang

/-! ## Chains that bind names -/

/-- Every given name has a value. -/
def Chain.Covers (visible : List String) (c : Chain) : Prop :=
  ∀ name ∈ visible, (c.get? name).isSome

namespace Chain

/-- A name has a value in a chain if the innermost scope binds it or it has one around that scope. -/
theorem isSome_get?_inner (name : String) (s : Scope) (outer : Chain) :
    ((inner s outer).get? name).isSome ↔ name ∈ s.names ∨ (outer.get? name).isSome := by
  rw [← s.isSome_get?_iff, get?]
  cases s.get? name <;> simp

/-- Names stay bound. -/
theorem Grows.isSome_get? {new : List String} {c d : Chain} (h : c.Grows new d) {name : String}
    (hname : (c.get? name).isSome) : (d.get? name).isSome := by
  induction c generalizing new d with
  | root s =>
    cases d with
    | inner => exact h.elim
    | root t =>
      obtain ⟨gained, -, hnames⟩ := h
      rw [get?, Scope.isSome_get?_iff] at hname ⊢
      rw [hnames]
      exact List.mem_append_left _ hname
  | inner s c ih =>
    cases d with
    | root => exact h.elim
    | inner t d =>
      obtain ⟨⟨gained, -, hnames⟩, houter⟩ := h
      rw [isSome_get?_inner] at hname ⊢
      rcases hname with hname | hname
      · exact .inl (hnames ▸ List.mem_append_left _ hname)
      · exact .inr (ih houter hname)

/-- A chain that grows still binds what it bound. -/
theorem Covers.grows {visible new : List String} {c d : Chain} (hc : c.Covers visible)
    (h : c.Grows new d) : d.Covers visible :=
  fun name hname => h.isSome_get? (hc name hname)

/-- A new scope hides nothing. -/
theorem Covers.enter {visible : List String} {c : Chain} (h : c.Covers visible) :
    c.enter.Covers visible :=
  h

/-- A definition makes its name visible besides the others. -/
theorem Covers.define {visible : List String} {c : Chain} (h : c.Covers visible) (name : String)
    (v : Value) : (c.define name v).Covers (name :: visible) := by
  refine List.forall_mem_cons.2 ⟨?_, h.grows (.define name v c)⟩
  cases c with
  | root s => simp [Chain.define, get?]
  | inner s outer => simp [Chain.define, get?]

end Chain

/-! ## Operators -/

/-- The operands are not of the types that an operator takes. -/
def operandCauses : List RuntimeCause :=
  [.operandNotNumber, .operandsNotNumbers, .operandsNotAddable]

/-- The kinds of operators that have one operand. -/
def unaryKinds : List Kind :=
  [.bang, .minus]

/-- The kinds of operators whose operands are both evaluated. -/
def binaryKinds : List Kind :=
  [.bangEqual, .equalEqual, .greater, .greaterEqual, .less, .lessEqual, .minus, .plus, .slash, .star]

/-- The kinds of operators whose left operand may decide. -/
def logicalKinds : List Kind :=
  [.andWord, .orWord]

/-- A unary operator stops at an operand of the wrong type, or at itself where it is no unary operator. -/
theorem applyUnary_error {operator : Token} {v : Value} {fault : RuntimeFault}
    (h : applyUnary operator v = .error fault) :
    fault.cause ∈ operandCauses ∨
      operator.kind ∉ unaryKinds ∧ fault.cause = .invalidOperator operator.lexeme := by
  unfold applyUnary at h
  split at h
  · cases h
  · cases v <;> cases h <;> exact .inl (by simp [operandCauses])
  · next hbang hminus =>
    cases h
    exact .inr ⟨by simpa [unaryKinds] using ⟨hbang, hminus⟩, rfl⟩

/-- An operator on numbers stops at operands of the wrong types only. -/
theorem applyNumeric_error {operator : Token} {f : Float → Float → Value} {x y : Value}
    {fault : RuntimeFault} (h : applyNumeric operator f x y = .error fault) :
    fault.cause ∈ operandCauses := by
  unfold applyNumeric at h
  split at h
  · cases h
  · cases h
    simp [operandCauses]

/-- Addition stops at operands of the wrong types only. -/
theorem applyPlus_error {operator : Token} {x y : Value} {fault : RuntimeFault}
    (h : applyPlus operator x y = .error fault) : fault.cause ∈ operandCauses := by
  unfold applyPlus at h
  split at h
  · cases h
  · cases h
  · cases h
    simp [operandCauses]

/-- An infix operator stops at operands of the wrong types, or at itself where it is no infix operator. -/
theorem applyBinary_error {operator : Token} {x y : Value} {fault : RuntimeFault}
    (h : applyBinary operator x y = .error fault) :
    fault.cause ∈ operandCauses ∨
      operator.kind ∉ binaryKinds ∧ fault.cause = .invalidOperator operator.lexeme := by
  rw [applyBinary] at h
  split at h
  case h_1 => exact .inl (applyPlus_error h)
  case h_9 | h_10 => cases h
  case h_11 =>
    cases h
    refine .inr ⟨fun hkind => ?_, rfl⟩
    simp only [binaryKinds, List.mem_cons, List.not_mem_nil, or_false] at hkind
    rcases hkind with hk | hk | hk | hk | hk | hk | hk | hk | hk | hk <;> contradiction
  all_goals exact .inl (applyNumeric_error h)

/-- Deciding by the left operand stops at the operator only, where it is no logical operator. -/
theorem decides_error {operator : Token} {x : Value} {fault : RuntimeFault}
    (h : decides operator x = .error fault) :
    operator.kind ∉ logicalKinds ∧ fault.cause = .invalidOperator operator.lexeme := by
  rw [decides] at h
  split at h
  · cases h
  · cases h
  · next hor hand =>
    cases h
    exact ⟨by simpa [logicalKinds] using ⟨hand, hor⟩, rfl⟩

/-! ## Variables -/

/-- Reading a variable stops only where the name has no value. -/
theorem readVariable_error {name : Token} {c : Chain} {fault : RuntimeFault}
    (h : readVariable name c = .error fault) :
    c.get? name.lexeme = none ∧ fault.cause = .undefinedVariable name.lexeme := by
  rw [readVariable] at h
  split at h
  · cases h
  · next hnone =>
    cases h
    exact ⟨hnone, rfl⟩

/-- Assigning a variable stops only where the name has no value. -/
theorem assignVariable_error {name : Token} {v : Value} {c : Chain} {fault : RuntimeFault}
    (h : (assignVariable name v c).1 = .error fault) :
    c.get? name.lexeme = none ∧ fault.cause = .undefinedVariable name.lexeme := by
  rw [assignVariable] at h
  split at h
  · cases h
  · next hnone =>
    cases h
    refine ⟨?_, rfl⟩
    rw [← Option.not_isSome_iff_eq_none, ← c.isSome_assign? name.lexeme v, hnone]
    simp

/-! ## Expressions -/

namespace Expr

/-- The operators of an expression that are of no kind that can be applied where they stand. -/
def misplaced : Expr → List Token
  | literal _ | read _ => []
  | grouping inner | assign _ inner => inner.misplaced
  | unary operator right => [operator].filter (·.kind ∉ unaryKinds) ++ right.misplaced
  | binary left operator right =>
    [operator].filter (·.kind ∉ binaryKinds) ++ left.misplaced ++ right.misplaced
  | logical left operator right =>
    [operator].filter (·.kind ∉ logicalKinds) ++ left.misplaced ++ right.misplaced

/-- What an evaluation in a chain can stop at. -/
def CanStop (e : Expr) (c : Chain) (cause : RuntimeCause) : Prop :=
  cause ∈ operandCauses ∨
    (∃ name ∈ e.names, c.get? name.lexeme = none ∧ cause = .undefinedVariable name.lexeme) ∨
    ∃ operator ∈ e.misplaced, cause = .invalidOperator operator.lexeme

/-- What a part of an expression can stop at on a grown chain, the expression can stop at on the chain before. -/
theorem CanStop.mono {e e' : Expr} {c d : Chain} {new : List String} {cause : RuntimeCause}
    (hnames : e.names ⊆ e'.names) (hmisplaced : e.misplaced ⊆ e'.misplaced) (hgrows : c.Grows new d)
    (h : e.CanStop d cause) : e'.CanStop c cause := by
  rcases h with h | ⟨name, hname, hnone, rfl⟩ | ⟨operator, hoperator, rfl⟩
  · exact .inl h
  · refine .inr (.inl ⟨name, hnames hname, ?_, rfl⟩)
    rw [← Option.not_isSome_iff_eq_none] at hnone ⊢
    exact mt hgrows.isSome_get? hnone
  · exact .inr (.inr ⟨operator, hmisplaced hoperator, rfl⟩)

/-- An evaluation binds no names. -/
theorem eval_grows (e : Expr) (c : Chain) : c.Grows [] (e.eval c).2 := by
  refine e.eval_keeps Chain.Grows.refl Chain.Grows.trans (fun name _ v c => ?_) c
  rw [assignVariable]
  split
  · next h => exact .assign h
  · exact .refl c

/-- Evaluations in sequence stop where one of them does. -/
theorem andThen_error {next : Value → Chain → Evaluated × Chain} {p : Evaluated × Chain}
    {fault : RuntimeFault} (h : (Evaluated.andThen next p).1 = .error fault) :
    p.1 = .error fault ∨ ∃ v, (next v p.2).1 = .error fault := by
  rcases p with ⟨fault' | v, c⟩
  · exact .inl h
  · exact .inr ⟨v, h⟩

/-- An evaluation stops at operands of the wrong types, at a name of the expression that is not bound, or
at an operator of it that cannot be applied. -/
theorem eval_error {e : Expr} {c : Chain} {fault : RuntimeFault}
    (h : (e.eval c).1 = .error fault) : e.CanStop c fault.cause := by
  induction e generalizing c with
  | literal value => cases h
  | grouping inner ih => exact ih h
  | read name =>
    obtain ⟨hnone, hcause⟩ := readVariable_error h
    exact .inr (.inl ⟨name, List.mem_singleton_self name, hnone, hcause⟩)
  | unary operator right ih =>
    rw [eval_unary] at h
    rcases andThen_error h with h | ⟨v, h⟩
    · exact (ih h).mono (by simp [names]) (List.subset_append_right _ _) (.refl c)
    · rcases applyUnary_error h with h | ⟨hkind, hcause⟩
      · exact .inl h
      · exact .inr (.inr ⟨operator, by simp [misplaced, hkind], hcause⟩)
  | binary left operator right ihleft ihright =>
    rw [eval_binary] at h
    rcases andThen_error h with h | ⟨x, h⟩
    · exact (ihleft h).mono (List.subset_append_left _ _) (by simp [misplaced]) (.refl c)
    · rcases andThen_error h with h | ⟨y, h⟩
      · exact (ihright h).mono (List.subset_append_right _ _) (by simp [misplaced])
          (left.eval_grows c)
      · rcases applyBinary_error h with h | ⟨hkind, hcause⟩
        · exact .inl h
        · exact .inr (.inr ⟨operator, by simp [misplaced, hkind], hcause⟩)
  | logical left operator right ihleft ihright =>
    rw [eval_logical] at h
    rcases andThen_error h with h | ⟨x, h⟩
    · exact (ihleft h).mono (List.subset_append_left _ _) (by simp [misplaced]) (.refl c)
    · rw [shortCircuit] at h
      split at h
      · next hdecides =>
        cases h
        obtain ⟨hkind, hcause⟩ := decides_error hdecides
        exact .inr (.inr ⟨operator, by simp [misplaced, hkind], hcause⟩)
      · cases h
      · exact (ihright h).mono (List.subset_append_right _ _) (by simp [misplaced])
          (left.eval_grows c)
  | assign name value ih =>
    rw [eval_assign] at h
    rcases andThen_error h with h | ⟨v, h⟩
    · exact (ih h).mono (List.subset_cons_self _ _) (by simp [misplaced]) (.refl c)
    · obtain ⟨hnone, hcause⟩ := assignVariable_error h
      have hstop : (Expr.read name).CanStop (value.eval c).2 fault.cause :=
        .inr (.inl ⟨name, List.mem_singleton_self name, hnone, hcause⟩)
      exact hstop.mono (by simp [names]) (List.nil_subset _) (value.eval_grows c)

end Expr

/-- An evaluation binds no new names. -/
theorem Machine.eval_grows (e : Expr) (m : Machine) : m.chain.Grows [] (m.eval e).2.chain :=
  e.eval_grows m.chain

/-! ## Where statements evaluate expressions -/

/-- An expression in a statement and the names that are visible to it. -/
structure Site where
  visible : List String
  expr : Expr

/-- The expression stops at the fault in some chain that binds the visible names. -/
def Site.StopsAt (site : Site) (fault : RuntimeFault) : Prop :=
  ∃ c : Chain, c.Covers site.visible ∧ (site.expr.eval c).1 = .error fault

namespace Stmt

/-- The name that a statement makes visible to those behind it. -/
def binds : Stmt → List String
  | declare name _ => [name.lexeme]
  | _ => []

mutual

/-- The expressions of a statement, given the names that are visible to it. The initial value of a
variable does not see the variable, and the statements of a block see what stands before the block. -/
def sites (visible : List String) : Stmt → List Site
  | expression e | print e | declare _ (some e) => [⟨visible, e⟩]
  | declare _ none => []
  | block body => sitesAll visible body
  | ifThen condition yes => ⟨visible, condition⟩ :: yes.sites visible
  | ifThenElse condition yes no =>
    ⟨visible, condition⟩ :: (yes.sites visible ++ no.sites visible)
  | whileLoop condition body => ⟨visible, condition⟩ :: body.sites visible

/-- The expressions of statements in a row; each statement sees what those before it declare. -/
def sitesAll (visible : List String) : List Stmt → List Site
  | [] => []
  | s :: rest => s.sites visible ++ sitesAll (s.binds ++ visible) rest

end

/-- An expression of statements in a row is one of a statement among them. -/
theorem exists_of_mem_sitesAll {body : List Stmt} {visible : List String} {site : Site}
    (h : site ∈ sitesAll visible body) : ∃ s ∈ body, ∃ visible', site ∈ s.sites visible' := by
  induction body generalizing visible with
  | nil => cases h
  | cons s rest ih =>
    rcases List.mem_append.1 h with h | h
    · exact ⟨s, List.mem_cons_self, visible, h⟩
    · obtain ⟨s', hs', hsite⟩ := ih h
      exact ⟨s', List.mem_cons_of_mem s hs', hsite⟩

/-- A statement that completes leaves a chain in which its name is bound as well. -/
theorem exec_covers {visible : List String} {rounds : Nat} {s : Stmt} {m : Machine}
    (hm : m.chain.Covers visible) (hdone : (s.exec rounds m).1 = .done) :
    (s.exec rounds m).2.chain.Covers (s.binds ++ visible) := by
  cases s with
  | declare name initial =>
    have hgrows := Machine.eval_grows (initial.getD (.literal .null)) m
    rw [exec_declare, Machine.evalThen] at hdone ⊢
    rcases heval : m.eval (initial.getD (.literal .null)) with ⟨fault | v, n⟩ <;>
      rw [heval] at hdone hgrows
    · cases hdone
    · exact (hm.grows hgrows).define name.lexeme v
  | _ => exact hm.grows (exec_grows rounds _ m)

end Stmt

/-! ## Where executions stop -/

section
variable {visible visible' : List String} {sites : List Site}
  {run : Machine → Completion × Machine}

/-- On a machine that binds the visible names, the execution stops only where one of the expressions
does. -/
def StopsOnlyAt (visible : List String) (sites : List Site)
    (run : Machine → Completion × Machine) : Prop :=
  ∀ m fault, m.chain.Covers visible → (run m).1 = .stopped (.runtime fault) →
    ∃ site ∈ sites, site.StopsAt fault

/-- An execution that stops only at some expressions stops only at more. -/
theorem StopsOnlyAt.mono {sites' : List Site} (h : StopsOnlyAt visible sites run)
    (hsites : sites ⊆ sites') : StopsOnlyAt visible sites' run := by
  intro m fault hm hstop
  obtain ⟨site, hsite, hfault⟩ := h m fault hm hstop
  exact ⟨site, hsites hsite, hfault⟩

/-- An execution that completes stops nowhere. -/
theorem stopsOnlyAt_done (f : Machine → Machine) :
    StopsOnlyAt visible sites fun m => (.done, f m) :=
  fun _ _ _ hstop => nomatch hstop

/-- Printing stops at no expression: its fault is one of the output. -/
theorem stopsOnlyAt_print (v : Value) : StopsOnlyAt visible sites (Machine.print v) := by
  intro m fault _ hstop
  rw [Machine.print] at hstop
  split at hstop <;> cases hstop

/-- The rule for an evaluation, which is one of the expressions, and what goes on with its value. -/
theorem stopsOnlyAt_evalThen {e : Expr} {next : Value → Machine → Completion × Machine}
    (he : ⟨visible, e⟩ ∈ sites) (hnext : ∀ v, StopsOnlyAt visible sites (next v)) :
    StopsOnlyAt visible sites (Machine.evalThen e next) := by
  intro m fault hm hstop
  have hgrows := Machine.eval_grows e m
  rw [Machine.evalThen] at hstop
  rcases heval : m.eval e with ⟨fault' | v, n⟩ <;> rw [heval] at hgrows hstop
  · cases hstop
    exact ⟨_, he, m.chain, hm, congrArg Prod.fst heval⟩
  · exact hnext v n fault (hm.grows hgrows) hstop

/-- The rule for an execution and what follows if it completes, which may see more names. -/
theorem StopsOnlyAt.andThen {next : Machine → Completion × Machine}
    (hrun : StopsOnlyAt visible sites run)
    (hdone : ∀ m, m.chain.Covers visible → (run m).1 = .done → (run m).2.chain.Covers visible')
    (hnext : StopsOnlyAt visible' sites next) :
    StopsOnlyAt visible sites fun m => Completion.andThen next (run m) := by
  intro m fault hm hstop
  have hdone := hdone m hm
  dsimp only at hstop
  rcases hm' : run m with ⟨_ | fault' | _, n⟩ <;> rw [hm'] at hdone hstop
  · exact hnext n fault (hdone rfl) hstop
  · exact hrun m fault hm (by rw [hm']; exact hstop)
  · cases hstop

/-- However many rounds a loop goes through, each sees the names that the first one sees. -/
theorem StopsOnlyAt.loop {condition : Expr} (hcondition : ⟨visible, condition⟩ ∈ sites)
    (hrun : StopsOnlyAt visible sites run)
    (hkeeps : ∀ m, m.chain.Covers visible → (run m).2.chain.Covers visible) (rounds : Nat) :
    StopsOnlyAt visible sites (Machine.loop condition run rounds) := by
  induction rounds with
  | zero => exact fun _ _ _ hstop => nomatch hstop
  | succ rounds ih =>
    intro m fault hm hstop
    rw [Machine.loop_succ] at hstop
    refine stopsOnlyAt_evalThen hcondition (fun v => ?_) m fault hm hstop
    cases v.truthy with
    | true => exact hrun.andThen (fun m hm _ => hkeeps m hm) ih
    | false => exact stopsOnlyAt_done id

end

namespace Stmt

/-- The rule for statements in a row, each of which sees what those before it declare. -/
theorem execAll_stopsOnlyAt_of_forall {rounds : Nat} {body : List Stmt}
    (hbody : ∀ s ∈ body, ∀ visible, StopsOnlyAt visible (s.sites visible) (s.exec rounds))
    (visible : List String) : StopsOnlyAt visible (sitesAll visible body) (execAll rounds body) := by
  induction body generalizing visible with
  | nil => exact fun _ _ _ hstop => nomatch hstop
  | cons s rest ih =>
    obtain ⟨hs, hrest⟩ := List.forall_mem_cons.1 hbody
    intro m fault hm hstop
    rw [execAll_cons] at hstop
    have hfirst := (hs visible).mono (List.subset_append_left _ (sitesAll (s.binds ++ visible) rest))
    have hothers := (ih hrest (s.binds ++ visible)).mono (List.subset_append_right (s.sites visible) _)
    exact hfirst.andThen (fun m => exec_covers) hothers m fault hm hstop

/-- An execution stops at a fault only where one of the expressions of the statement does, in a chain
that binds the names that are visible there. -/
theorem exec_stopsOnlyAt (rounds : Nat) (s : Stmt) (visible : List String) :
    StopsOnlyAt visible (s.sites visible) (s.exec rounds) := by
  induction s using Stmt.recData generalizing visible with
  | expression e =>
    intro m fault hm hstop
    rw [exec] at hstop
    exact stopsOnlyAt_evalThen (List.mem_singleton_self _) (fun _ => stopsOnlyAt_done id) m fault hm
      hstop
  | print e =>
    intro m fault hm hstop
    rw [exec] at hstop
    exact stopsOnlyAt_evalThen (List.mem_singleton_self _) stopsOnlyAt_print m fault hm hstop
  | declare name initial =>
    intro m fault hm hstop
    cases initial <;> rw [exec] at hstop
    · cases hstop
    · exact stopsOnlyAt_evalThen (List.mem_singleton_self _)
        (fun v => stopsOnlyAt_done (Machine.define name v)) m fault hm hstop
  | block body ih =>
    intro m fault hm hstop
    rw [exec] at hstop
    exact execAll_stopsOnlyAt_of_forall ih visible m.enter fault hm.enter hstop
  | ifThen condition yes ih =>
    intro m fault hm hstop
    rw [exec] at hstop
    refine stopsOnlyAt_evalThen List.mem_cons_self (fun v => ?_) m fault hm hstop
    cases v.truthy with
    | true => exact (ih visible).mono (List.subset_cons_self _ _)
    | false => exact stopsOnlyAt_done id
  | ifThenElse condition yes no ihyes ihno =>
    intro m fault hm hstop
    rw [exec] at hstop
    refine stopsOnlyAt_evalThen List.mem_cons_self (fun v => ?_) m fault hm hstop
    cases v.truthy with
    | true =>
      exact (ihyes visible).mono fun _ h => List.mem_cons_of_mem _ (List.mem_append_left _ h)
    | false =>
      exact (ihno visible).mono fun _ h => List.mem_cons_of_mem _ (List.mem_append_right _ h)
  | whileLoop condition body ih =>
    intro m fault hm hstop
    rw [exec] at hstop
    have hbody := (ih visible).mono (List.subset_cons_self ⟨visible, condition⟩ _)
    exact hbody.loop List.mem_cons_self (fun m hm => hm.grows (exec_grows rounds body m)) rounds m
      fault hm hstop

/-- Executing statements in a row stops only where one of their expressions does, given the names that are visible
to it. -/
theorem execAll_stopsOnlyAt (rounds : Nat) (body : List Stmt) (visible : List String) :
    StopsOnlyAt visible (sitesAll visible body) (execAll rounds body) :=
  execAll_stopsOnlyAt_of_forall (fun s _ => exec_stopsOnlyAt rounds s) visible

end Stmt

end LoxLang
