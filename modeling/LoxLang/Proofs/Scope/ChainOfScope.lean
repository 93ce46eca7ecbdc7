import LoxLang.Proofs.Run.Scopes
import LoxLang.Proofs.Scope.History

/-!
# The chain seen from a scope

Statements run in a chain of scopes, and a forest keeps scopes by number, each with its path to a root. Seen from
a scope of a forest, the scopes on its path are a chain (`Forest.chainFrom`), and what is done to the one is done
to the other: a name is read and assigned alike and fails with the same fault (`readVariable_chainFrom`,
`Agrees.assignVariable_chainFrom`), a definition binds the innermost scope (`Agrees.chainFrom_define`), and
creating a scope inside of another one is entering it (`Agrees.chainFrom_addChild`), which is left for the scope
it was created inside of (`Agrees.leave_chainFrom`).

So every execution is a history. `Shows` says that a chain is seen from a scope behind a history, and
`exists_history_execAll` that an execution which begins with such a chain ends with one: the history goes on with
operations that define only what the statements declare, and anything in the scopes that they create. What a name
means in the chain is then told by the history (`Shows.get?_eq_some_iff`), so a program from an empty root scope on
can be told from its history alone (`exists_history_program`).
-/

namespace LoxLang

namespace Forest

open History

/-- The chain of the scopes of the given numbers, from the innermost one outward. -/
def chainAlong (f : Forest) : List Nat → Chain
  | [] => .root .empty
  | [i] => .root (f.scopeOf i)
  | i :: j :: outer => .inner (f.scopeOf i) (chainAlong f (j :: outer))

/-- The chain seen from a scope. -/
def chainFrom (f : Forest) (i : Nat) : Chain :=
  f.chainAlong (f.pathOf i)

variable {f g : Forest} {h : History} {i parent : Nat} {path : List Nat}

/-! ## Scopes along a path -/

/-- A scope with a path outside of it is inside of the chain of the path. -/
theorem chainAlong_cons (f : Forest) (i : Nat) (hpath : path ≠ []) :
    f.chainAlong (i :: path) = .inner (f.scopeOf i) (f.chainAlong path) := by
  cases path with
  | nil => exact absurd rfl hpath
  | cons j outer => rfl

/-- The chain along a path is that of its scopes. -/
theorem chainAlong_congr (hscope : ∀ i ∈ path, g.scopeOf i = f.scopeOf i) :
    g.chainAlong path = f.chainAlong path := by
  fun_induction chainAlong f path with
  | case1 => rfl
  | case2 i => rw [chainAlong, hscope i List.mem_cons_self]
  | case3 i j outer ih =>
    obtain ⟨hi, houter⟩ := List.forall_mem_cons.1 hscope
    rw [chainAlong, hi, ih houter]

/-- The nearest binding of a name along a path is that of its owner. -/
theorem get?_chainAlong (f : Forest) (path : List Nat) (name : String) :
    (f.chainAlong path).get? name =
      (path.find? fun j => ((f.scopeOf j).get? name).isSome).bind fun j => (f.scopeOf j).get? name := by
  fun_induction chainAlong f path with
  | case1 => rfl
  | case2 i =>
    rw [Chain.get?, List.find?_singleton]
    cases hi : (f.scopeOf i).get? name <;> simp [hi]
  | case3 i j outer ih =>
    rw [Chain.get?, List.find?_cons]
    cases hi : (f.scopeOf i).get? name with
    | none => simp only [Option.isSome_none]; exact ih
    | some v => simp [hi]

/-- A definition in the innermost scope of a path binds the innermost scope of the chain. -/
theorem chainAlong_define_head (hi : i < f.size) (hpath : i ∉ path) (name : String) (v : Value) :
    (f.define i name v).chainAlong (i :: path) = (f.chainAlong (i :: path)).define name v := by
  cases path with
  | nil => rw [chainAlong, chainAlong, scopeOf_define_self hi, Chain.define]
  | cons j outer =>
    have houter : (f.define i name v).chainAlong (j :: outer) = f.chainAlong (j :: outer) :=
      chainAlong_congr fun k hk => f.scopeOf_define_of_ne (fun hki : k = i => hpath (hki ▸ hk)) name v
    rw [chainAlong, chainAlong, scopeOf_define_self hi, houter, Chain.define]

/-- Along a path that visits no scope twice, an assignment to the nearest binding is a definition in the owner. -/
theorem assign?_chainAlong (hpath : path.Nodup) (name : String) (v : Value) :
    (f.chainAlong path).assign? name v =
      (path.find? fun j => ((f.scopeOf j).get? name).isSome).map fun j =>
        (f.define j name v).chainAlong path := by
  fun_induction chainAlong f path with
  | case1 => rfl
  | case2 i =>
    rw [Chain.assign?, List.find?_singleton]
    split
    · next hi => rw [Option.map_some, chainAlong, scopeOf_define_self (lt_size_of_isSome_get? hi)]
    · rfl
  | case3 i j outer ih =>
    obtain ⟨hi, houter⟩ := List.nodup_cons.1 hpath
    rw [Chain.assign?, List.find?_cons]
    by_cases hbound : ((f.scopeOf i).get? name).isSome
    · rw [if_pos hbound, hbound, Option.map_some,
        chainAlong_define_head (lt_size_of_isSome_get? hbound) hi, chainAlong, Chain.define]
    · rw [if_neg hbound, ih houter, Option.map_map, Bool.eq_false_iff.2 hbound]
      refine Option.map_congr fun k hk => ?_
      have hik : i ≠ k := fun hik => hi (hik ▸ List.mem_of_find?_eq_some hk)
      rw [Function.comp_apply, chainAlong, f.scopeOf_define_of_ne hik]

/-! ## The two do the same -/

/-- A name means the same in the chain seen from a scope as in the forest seen from it. -/
theorem readVariable_chainFrom (f : Forest) (i : Nat) (name : Token) :
    readVariable name (f.chainFrom i) = f.get i name.lexeme name.line := by
  rw [readVariable, chainFrom, get?_chainAlong, Forest.get, owner?]
  rfl

namespace Agrees

/-- A path leads outward through earlier and earlier scopes. -/
theorem pathOf_pairwise (hf : Agrees f h) (hproper : Proper h) (hi : i < created h) :
    (f.pathOf i).Pairwise (· > ·) := by
  -- A scope is created behind the one that it is inside of, so the induction is on its number.
  induction i using Nat.strongRecOn with
  | ind i ih =>
    rw [hf.path i hi]
    cases hparent : parent? h i with
    | none => exact List.pairwise_singleton _ _
    | some parent =>
      obtain ⟨hlt, -⟩ := lt_of_parent?_eq_some hproper hparent
      have hparent := Nat.lt_trans hlt hi
      have houter := ih parent hlt hparent
      rw [Option.map_some, Option.getD_some]
      refine List.pairwise_cons.2 ⟨fun k hk => ?_, houter⟩
      rw [hf.path parent hparent] at hk houter
      rcases List.mem_cons.1 hk with rfl | hk
      · exact hlt
      · exact Nat.lt_trans ((List.pairwise_cons.1 houter).1 k hk) hlt

/-- The path of a scope begins with it and does not come back to it. -/
theorem exists_pathOf_eq (hf : Agrees f h) (hproper : Proper h) (hi : i < created h) :
    ∃ outer, f.pathOf i = i :: outer ∧ i ∉ outer := by
  have hpath := hf.pathOf_pairwise hproper hi
  rw [hf.path i hi] at hpath
  refine ⟨_, hf.path i hi, fun hmem => ?_⟩
  exact Nat.lt_irrefl i ((List.pairwise_cons.1 hpath).1 i hmem)

/-- A definition in a scope binds the innermost scope of the chain seen from it. -/
theorem chainFrom_define (hf : Agrees f h) (hproper : Proper h) (hi : i < created h) (name : String)
    (v : Value) : (f.define i name v).chainFrom i = (f.chainFrom i).define name v := by
  obtain ⟨outer, hpath, houter⟩ := hf.exists_pathOf_eq hproper hi
  rw [chainFrom, chainFrom, pathOf_define, hpath, chainAlong_define_head (hf.size ▸ hi) houter]

/-- An assignment from a scope is one in the chain seen from it: it succeeds with the same value, or fails with
the same fault and leaves everything as it is. -/
theorem assignVariable_chainFrom (hf : Agrees f h) (hproper : Proper h) (hi : i < created h) (name : Token)
    (v : Value) :
    assignVariable name v (f.chainFrom i) =
      match f.assign i name.lexeme v name.line with
      | .ok g => (.ok v, g.chainFrom i)
      | .error fault => (.error fault, f.chainFrom i) := by
  have hnodup : (f.pathOf i).Nodup := (hf.pathOf_pairwise hproper hi).imp Nat.ne_of_gt
  rw [assignVariable, chainFrom, assign?_chainAlong hnodup, assign, owner?]
  cases (f.pathOf i).find? fun j => ((f.scopeOf j).get? name.lexeme).isSome with
  | none => rfl
  | some j => simp only [Option.map_some, chainFrom, pathOf_define]

/-- The chain seen from a scope inside of another one is that of the other with the scope inside. -/
theorem chainFrom_eq_inner (hf : Agrees f h) (hproper : Proper h) (hparent : parent? h i = some parent) :
    f.chainFrom i = .inner (f.scopeOf i) (f.chainFrom parent) := by
  obtain ⟨hlt, hi⟩ := lt_of_parent?_eq_some hproper hparent
  have hpath : f.pathOf parent ≠ [] := by
    rw [hf.path parent (Nat.lt_trans hlt hi)]
    exact List.cons_ne_nil _ _
  rw [chainFrom, hf.path i hi, hparent, Option.map_some, Option.getD_some, chainAlong_cons f i hpath, chainFrom]

/-- Leaving a scope leads to the chain seen from the one that it is inside of. -/
theorem leave_chainFrom (hf : Agrees f h) (hproper : Proper h) (hparent : parent? h i = some parent) :
    (f.chainFrom i).leave = f.chainFrom parent := by
  rw [hf.chainFrom_eq_inner hproper hparent, Chain.leave]

end Agrees

/-! ## Creating scopes -/

/-- A new scope changes no chain along a path, since it binds nothing. -/
theorem chainAlong_push (f : Forest) (outer path : List Nat) :
    (f.push ⟨.empty, outer⟩).chainAlong path = f.chainAlong path :=
  chainAlong_congr fun k _ => f.scopeOf_push outer k

/-- The number of the next scope stands for an empty one. -/
theorem scopeOf_size (f : Forest) : f.scopeOf f.size = .empty := by
  simp [scopeOf, size]

/-- A new root is a chain of its own. -/
theorem chainFrom_addRoot (f : Forest) : f.addRoot.chainFrom f.size = .root .empty := by
  show (f.push ⟨.empty, [f.size]⟩).chainFrom f.size = .root .empty
  rw [chainFrom, pathOf_push_size, chainAlong_push, chainAlong, scopeOf_size]

/-- Creating a scope inside of another one is entering it. -/
theorem Agrees.chainFrom_addChild (hf : Agrees f h) (hi : i < created h) :
    (f.addChild i).chainFrom f.size = (f.chainFrom i).enter := by
  show (f.push ⟨.empty, f.size :: f.pathOf i⟩).chainFrom f.size = (f.chainFrom i).enter
  have hpath : f.pathOf i ≠ [] := by
    rw [hf.path i hi]
    exact List.cons_ne_nil _ _
  rw [chainFrom, pathOf_push_size, chainAlong_push, chainAlong_cons f _ hpath, scopeOf_size, Chain.enter,
    chainFrom]

/-! ## Executions are histories -/

namespace History

/-- There are no fewer scopes behind more operations. -/
theorem created_le_append (later h : History) : created h ≤ created (later ++ h) := by
  induction later with
  | nil => exact Nat.le_refl _
  | cons op later ih => cases op <;> simp only [List.cons_append, created] <;> omega

/-- A scope stays inside of the one that it was created inside of. -/
theorem parent?_append (later : History) {h : History} {i : Nat} (hi : i < created h) :
    parent? (later ++ h) i = parent? h i := by
  induction later with
  | nil => rfl
  | cons op later ih =>
    cases op with
    | child parent =>
      have hne : i ≠ created (later ++ h) := Nat.ne_of_lt (Nat.lt_of_lt_of_le hi (created_le_append later h))
      rw [List.cons_append, parent?, if_neg hne, ih]
    | root | define | assign | get => exact ih

end History

/-- The chain is the one seen from a scope behind a history. -/
structure Shows (h : History) (i : Nat) (c : Chain) : Prop where
  proper : Proper h
  existing : i < created h
  chain : (after h).chainFrom i = c

namespace Shows

variable {c : Chain} {name : String} {v : Value}

/-- A new root shows the chain that a program begins with. -/
theorem root (hproper : Proper h) : Shows (.root :: h) (created h) (.root .empty) where
  proper := ⟨trivial, hproper⟩
  existing := Nat.lt_succ_self _
  chain := by
    rw [← (agrees_after hproper).size]
    exact chainFrom_addRoot (after h)

/-- A new scope inside of the one that shows a chain shows the chain entered. -/
theorem enter (hs : Shows h i c) : Shows (.child i :: h) (created h) c.enter where
  proper := ⟨hs.existing, hs.proper⟩
  existing := Nat.lt_succ_self _
  chain := by
    have hf := agrees_after hs.proper
    rw [← hf.size, ← hs.chain]
    exact hf.chainFrom_addChild hs.existing

/-- The scope outside of the one that shows a chain shows the chain left. -/
theorem leave (hs : Shows h i c) (hparent : parent? h i = some parent) : Shows h parent c.leave where
  proper := hs.proper
  existing := Nat.lt_trans (lt_of_parent?_eq_some hs.proper hparent).1 hs.existing
  chain := by rw [← hs.chain, (agrees_after hs.proper).leave_chainFrom hs.proper hparent]

/-- A definition in the scope binds the innermost scope of the chain. -/
theorem define (hs : Shows h i c) (name : String) (v : Value) :
    Shows (.define i name v :: h) i (c.define name v) where
  proper := ⟨hs.existing, hs.proper⟩
  existing := hs.existing
  chain := by
    rw [← hs.chain]
    exact (agrees_after hs.proper).chainFrom_define hs.proper hs.existing name v

/-- An assignment from the scope is one in the chain, also if it fails. -/
theorem assign (hs : Shows h i c) (name : Token) (v : Value) :
    Shows (.assign i name.lexeme v name.line :: h) i (assignVariable name v c).2 where
  proper := ⟨hs.existing, hs.proper⟩
  existing := hs.existing
  chain := by
    rw [← hs.chain, (agrees_after hs.proper).assignVariable_chainFrom hs.proper hs.existing, after, step]
    cases (after h).assign i name.lexeme v name.line <;> rfl

/-- A name has the value in the chain that was last written to its owner. -/
theorem get?_eq_some_iff (hs : Shows h i c) :
    c.get? name = some v ↔ ∃ j, Owner h name i j ∧ Latest j name h v := by
  have hf := agrees_after hs.proper
  have hget : c.get? name = ((after h).owner? i name).bind fun j => ((after h).scopeOf j).get? name := by
    rw [← hs.chain, chainFrom, get?_chainAlong, owner?]
  rw [hget, Option.bind_eq_some_iff]
  exact exists_congr fun j => and_congr (hf.owner?_eq_some_iff hs.proper hs.existing) hf.value

end Shows

/-- The operations behind a history define, in the scope of the number, only names of the given tokens, and
otherwise only in scopes that they create. -/
def DefinesOnly (h : History) (i : Nat) (new : List Token) (later : History) : Prop :=
  ∀ k name v, .define k name v ∈ later → created h ≤ k ∨ k = i ∧ ∃ t ∈ new, t.lexeme = name

/-- Wherever the first chain is seen, the history can go on until the second one is seen from the same scope, with
no names defined in the scope but those of the given tokens. -/
def LeadsTo (new : List Token) (c d : Chain) : Prop :=
  ∀ h i, Shows h i c → ∃ later, DefinesOnly h i new later ∧ Shows (later ++ h) i d

/-- Whatever an execution does to its chain is done to it by the operations of a history. -/
theorem leadsTo_frame : Frame (fun _ => True) fun new m n => LeadsTo new m.chain n.chain where
  refl _ _ _ hs := ⟨[], nofun, hs⟩
  trans := by
    intro new m n k hmn hnk h i hs
    obtain ⟨first, hfirst, hs⟩ := hmn h i hs
    obtain ⟨second, hsecond, hs⟩ := hnk _ i hs
    refine ⟨second ++ first, fun k name v hmem => ?_, by rwa [List.append_assoc]⟩
    rcases List.mem_append.1 hmem with hmem | hmem
    · exact (hsecond k name v hmem).imp_left (Nat.le_trans (created_le_append first h))
    · exact hfirst k name v hmem
  mono := by
    intro new more m n hmore hmn h i hs
    obtain ⟨later, hlater, hs⟩ := hmn h i hs
    refine ⟨later, fun k name v hmem => (hlater k name v hmem).imp_right ?_, hs⟩
    rintro ⟨hk, t, ht, hname⟩
    exact ⟨hk, t, hmore ht, hname⟩
  assign := by
    intro name _ v m h i hs
    exact ⟨[.assign i name.lexeme v name.line], fun k x w hmem => by simp at hmem, hs.assign name v⟩
  print v m h i hs := by
    refine ⟨[], nofun, ?_⟩
    rw [Machine.print]
    split <;> exact hs
  define := by
    intro name _ v m h i hs
    refine ⟨[.define i name.lexeme v], fun k x w hmem => ?_, hs.define name.lexeme v⟩
    cases List.mem_singleton.1 hmem
    exact .inr ⟨rfl, name, List.mem_singleton_self name, rfl⟩
  scope := by
    intro new m n hmn h i hs
    -- The body runs in the scope that is created first, so what it defines is there or in later scopes.
    obtain ⟨later, hlater, hinner⟩ := hmn _ _ hs.enter
    have hparent : parent? (later ++ .child i :: h) (created h) = some i := by
      rw [parent?_append later (Nat.lt_succ_self _), parent?, if_pos rfl]
    refine ⟨later ++ [.child i], fun k name v hmem => .inl ?_, ?_⟩
    · have hmem : .define k name v ∈ later := by simpa using hmem
      rcases hlater k name v hmem with hk | ⟨rfl, -⟩
      · exact Nat.le_of_succ_le hk
      · exact Nat.le_refl _
    · rw [List.append_assoc]
      exact hinner.leave hparent

/-- Every execution is a history. If its chain is seen from a scope at the beginning, then the history can go on
so that the chain at the end is seen from there, however the execution ended; the scope is defined no names but
those that the statements declare outside of their blocks. -/
theorem exists_history_execAll {m : Machine} (hs : Shows h i m.chain) (rounds : Nat) (body : List Stmt) :
    ∃ later, DefinesOnly h i (body.flatMap Stmt.declared) later ∧
      Shows (later ++ h) i (Stmt.execAll rounds body m).2.chain :=
  leadsTo_frame.execAll rounds (fun _ _ _ _ => trivial) m h i hs

/-- A program that begins in an empty root scope is a history from the creation of that scope on. Behind the program
a name has the value that the history last wrote to its owner. -/
theorem exists_history_program (rounds : Nat) (program : List Stmt) (sink : Sink) :
    ∃ later, DefinesOnly [.root] 0 (program.flatMap Stmt.declared) later ∧
      ∀ name v, (Stmt.execAll rounds program ⟨.root .empty, sink⟩).2.chain.get? name = some v ↔
        ∃ j, Owner (later ++ [.root]) name 0 j ∧ Latest j name (later ++ [.root]) v := by
  have hroot : Shows [.root] 0 (.root .empty) := .root trivial
  obtain ⟨later, hlater, hs⟩ := exists_history_execAll (m := ⟨.root .empty, sink⟩) hroot rounds program
  exact ⟨later, hlater, fun name v => hs.get?_eq_some_iff⟩

end Forest

end LoxLang
