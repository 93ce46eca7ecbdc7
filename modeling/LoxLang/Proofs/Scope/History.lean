import LoxLang.Diagnostic
import LoxLang.Scope.Forest

/-!
# Scopes and the history of their operations

Numbered scopes are created, defined in, assigned to and asked for values, in any order and from any scope.
What a name means is said here by the history of these operations alone. Seen from a scope, a name is owned
by the nearest scope outward in which it has been defined (`History.Owner`), and its value is the one last
written to the owner (`History.Latest`): by a definition there, or by an assignment, from whatever scope,
that the owner was the owner for at its own time.

A forest keeps scopes instead of a history. `Agrees` says when the two tell the same, `Agrees.step` that
every operation on existing scopes keeps it so, and `agrees_after` that it is so behind every history.
-/

namespace LoxLang

namespace Forest

/-! ## Histories -/

/-- An operation on numbered scopes. -/
inductive Operation where
  | root
  | child (parent : Nat)
  | define (scope : Nat) (name : String) (value : Value)
  | assign (scope : Nat) (name : String) (value : Value) (line : Nat)
  | get (scope : Nat) (name : String) (line : Nat)
  deriving DecidableEq

/-- Operations one after the other, the latest one first. -/
abbrev History := List Operation

namespace History

/-- The number of scopes created so far. -/
def created : History → Nat
  | [] => 0
  | .root :: earlier | .child _ :: earlier => created earlier + 1
  | _ :: earlier => created earlier

/-- The scope that the scope of a number was created inside of. -/
def parent? : History → Nat → Option Nat
  | [], _ => none
  | .child parent :: earlier, i => if i = created earlier then some parent else parent? earlier i
  | _ :: earlier, i => parent? earlier i

/-- The name has been defined in the scope. -/
def Defined (h : History) (i : Nat) (name : String) : Prop :=
  ∃ value, .define i name value ∈ h

/-- Seen from the first scope, the name is owned by the second: the nearest one outward in which it has been
defined. -/
inductive Owner (h : History) (name : String) : Nat → Nat → Prop where
  | here {i : Nat} (hi : Defined h i name) : Owner h name i i
  | outward {i parent j : Nat} (hi : ¬Defined h i name) (hparent : parent? h i = some parent)
      (hj : Owner h name parent j) : Owner h name i j

/-- The operation, done behind the history, writes the value to a name in a scope. -/
inductive Writes (earlier : History) (j : Nat) (name : String) : Operation → Value → Prop where
  | define (value : Value) : Writes earlier j name (.define j name value) value
  | assign {i : Nat} (value : Value) (line : Nat) (hi : Owner earlier name i j) :
      Writes earlier j name (.assign i name value line) value

/-- The value last written to a name in a scope. -/
inductive Latest (j : Nat) (name : String) : History → Value → Prop where
  | now {earlier : History} {op : Operation} {value : Value} (h : Writes earlier j name op value) :
      Latest j name (op :: earlier) value
  | before {earlier : History} {op : Operation} {value : Value}
      (hop : ∀ other, ¬Writes earlier j name op other) (h : Latest j name earlier value) :
      Latest j name (op :: earlier) value

/-- The operation is on one of the first `count` scopes, or creates a root. -/
def OnExisting (count : Nat) : Operation → Prop
  | .root => True
  | .child i | .define i _ _ | .assign i _ _ _ | .get i _ _ => i < count

/-- Every operation is on scopes that had been created before it. -/
def Proper : History → Prop
  | [] => True
  | op :: earlier => OnExisting (created earlier) op ∧ Proper earlier

/-! ### What a history tells -/

/-- The value last written is the one written just now, or else the one last written before. -/
theorem latest_cons_iff {earlier : History} {op : Operation} {j : Nat} {name : String} {value : Value} :
    Latest j name (op :: earlier) value ↔
      Writes earlier j name op value ∨
        (∀ other, ¬Writes earlier j name op other) ∧ Latest j name earlier value := by
  constructor
  · rintro (h | ⟨hop, h⟩)
    · exact .inl h
    · exact .inr ⟨hop, h⟩
  · rintro (h | ⟨hop, h⟩)
    · exact .now h
    · exact .before hop h

/-- A name that has been defined in a scope stays defined in it. -/
theorem Defined.cons {earlier : History} {i : Nat} {name : String} (h : Defined earlier i name)
    (op : Operation) : Defined (op :: earlier) i name := by
  obtain ⟨value, hmem⟩ := h
  exact ⟨value, List.mem_cons_of_mem op hmem⟩

/-- A name has been defined in the scope that owns it. -/
theorem Owner.defined {h : History} {name : String} {i j : Nat} (howner : Owner h name i j) :
    Defined h j name := by
  induction howner with
  | here hi => exact hi
  | outward _ _ _ ih => exact ih

/-- A name has been written to in a scope exactly if it has been defined there: an assignment writes only
where there is a definition before it. -/
theorem exists_latest_iff {h : History} {j : Nat} {name : String} :
    (∃ value, Latest j name h value) ↔ Defined h j name := by
  constructor
  · rintro ⟨value, hlatest⟩
    induction hlatest with
    | now hwrites =>
      cases hwrites with
      | define => exact ⟨_, List.mem_cons_self⟩
      | assign _ _ howner => exact howner.defined.cons _
    | before _ _ ih => exact ih.cons _
  · intro hdefined
    induction h with
    | nil => simp [Defined] at hdefined
    | cons op earlier ih =>
      by_cases hwrites : ∃ value, Writes earlier j name op value
      · obtain ⟨value, hwrites⟩ := hwrites
        exact ⟨value, .now hwrites⟩
      · rw [not_exists] at hwrites
        obtain ⟨value, hmem⟩ := hdefined
        rcases List.mem_cons.1 hmem with rfl | hmem
        · exact absurd (.define value) (hwrites value)
        · obtain ⟨value, hlatest⟩ := ih ⟨value, hmem⟩
          exact ⟨value, .before hwrites hlatest⟩

/-- In a proper history, scopes are created inside of earlier ones. -/
theorem lt_of_parent?_eq_some {h : History} (hproper : Proper h) {i parent : Nat}
    (hparent : parent? h i = some parent) : parent < i ∧ i < created h := by
  induction h with
  | nil => cases hparent
  | cons op earlier ih =>
    obtain ⟨hop, hearlier⟩ := hproper
    cases op with
    | child p =>
      rw [parent?] at hparent
      split at hparent
      · next hi =>
        cases hparent
        subst hi
        exact ⟨hop, Nat.lt_succ_self _⟩
      · obtain ⟨hlt, hi⟩ := ih hearlier hparent
        exact ⟨hlt, Nat.lt_succ_of_lt hi⟩
    | root =>
      obtain ⟨hlt, hi⟩ := ih hearlier hparent
      exact ⟨hlt, Nat.lt_succ_of_lt hi⟩
    | define | assign | get => exact ih hearlier hparent

end History

/-! ## Forests -/

/-- The forest behind an operation; an assignment that fails leaves it as it is. -/
def step (f : Forest) : Operation → Forest
  | .root => f.addRoot
  | .child parent => f.addChild parent
  | .define i name value => f.define i name value
  | .assign i name value line =>
    match f.assign i name value line with
    | .ok g => g
    | .error _ => f
  | .get _ _ _ => f

/-- The forest behind a history. -/
def after : History → Forest
  | [] => empty
  | op :: earlier => (after earlier).step op

/-- The forest with another scope at its end. -/
def push (f : Forest) (node : Node) : Forest :=
  ⟨f.nodes ++ [node]⟩

/-- A new scope binds nothing, as a number that is not in use. -/
theorem scopeOf_push (f : Forest) (path : List Nat) (i : Nat) :
    (f.push ⟨.empty, path⟩).scopeOf i = f.scopeOf i := by
  rw [scopeOf, scopeOf, push]
  rcases Nat.lt_trichotomy i f.nodes.length with hi | hi | hi
  · rw [List.getElem?_append_left hi]
  · subst hi
    simp
  · have hge : (f.nodes ++ [Node.mk .empty path]).length ≤ i := by
      rw [List.length_append]
      exact hi
    rw [List.getElem?_eq_none (Nat.le_of_lt hi), List.getElem?_eq_none hge]

/-- The paths of the scopes there are do not change when another one is created. -/
theorem pathOf_push_of_lt {f : Forest} {i : Nat} (hi : i < f.size) (node : Node) :
    (f.push node).pathOf i = f.pathOf i := by
  rw [pathOf, pathOf, push, List.getElem?_append_left hi]

/-- The number of the next scope leads to the path it is created with. -/
theorem pathOf_push_size (f : Forest) (node : Node) : (f.push node).pathOf f.size = node.path := by
  simp [pathOf, push, size]

/-- Defining a name creates no scope. -/
@[simp] theorem size_define (f : Forest) (i : Nat) (name : String) (value : Value) :
    (f.define i name value).size = f.size := by
  simp [define, size]

/-- Defining a name changes no path. -/
@[simp] theorem pathOf_define (f : Forest) (i : Nat) (name : String) (value : Value) (k : Nat) :
    (f.define i name value).pathOf k = f.pathOf k := by
  simp only [pathOf, define, List.getElem?_modify]
  cases f.nodes[k]? with
  | none => rfl
  | some node => by_cases hk : i = k <;> simp [hk]

/-- The scope that a name is defined in binds it. -/
theorem scopeOf_define_self {f : Forest} {i : Nat} (hi : i < f.size) (name : String) (value : Value) :
    (f.define i name value).scopeOf i = (f.scopeOf i).define name value := by
  have hnode : f.nodes[i]? = some f.nodes[i] := List.getElem?_eq_getElem hi
  simp [scopeOf, define, hnode]

/-- The other scopes stay as they are. -/
theorem scopeOf_define_of_ne (f : Forest) {i k : Nat} (hk : k ≠ i) (name : String) (value : Value) :
    (f.define i name value).scopeOf k = f.scopeOf k := by
  simp [scopeOf, define, Ne.symm hk]

/-- Defining a name changes the value of that name in that scope, and nothing else. -/
theorem get?_scopeOf_define {f : Forest} {i : Nat} (hi : i < f.size) (name : String) (value : Value)
    (k : Nat) (other : String) :
    ((f.define i name value).scopeOf k).get? other =
      if k = i ∧ other = name then some value else (f.scopeOf k).get? other := by
  by_cases hk : k = i
  · subst hk
    rw [scopeOf_define_self hi]
    by_cases hother : other = name
    · rw [if_pos ⟨rfl, hother⟩, hother, Scope.get?_define_self]
    · rw [if_neg (fun h => hother h.2), Scope.get?_define_of_ne _ hother]
  · rw [scopeOf_define_of_ne f hk, if_neg (fun h => hk h.1)]

/-- A scope that binds a name is one of the forest. -/
theorem lt_size_of_isSome_get? {f : Forest} {i : Nat} {name : String}
    (h : ((f.scopeOf i).get? name).isSome) : i < f.size := by
  refine Nat.lt_of_not_le fun hge => ?_
  rw [scopeOf, List.getElem?_eq_none hge] at h
  cases h

/-! ## A forest tells what its history does -/

open History

/-- The forest tells what the history does: how many scopes there are, the way from each of them outward, and
the values written to their names. -/
structure Agrees (f : Forest) (h : History) : Prop where
  size : f.size = created h
  path : ∀ i < created h, f.pathOf i = i :: ((parent? h i).map f.pathOf).getD []
  value : ∀ {i : Nat} {name : String} {v : Value},
    (f.scopeOf i).get? name = some v ↔ Latest i name h v

namespace Agrees

variable {f : Forest} {h : History} {i j : Nat} {name : String}

/-- A scope binds exactly the names that have been defined in it. -/
theorem isSome_get?_iff (hf : Agrees f h) :
    ((f.scopeOf i).get? name).isSome ↔ Defined h i name := by
  rw [Option.isSome_iff_exists, ← exists_latest_iff]
  exact exists_congr fun v => hf.value

/-- The way outward is searched for the owner scope by scope. -/
theorem owner?_eq (hf : Agrees f h) (hi : i < created h) [Decidable (Defined h i name)] :
    f.owner? i name =
      if Defined h i name then some i else (parent? h i).bind (f.owner? · name) := by
  rw [owner?, hf.path i hi, List.find?_cons]
  by_cases hdefined : Defined h i name
  · rw [hf.isSome_get?_iff.2 hdefined, if_pos hdefined]
  · rw [Bool.eq_false_iff.2 fun hsome => hdefined (hf.isSome_get?_iff.1 hsome), if_neg hdefined]
    cases parent? h i <;> rfl

/-- The forest finds the owner. -/
theorem owner?_eq_some_iff (hf : Agrees f h) (hproper : Proper h) (hi : i < created h) :
    f.owner? i name = some j ↔ Owner h name i j := by
  classical
  -- A scope is created behind the one that it is inside of, so the induction is on its number.
  induction i using Nat.strongRecOn with
  | ind i ih =>
    rw [hf.owner?_eq hi]
    split
    · next hdefined =>
      constructor
      · rintro ⟨⟩
        exact .here hdefined
      · rintro (_ | ⟨hnot, _, _⟩)
        · rfl
        · exact absurd hdefined hnot
    · next hdefined =>
      rw [Option.bind_eq_some_iff]
      constructor
      · rintro ⟨parent, hparent, howner⟩
        obtain ⟨hlt, -⟩ := lt_of_parent?_eq_some hproper hparent
        exact .outward hdefined hparent ((ih parent hlt (Nat.lt_trans hlt hi)).1 howner)
      · rintro (hnow | ⟨_, hparent, howner⟩)
        · exact absurd hnow hdefined
        · obtain ⟨hlt, -⟩ := lt_of_parent?_eq_some hproper hparent
          exact ⟨_, hparent, (ih _ hlt (Nat.lt_trans hlt hi)).2 howner⟩

/-- A name without an owner is found in no scope. -/
theorem owner?_eq_none_iff (hf : Agrees f h) (hproper : Proper h) (hi : i < created h) :
    f.owner? i name = none ↔ ¬∃ j, Owner h name i j := by
  rw [Option.eq_none_iff_forall_ne_some, not_exists]
  exact forall_congr' fun j => not_congr (hf.owner?_eq_some_iff hproper hi)

/-- An owner is a scope of the forest. -/
theorem lt_size_of_owner (hf : Agrees f h) (howner : Owner h name i j) : j < f.size :=
  lt_size_of_isSome_get? (hf.isSome_get?_iff.2 howner.defined)

/-! ### One operation -/

/-- An operation that creates no scope and writes nothing. -/
theorem idle (hf : Agrees f h) {op : Operation} (hcreated : created (op :: h) = created h)
    (hparent : parent? (op :: h) = parent? h) (hwrites : ∀ k other v, ¬Writes h k other op v) :
    Agrees f (op :: h) where
  size := hcreated ▸ hf.size
  path := by
    rw [hcreated, hparent]
    exact hf.path
  value := by
    intro k other v
    rw [latest_cons_iff, hf.value]
    exact ⟨fun hlatest => .inr ⟨hwrites k other, hlatest⟩,
      fun hlatest => (hlatest.resolve_left (hwrites k other v)).2⟩

/-- An operation that creates no scope and writes to one name in one scope. -/
theorem write (hf : Agrees f h) {op : Operation} {v : Value} (hcreated : created (op :: h) = created h)
    (hparent : parent? (op :: h) = parent? h) (hj : j < f.size)
    (hwrites : ∀ k other w, Writes h k other op w ↔ (k = j ∧ other = name) ∧ w = v) :
    Agrees (f.define j name v) (op :: h) where
  size := by rw [size_define, hf.size, hcreated]
  path := by
    rw [hcreated, hparent]
    intro i hi
    have hpath : (f.define j name v).pathOf = f.pathOf := funext fun k => f.pathOf_define j name v k
    rw [hpath]
    exact hf.path i hi
  value := by
    intro k other w
    rw [latest_cons_iff, get?_scopeOf_define hj, hwrites]
    by_cases hk : k = j ∧ other = name
    · have hwritten : ∃ w, Writes h k other op w := ⟨v, (hwrites k other v).2 ⟨hk, rfl⟩⟩
      rw [if_pos hk, Option.some.injEq]
      constructor
      · rintro rfl
        exact .inl ⟨hk, rfl⟩
      · rintro (⟨-, rfl⟩ | ⟨hnone, -⟩)
        · rfl
        · obtain ⟨w, hw⟩ := hwritten
          exact absurd hw (hnone w)
    · have hnone : ∀ w, ¬Writes h k other op w := fun w hw => hk ((hwrites k other w).1 hw).1
      rw [if_neg hk, hf.value]
      exact ⟨fun hlatest => .inr ⟨hnone, hlatest⟩,
        fun hlatest => (hlatest.resolve_left fun hw => hk hw.1).2⟩

/-- An operation that creates a scope, inside of an existing one or as a root. -/
theorem create (hf : Agrees f h) (hproper : Proper h) {op : Operation} (outside : Option Nat)
    (hcreated : created (op :: h) = created h + 1)
    (hparent : ∀ k, parent? (op :: h) k = if k = created h then outside else parent? h k)
    (houtside : ∀ p, outside = some p → p < created h) (hwrites : ∀ k other v, ¬Writes h k other op v) :
    Agrees (f.push ⟨.empty, f.size :: (outside.map f.pathOf).getD []⟩) (op :: h) where
  size := by
    rw [hcreated, ← hf.size]
    simp [Forest.size, push]
  path := by
    -- The scopes that a scope is inside of were there before the new one.
    have hold (node : Node) {p? : Option Nat} (hp : ∀ p, p? = some p → p < created h) :
        p?.map (f.push node).pathOf = p?.map f.pathOf := by
      cases p? with
      | none => rfl
      | some p => exact congrArg some (pathOf_push_of_lt (hf.size ▸ hp p rfl) node)
    intro k hk
    rw [hcreated] at hk
    rcases Nat.lt_succ_iff_lt_or_eq.1 hk with hk | rfl
    · have hbefore : ∀ p, parent? h k = some p → p < created h := by
        intro p hp
        exact Nat.lt_trans (lt_of_parent?_eq_some hproper hp).1 hk
      rw [hparent, if_neg (Nat.ne_of_lt hk), hold _ hbefore, pathOf_push_of_lt (hf.size ▸ hk)]
      exact hf.path k hk
    · rw [hparent, if_pos rfl, hold _ houtside, ← hf.size, pathOf_push_size]
  value := by
    intro k other v
    rw [scopeOf_push, latest_cons_iff, hf.value]
    exact ⟨fun hlatest => .inr ⟨hwrites k other, hlatest⟩,
      fun hlatest => (hlatest.resolve_left (hwrites k other v)).2⟩

/-- Every operation on existing scopes does to the forest what it adds to the history. -/
theorem step (hf : Agrees f h) (hproper : Proper h) {op : Operation}
    (hop : OnExisting (created h) op) : Agrees (f.step op) (op :: h) := by
  cases op with
  | root =>
    have hlast : parent? h (created h) = none := by
      refine Option.eq_none_iff_forall_ne_some.2 fun p hp => ?_
      exact Nat.lt_irrefl _ (lt_of_parent?_eq_some hproper hp).2
    refine hf.create hproper none rfl (fun k => ?_) nofun nofun
    split
    · next hk => rw [hk]; exact hlast
    · rfl
  | child parent =>
    refine hf.create hproper (some parent) rfl (fun k => rfl) ?_ nofun
    rintro _ ⟨⟩
    exact hop
  | define i x v =>
    refine hf.write rfl rfl (hf.size ▸ hop) fun k other w => ⟨?_, ?_⟩
    · rintro ⟨⟩
      exact ⟨⟨rfl, rfl⟩, rfl⟩
    · rintro ⟨⟨rfl, rfl⟩, rfl⟩
      exact .define w
  | assign i x v line =>
    rw [Forest.step, Forest.assign]
    cases howner : f.owner? i x with
    | none =>
      have hnone := (hf.owner?_eq_none_iff hproper hop).1 howner
      refine hf.idle rfl rfl ?_
      rintro k other w ⟨⟩
      exact hnone ⟨k, ‹_›⟩
    | some j =>
      have hj := (hf.owner?_eq_some_iff hproper hop).1 howner
      refine hf.write rfl rfl (hf.lt_size_of_owner hj) fun k other w => ⟨?_, ?_⟩
      · rintro ⟨⟩
        have hk := (hf.owner?_eq_some_iff hproper hop).2 ‹_›
        exact ⟨⟨Option.some.inj (hk.symm.trans howner), rfl⟩, rfl⟩
      · rintro ⟨⟨rfl, rfl⟩, rfl⟩
        exact .assign w line hj
  | get i x line => exact hf.idle rfl rfl nofun

end Agrees

/-- Behind every history the forest tells what the history does. -/
theorem agrees_after {h : History} (hproper : Proper h) : Agrees (after h) h := by
  induction h with
  | nil =>
    refine ⟨rfl, nofun, ?_⟩
    intro i name v
    exact iff_of_false nofun nofun
  | cons op earlier ih => exact (ih hproper.2).step hproper.2 hproper.1

/-! ## What a name means -/

variable {h : History} {i j : Nat} {name : String}

/-- A name without an owner has no value. -/
theorem get_of_not_owner (hproper : Proper h) (hi : i < created h) (hnone : ¬∃ j, Owner h name i j)
    (line : Nat) : (after h).get i name line = .error (undefined name line) := by
  rw [get, ((agrees_after hproper).owner?_eq_none_iff hproper hi).2 hnone]
  rfl

/-- A name with an owner has the value last written to the owner. -/
theorem exists_get_of_owner (hproper : Proper h) (hi : i < created h) (howner : Owner h name i j)
    (line : Nat) :
    ∃ v, (after h).get i name line = .ok v ∧ ∀ w, Latest j name h w ↔ w = v := by
  have hf := agrees_after hproper
  obtain ⟨v, hv⟩ := exists_latest_iff.2 howner.defined
  have hvalue := hf.value.2 hv
  refine ⟨v, ?_, fun w => ?_⟩
  · rw [get, (hf.owner?_eq_some_iff hproper hi).2 howner, Option.bind_some, hvalue]
  · rw [← hf.value, hvalue, Option.some.injEq, eq_comm]

/-- A name without an owner cannot be assigned. -/
theorem assign_of_not_owner (hproper : Proper h) (hi : i < created h) (hnone : ¬∃ j, Owner h name i j)
    (v : Value) (line : Nat) : (after h).assign i name v line = .error (undefined name line) := by
  rw [assign, ((agrees_after hproper).owner?_eq_none_iff hproper hi).2 hnone]

/-- An assignment to a name with an owner is a definition in the owner. -/
theorem assign_of_owner (hproper : Proper h) (hi : i < created h) (howner : Owner h name i j)
    (v : Value) (line : Nat) :
    (after h).assign i name v line = .ok ((after h).define j name v) := by
  rw [assign, ((agrees_after hproper).owner?_eq_some_iff hproper hi).2 howner]

/-- Scopes match the history of their operations. Whatever scopes have been created, defined in and assigned
to, in whatever order, a name seen from a scope has no value exactly if it has no owner, and is then said to
be undefined on the line it is asked for on. Otherwise it has the one value that was last written to the
owner. It cannot be assigned exactly if it has no value, for the same fault, and every scope then stays as it
is; an assignment changes the value of the name in the owner, and nothing else. -/
theorem get_assign_after (hproper : Proper h) (hi : i < created h) (name : String) (line : Nat) :
    ((∃ fault, (after h).get i name line = .error fault) ↔ ¬∃ j, Owner h name i j) ∧
      (∀ fault, (after h).get i name line = .error fault →
        fault.diagnostic = .runtime line ("Undefined variable '" ++ name ++ "'.")) ∧
      (∀ j, Owner h name i j →
        ∃ v, (after h).get i name line = .ok v ∧ ∀ w, Latest j name h w ↔ w = v) ∧
      ∀ v,
        (∀ fault, (after h).assign i name v line = .error fault ↔
          (after h).get i name line = .error fault) ∧
        (∀ fault, (after h).assign i name v line = .error fault →
          after (.assign i name v line :: h) = after h) ∧
        ∀ j, Owner h name i j → ∃ g, (after h).assign i name v line = .ok g ∧
          after (.assign i name v line :: h) = g ∧ g.size = (after h).size ∧
          (∀ k, g.pathOf k = (after h).pathOf k) ∧
          ∀ k other, (g.scopeOf k).get? other =
            if k = j ∧ other = name then some v else ((after h).scopeOf k).get? other := by
  have hafter (v : Value) : after (.assign i name v line :: h) =
      match (after h).assign i name v line with
      | .ok g => g
      | .error _ => after h := rfl
  by_cases howned : ∃ j, Owner h name i j
  · obtain ⟨j, howner⟩ := howned
    obtain ⟨v, hget, hlatest⟩ := exists_get_of_owner hproper hi howner line
    have hassign := assign_of_owner hproper hi howner
    refine ⟨?_, ?_, fun k hk => exists_get_of_owner hproper hi hk line, fun w => ⟨?_, ?_, ?_⟩⟩
    · exact iff_of_false (by rw [hget]; nofun) (not_not_intro ⟨j, howner⟩)
    · rw [hget]
      nofun
    · rw [hget, hassign]
      exact fun fault => iff_of_false nofun nofun
    · rw [hassign]
      nofun
    · intro k hk
      have hassigned := assign_of_owner hproper hi hk w line
      have hlt := (agrees_after hproper).lt_size_of_owner hk
      refine ⟨_, hassigned, ?_, size_define _ _ _ _, pathOf_define _ _ _ _, get?_scopeOf_define hlt name w⟩
      rw [hafter, hassigned]
  · have hget := get_of_not_owner hproper hi howned line
    have hassign := assign_of_not_owner hproper hi howned
    refine ⟨iff_of_true ⟨_, hget⟩ howned, ?_, fun j hj => absurd ⟨j, hj⟩ howned, fun v => ⟨?_, ?_, ?_⟩⟩
    · rw [hget]
      rintro _ ⟨⟩
      rfl
    · intro fault
      rw [hget, hassign, Except.error.injEq, Except.error.injEq]
    · intro fault _
      rw [hafter, hassign]
    · exact fun j hj => absurd ⟨j, hj⟩ howned

/-- Two scopes inside of a root and a third one inside of the first. The name is assigned to from the third
scope before it is defined in the first, and from the second scope behind that. -/
def shadowedLater : History :=
  [.assign 2 "x" (.string "d") 3, .define 1 "x" (.string "c"), .assign 3 "x" (.string "b") 1,
    .define 0 "x" (.string "a"), .child 1, .child 0, .child 0, .root]

/-- The root has the value assigned last from the second scope, and the third scope does not see it. -/
theorem get_assign_after_shadowedLater :
    Proper shadowedLater ∧ 3 < created shadowedLater ∧ Owner shadowedLater "x" 3 1 ∧
      (after shadowedLater).get 3 "x" 7 = .ok (.string "c") ∧
      (∀ v, Latest 1 "x" shadowedLater v ↔ v = .string "c") ∧
      Owner shadowedLater "x" 2 0 ∧ (after shadowedLater).get 2 "x" 8 = .ok (.string "d") ∧
      (∀ v, Latest 0 "x" shadowedLater v ↔ v = .string "d") ∧
      ∃ fault, (after shadowedLater).get 3 "y" 9 = .error fault ∧
        fault.diagnostic = .runtime 9 "Undefined variable 'y'." := by
  have hproper : Proper shadowedLater := by simp [shadowedLater, Proper, OnExisting, created]
  have hthird : 3 < created shadowedLater := by decide
  have howner : Owner shadowedLater "x" 3 1 :=
    .outward (by simp [shadowedLater, Defined]) rfl (.here ⟨.string "c", by decide⟩)
  have howner' : Owner shadowedLater "x" 2 0 :=
    .outward (by simp [shadowedLater, Defined]) rfl (.here ⟨.string "a", by decide⟩)
  obtain ⟨-, -, hget, -⟩ := get_assign_after hproper hthird "x" 7
  obtain ⟨-, -, hget', -⟩ := get_assign_after hproper (by decide : 2 < _) "x" 8
  obtain ⟨v, hv, hlatest⟩ := hget 1 howner
  obtain ⟨v', hv', hlatest'⟩ := hget' 0 howner'
  cases hv
  cases hv'
  exact ⟨hproper, hthird, howner, rfl, hlatest, howner', rfl, hlatest', _, rfl,
    (get_assign_after hproper hthird "y" 9).2.1 _ rfl⟩

end Forest

end LoxLang
