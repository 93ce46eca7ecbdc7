import LoxLang.Fault
import LoxLang.Value

/-!
# Scopes

A scope binds names to values. Binding a name again replaces its value and keeps its place, so the
names of a scope stand in the order in which they were first bound.
-/

namespace LoxLang

/-- Bindings of names, each name at most once. -/
structure Scope where
  bindings : List (String × Value)
  deriving DecidableEq

namespace Scope

/-- The scope without names. -/
def empty : Scope := ⟨[]⟩

/-- The names a scope binds. -/
def names (s : Scope) : List String :=
  s.bindings.map Prod.fst

/-- The value of a name. -/
def get? (s : Scope) (name : String) : Option Value :=
  s.bindings.lookup name

/-- Bindings with a name bound to a value: in place if it was bound, at the end otherwise. -/
def put (name : String) (value : Value) : List (String × Value) → List (String × Value)
  | [] => [(name, value)]
  | (n, v) :: rest => if n = name then (name, value) :: rest else (n, v) :: put name value rest

/-- Binds a name. -/
def define (s : Scope) (name : String) (value : Value) : Scope :=
  ⟨put name value s.bindings⟩

/-- A name has the value it was put with. -/
theorem lookup_put_self (name : String) (value : Value) (l : List (String × Value)) :
    (put name value l).lookup name = some value := by
  induction l with
  | nil => simp [put]
  | cons p rest ih =>
    obtain ⟨n, v⟩ := p
    by_cases h : n = name
    · simp [put, h]
    · have hb : (name == n) = false := beq_false_of_ne (Ne.symm h)
      simp [put, h, List.lookup_cons, ih, hb]

/-- Putting a name leaves the values of the others alone. -/
theorem lookup_put_of_ne {name other : String} (h : other ≠ name) (value : Value)
    (l : List (String × Value)) : (put name value l).lookup other = l.lookup other := by
  induction l with
  | nil => simp [put, h]
  | cons p rest ih =>
    obtain ⟨n, v⟩ := p
    by_cases hn : n = name
    · subst hn
      have hb : (other == n) = false := beq_false_of_ne h
      simp [put, List.lookup_cons, hb]
    · simp [put, hn, List.lookup_cons, ih]

/-- A name has the value it was last bound to. -/
@[simp] theorem get?_define_self (s : Scope) (name : String) (value : Value) :
    (s.define name value).get? name = some value :=
  lookup_put_self name value s.bindings

/-- Binding a name leaves the others alone. -/
theorem get?_define_of_ne (s : Scope) {name other : String} (h : other ≠ name) (value : Value) :
    (s.define name value).get? other = s.get? other :=
  lookup_put_of_ne h value s.bindings

/-- The scope of a list of bindings, the later ones replacing the earlier. -/
def ofList (bindings : List (String × Value)) : Scope :=
  bindings.foldl (fun s b => s.define b.1 b.2) empty

end Scope

end LoxLang
