import LoxLang.Scope.Basic

/-!
# Chains of scopes

A statement runs in a chain of scopes, each inside the next, the last one being the root. A name means
its nearest binding: `get?` finds it, `assign?` replaces its value, and both fail exactly when no scope
of the chain binds the name. Only `define` binds, and only in the innermost scope.
-/

namespace LoxLang

/-- Scopes from the innermost one to the root. -/
inductive Chain where
  | root (scope : Scope)
  | inner (scope : Scope) (outer : Chain)
  deriving DecidableEq

namespace Chain

/-- The outermost scope. -/
def globals : Chain → Scope
  | root s => s
  | inner _ outer => outer.globals

/-- A new scope inside a chain. -/
def enter (c : Chain) : Chain :=
  inner .empty c

/-- The chain around the innermost scope; there is none around the root. -/
def leave : Chain → Chain
  | root s => root s
  | inner _ outer => outer

/-- The value of the nearest binding of a name. -/
def get? (name : String) : Chain → Option Value
  | root s => s.get? name
  | inner s outer =>
    match s.get? name with
    | some v => some v
    | none => outer.get? name

/-- Binds a name in the innermost scope. -/
def define (name : String) (value : Value) : Chain → Chain
  | root s => root (s.define name value)
  | inner s outer => inner (s.define name value) outer

/-- Replaces the value of the nearest binding of a name. -/
def assign? (name : String) (value : Value) : Chain → Option Chain
  | root s => if (s.get? name).isSome then some (root (s.define name value)) else none
  | inner s outer =>
    if (s.get? name).isSome then some (inner (s.define name value) outer)
    else (outer.assign? name value).map (inner s)

/-- The chain of scopes given from the outermost one inward; without any it is an empty root. -/
def ofScopes : List Scope → Chain
  | [] => root .empty
  | outermost :: rest => rest.foldl (fun c s => inner s c) (root outermost)

/-- Entering a scope and leaving it leads back. -/
@[simp] theorem leave_enter (c : Chain) : c.enter.leave = c := rfl

/-- A name can be assigned exactly when it has a value. -/
theorem isSome_assign? (name : String) (value : Value) (c : Chain) :
    (c.assign? name value).isSome = (c.get? name).isSome := by
  induction c with
  | root s => by_cases h : (s.get? name).isSome <;> simp [assign?, get?, h]
  | inner s outer ih =>
    cases h : s.get? name <;> simp [assign?, get?, h, ih]

end Chain

end LoxLang
