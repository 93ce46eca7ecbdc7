import LoxLang.Scope.Basic

/-!
# Numbered scopes

A forest holds scopes that are created one after the other and numbered from 0, each a root or inside
an earlier one. A scope keeps its path, the numbers from its own to its root, so a name seen from a
scope is owned by the first scope on the path that binds it. Scopes can be bound in at any time, also
after scopes inside them were created.
-/

namespace LoxLang

/-- A scope and the numbers of the scopes from it to its root. -/
structure Forest.Node where
  scope : Scope
  path : List Nat
  deriving DecidableEq

/-- Scopes by number. -/
structure Forest where
  nodes : List Forest.Node
  deriving DecidableEq

namespace Forest

/-- The forest without scopes. -/
def empty : Forest := ⟨[]⟩

/-- The number of scopes, which is also the number of the next one. -/
def size (f : Forest) : Nat :=
  f.nodes.length

/-- The scope of a number; a number not in use stands for an empty one. -/
def scopeOf (f : Forest) (i : Nat) : Scope :=
  (f.nodes[i]?.map Node.scope).getD .empty

/-- The path of a scope to its root. -/
def pathOf (f : Forest) (i : Nat) : List Nat :=
  (f.nodes[i]?.map Node.path).getD []

/-- Adds an empty root. -/
def addRoot (f : Forest) : Forest :=
  ⟨f.nodes ++ [⟨.empty, [f.size]⟩]⟩

/-- Adds an empty scope inside another one. -/
def addChild (f : Forest) (parent : Nat) : Forest :=
  ⟨f.nodes ++ [⟨.empty, f.size :: f.pathOf parent⟩]⟩

/-- Binds a name in a scope. -/
def define (f : Forest) (i : Nat) (name : String) (value : Value) : Forest :=
  ⟨f.nodes.modify i fun node => { node with scope := node.scope.define name value }⟩

/-- The scope that owns a name seen from a scope. -/
def owner? (f : Forest) (i : Nat) (name : String) : Option Nat :=
  (f.pathOf i).find? fun j => ((f.scopeOf j).get? name).isSome

/-- The fault of using a name on a line where it has no owner. -/
def undefined (name : String) (line : Nat) : RuntimeFault :=
  ⟨.undefinedVariable name, line⟩

/-- The value of a name seen from a scope, asked for on a line. -/
def get (f : Forest) (i : Nat) (name : String) (line : Nat) : Except RuntimeFault Value :=
  match (f.owner? i name).bind fun j => (f.scopeOf j).get? name with
  | some value => .ok value
  | none => .error (undefined name line)

/-- Replaces the value of a name seen from a scope, asked for on a line. -/
def assign (f : Forest) (i : Nat) (name : String) (value : Value) (line : Nat) :
    Except RuntimeFault Forest :=
  match f.owner? i name with
  | some j => .ok (f.define j name value)
  | none => .error (undefined name line)

end Forest

end LoxLang
