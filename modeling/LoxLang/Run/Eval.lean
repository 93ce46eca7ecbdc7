import LoxLang.Scope.Chain
import LoxLang.Tree.Basic

/-!
# Evaluating expressions

An expression is evaluated in a chain of scopes, which assignments change. The chain is part of the
answer also when evaluation stops at a fault, since what was assigned before stays assigned.

An operator is looked at after its operands have been evaluated: both of them, left first, for an infix
operator, but only the left one for `and` and `or`, whose right operand is evaluated only if the left one
does not decide.
-/

namespace LoxLang

/-- A value or a fault at some line. -/
abbrev Evaluated := Except RuntimeFault Value

/-- The fault of a cause at a token. -/
def RuntimeCause.at (cause : RuntimeCause) (t : Token) : Evaluated :=
  .error ⟨cause, t.line⟩

/-- A unary operator applied to the value of its operand. -/
def applyUnary (operator : Token) (right : Value) : Evaluated :=
  match operator.kind with
  | .bang => .ok (.bool !right.truthy)
  | .minus =>
    match right with
    | .number x => .ok (.number (-x))
    | _ => RuntimeCause.operandNotNumber.at operator
  | _ => (RuntimeCause.invalidOperator operator.lexeme).at operator

/-- An operator on numbers. -/
def applyNumeric (operator : Token) (f : Float → Float → Value) : Value → Value → Evaluated
  | .number x, .number y => .ok (f x y)
  | _, _ => RuntimeCause.operandsNotNumbers.at operator

/-- Addition of numbers and joining of strings. -/
def applyPlus (operator : Token) : Value → Value → Evaluated
  | .number x, .number y => .ok (.number (x + y))
  | .string s, .string t => .ok (.string (s ++ t))
  | _, _ => RuntimeCause.operandsNotAddable.at operator

/-- An infix operator applied to the values of its operands. -/
def applyBinary (operator : Token) (left right : Value) : Evaluated :=
  match operator.kind with
  | .plus => applyPlus operator left right
  | .minus => applyNumeric operator (fun x y => .number (x - y)) left right
  | .star => applyNumeric operator (fun x y => .number (x * y)) left right
  | .slash => applyNumeric operator (fun x y => .number (x / y)) left right
  | .greater => applyNumeric operator (fun x y => .bool (decide (y < x))) left right
  | .greaterEqual => applyNumeric operator (fun x y => .bool (decide (y ≤ x))) left right
  | .less => applyNumeric operator (fun x y => .bool (decide (x < y))) left right
  | .lessEqual => applyNumeric operator (fun x y => .bool (decide (x ≤ y))) left right
  | .equalEqual => .ok (.bool (left.equals right))
  | .bangEqual => .ok (.bool !(left.equals right))
  | _ => (RuntimeCause.invalidOperator operator.lexeme).at operator

/-- Whether the value of the left operand of `and` or `or` is the value of the whole. -/
def decides (operator : Token) (left : Value) : Except RuntimeFault Bool :=
  match operator.kind with
  | .orWord => .ok left.truthy
  | .andWord => .ok !left.truthy
  | _ => .error ⟨.invalidOperator operator.lexeme, operator.line⟩

/-- The value of the variable that a token names. -/
def readVariable (name : Token) (c : Chain) : Evaluated :=
  match c.get? name.lexeme with
  | some value => .ok value
  | none => (RuntimeCause.undefinedVariable name.lexeme).at name

/-- Assigns a value to the variable that a token names; the value is that of the assignment. -/
def assignVariable (name : Token) (value : Value) (c : Chain) : Evaluated × Chain :=
  match c.assign? name.lexeme value with
  | some c' => (.ok value, c')
  | none => ((RuntimeCause.undefinedVariable name.lexeme).at name, c)

/-- The value of an expression and the chain behind its evaluation. -/
def Expr.eval : Expr → Chain → Evaluated × Chain
  | literal value, c => (.ok value, c)
  | grouping inner, c => inner.eval c
  | unary operator right, c =>
    match right.eval c with
    | (.error fault, c) => (.error fault, c)
    | (.ok value, c) => (applyUnary operator value, c)
  | binary left operator right, c =>
    match left.eval c with
    | (.error fault, c) => (.error fault, c)
    | (.ok x, c) =>
      match right.eval c with
      | (.error fault, c) => (.error fault, c)
      | (.ok y, c) => (applyBinary operator x y, c)
  | logical left operator right, c =>
    match left.eval c with
    | (.error fault, c) => (.error fault, c)
    | (.ok x, c) =>
      match decides operator x with
      | .error fault => (.error fault, c)
      | .ok true => (.ok x, c)
      | .ok false => right.eval c
  | read name, c => (readVariable name c, c)
  | assign name value, c =>
    match value.eval c with
    | (.error fault, c) => (.error fault, c)
    | (.ok v, c) => assignVariable name v c

end LoxLang
