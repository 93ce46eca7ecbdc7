import LoxLang.Token.Basic
import LoxLang.Value

/-!
# Trees

Expressions and statements. A node keeps the token of its operator or name, which carries the line
that a fault at the node is reported on. A `for` statement has no node: `Stmt.forLoop` builds it from a
block and a `while` loop. The loop body and the increment share a block of their own, so that the
increment does not see what the body declares.
-/

namespace LoxLang

/-- Expressions. -/
inductive Expr where
  | literal (value : Value)
  | grouping (inner : Expr)
  | unary (operator : Token) (right : Expr)
  | binary (left : Expr) (operator : Token) (right : Expr)
  | logical (left : Expr) (operator : Token) (right : Expr)
  | read (name : Token)
  | assign (name : Token) (value : Expr)
  deriving DecidableEq

/-- Statements; a conditional without an alternative is a form of its own. -/
inductive Stmt where
  | expression (e : Expr)
  | print (e : Expr)
  | declare (name : Token) (initial : Option Expr)
  | block (body : List Stmt)
  | ifThen (condition : Expr) (yes : Stmt)
  | ifThenElse (condition : Expr) (yes no : Stmt)
  | whileLoop (condition : Expr) (body : Stmt)

namespace Stmt

/-- The loop body together with what is evaluated after each round of it. -/
def withIncrement (body : Stmt) : Option Expr → Stmt
  | none => body
  | some increment => block [body, expression increment]

/-- A statement after what is run once before it, in a scope of their own. -/
def withInitial (loop : Stmt) : Option Stmt → Stmt
  | none => loop
  | some initial => block [initial, loop]

/-- The statement `for (initial; condition; increment) body`; a missing condition always holds. -/
def forLoop (initial : Option Stmt) (condition increment : Option Expr) (body : Stmt) : Stmt :=
  let round := body.withIncrement increment
  let loop := whileLoop (condition.getD (.literal (.bool true))) round
  loop.withInitial initial

end Stmt

end LoxLang
