import LoxLang.Parse.Basic

/-!
# Reading expressions

```text
expression → IDENTIFIER "=" expression | or
or         → and ( "or" and )*
and        → equality ( "and" equality )*
equality   → comparison ( ( "!=" | "==" ) comparison )*
comparison → term ( ( ">" | ">=" | "<" | "<=" ) term )*
term       → factor ( ( "-" | "+" ) factor )*
factor     → unary ( ( "/" | "*" ) unary )*
unary      → ( "!" | "-" ) unary | primary
primary    → NUMBER | STRING | "true" | "false" | "null" | IDENTIFIER | "(" expression ")"
```

The six levels of infix operators differ only in their operators, so they are a table (`levels`) read by
one parser (`infixes`). An assignment is read as an `or` expression whose form is looked at when an
equals sign follows.

An expression contains another one only behind a token of its own. So `expression bound`, which stands
for reading at most `bound` tokens, is built from `expression (bound - 1)`, and reading `n` tokens with
any bound from `n` on gives the same outcome.
-/

namespace LoxLang.Parser

/-- A level of infix operators that group to the left. -/
structure Level where
  operators : List Kind
  join : Expr → Token → Expr → Expr

/-- The levels, loosest first. -/
def levels : List Level :=
  [⟨[.orWord], .logical⟩,
    ⟨[.andWord], .logical⟩,
    ⟨[.bangEqual, .equalEqual], .binary⟩,
    ⟨[.greater, .greaterEqual, .less, .lessEqual], .binary⟩,
    ⟨[.minus, .plus], .binary⟩,
    ⟨[.slash, .star], .binary⟩]

/-- The value a token of kind number or string stands for: whatever its literal is. -/
def literalValue (t : Token) : Value :=
  match t.literal with
  | some (.number x) => .number x
  | some (.string s) => .string s
  | none => .null

/-- A primary expression, given how to read an expression in brackets. -/
def primary (inner : Parser Expr) : Parser Expr := do
  match ← peek? with
  | none => fail .expression
  | some t =>
    match t.kind with
    | .falseWord => skip; return .literal (.bool false)
    | .trueWord => skip; return .literal (.bool true)
    | .nullWord => skip; return .literal .null
    | .number | .string => skip; return .literal (literalValue t)
    | .identifier => skip; return .read t
    | .leftParen =>
      skip
      let e ← inner
      let _ ← expect .rightParen .parenAfterExpression
      return .grouping e
    | _ => fail .expression

/-- A primary expression behind any number of unary operators. -/
def unary (primary : Parser Expr) : Nat → Parser Expr
  | 0 => primary
  | bound + 1 => do
    match ← accept? [.bang, .minus] with
    | some operator => return .unary operator (← unary primary bound)
    | none => primary

/-- What follows the left operand at a level: operators of the level, each with its right operand. -/
def chain (level : Level) (operand : Parser Expr) : Nat → Expr → Parser Expr
  | 0, left => return left
  | bound + 1, left => do
    match ← accept? level.operators with
    | some operator =>
      let right ← operand
      chain level operand bound (level.join left operator right)
    | none => return left

/-- An expression of the given levels, loosest first, over a tightest one. -/
def infixes (bound : Nat) (tightest : Parser Expr) : List Level → Parser Expr
  | [] => tightest
  | level :: tighter => do
    let left ← infixes bound tightest tighter
    chain level (infixes bound tightest tighter) bound left

/-- An assignment or the expression `target`; `inner` reads what is assigned. A target that is no name
is reported once the assigned expression has been read, and that expression then stands for both. -/
def assignment (target inner : Parser Expr) : Parser Expr := do
  let left ← target
  match ← accept? [.equal] with
  | none => return left
  | some equals =>
    let value ← inner
    match left with
    | .read name => return .assign name value
    | _ =>
      report .invalidTarget equals
      return value

/-- An expression of at most `bound` tokens. -/
def expression : Nat → Parser Expr
  | 0 => fail .expression
  | bound + 1 =>
    let inner := expression bound
    assignment (infixes (bound + 1) (unary (primary inner) (bound + 1)) levels) inner

end LoxLang.Parser
