import LoxLang.Parse.Expr

/-!
# Reading statements

```text
program     → declaration* end
declaration → "var" IDENTIFIER ( "=" expression )? ";" | statement
statement   → expression ";"
            | "print" expression ";"
            | "{" declaration* "}"
            | "if" "(" expression ")" statement ( "else" statement )?
            | "while" "(" expression ")" statement
            | "for" "(" ( declaration of a variable | expression ";" | ";" )
                        expression? ";" expression? ")" statement
```

A declaration that cannot be read is reported and skipped, also inside a block; so a program or a block
fails for no declaration of its own. `Parse.program` reads a token list as a program and
`Parse.expression` as one expression.
-/

namespace LoxLang

namespace Parser

/-- An expression statement. -/
def expressionStatement (bound : Nat) : Parser Stmt := do
  let e ← expression bound
  let _ ← expect .semicolon .semicolonAfterExpression
  return .expression e

/-- A print statement behind its first word. -/
def printStatement (bound : Nat) : Parser Stmt := do
  let e ← expression bound
  let _ ← expect .semicolon .semicolonAfterValue
  return .print e

/-- The expression behind an equals sign, if there is one. -/
def initializer? (bound : Nat) : Parser (Option Expr) := do
  match ← accept? [.equal] with
  | some _ => return some (← expression bound)
  | none => return none

/-- A variable declaration behind its first word. -/
def varDeclaration (bound : Nat) : Parser Stmt := do
  let name ← expect .identifier .variableName
  let initial ← initializer? bound
  let _ ← expect .semicolon .semicolonAfterDeclaration
  return .declare name initial

/-- An expression, unless the next token is of the kind that closes an empty place for one. -/
def optionalExpression (bound : Nat) (close : Kind) : Parser (Option Expr) := do
  if (← peekKind?) = some close then return none else return some (← expression bound)

/-- The first clause of a `for` statement, its semicolon included. -/
def forInitial (bound : Nat) : Parser (Option Stmt) := do
  match ← peekKind? with
  | some .semicolon => skip; return none
  | some .varWord => skip; return some (← varDeclaration bound)
  | _ => return some (← expressionStatement bound)

/-- A `for` statement behind its first word. -/
def forStatement (bound : Nat) (inner : Parser Stmt) : Parser Stmt := do
  let _ ← expect .leftParen .parenAfterFor
  let initial ← forInitial bound
  let condition ← optionalExpression bound .semicolon
  let _ ← expect .semicolon .semicolonAfterLoopCondition
  let increment ← optionalExpression bound .rightParen
  let _ ← expect .rightParen .parenAfterForClauses
  let body ← inner
  return .forLoop initial condition increment body

/-- An `if` statement behind its first word; an `else` belongs to the nearest one. -/
def ifStatement (bound : Nat) (inner : Parser Stmt) : Parser Stmt := do
  let _ ← expect .leftParen .parenAfterIf
  let condition ← expression bound
  let _ ← expect .rightParen .parenAfterIfCondition
  let yes ← inner
  match ← accept? [.elseWord] with
  | some _ => return .ifThenElse condition yes (← inner)
  | none => return .ifThen condition yes

/-- A `while` statement behind its first word. -/
def whileStatement (bound : Nat) (inner : Parser Stmt) : Parser Stmt := do
  let _ ← expect .leftParen .parenAfterWhile
  let condition ← expression bound
  let _ ← expect .rightParen .parenAfterCondition
  return .whileLoop condition (← inner)

/-- A declaration, given how to read a statement. -/
def declaration (bound : Nat) (statement : Parser Stmt) : Parser Stmt := do
  match ← peekKind? with
  | some .varWord => skip; varDeclaration bound
  | _ => statement

/-- Declarations up to a token of a closing kind or the end; those that cannot be read are reported and
left out. -/
def declarations (closing : List Kind) (one : Parser Stmt) : Nat → Parser (List Stmt)
  | 0 => return []
  | bound + 1 => do
    match ← peekKind? with
    | none => return []
    | some kind =>
      if kind ∈ closing then return []
      else
        let first ← recovering one
        let others ← declarations closing one bound
        return first.toList ++ others

/-- A block behind its opening brace. -/
def block (bound : Nat) (inner : Parser Stmt) : Parser Stmt := do
  let body ← declarations [.rightBrace] (declaration bound inner) bound
  let _ ← expect .rightBrace .braceAfterBlock
  return .block body

/-- A statement of at most `bound` tokens. A statement contains another one only behind a token of its
own, so a smaller bound is enough for that one. -/
def statement : Nat → Parser Stmt
  | 0 => fail .expression
  | bound + 1 => do
    let inner := statement bound
    match ← peekKind? with
    | some .forWord => skip; forStatement bound inner
    | some .ifWord => skip; ifStatement bound inner
    | some .whileWord => skip; whileStatement bound inner
    | some .leftBrace => skip; block bound inner
    | some .printWord => skip; printStatement bound
    | _ => expressionStatement (bound + 1)

/-- A program of at most `bound` tokens. -/
def program (bound : Nat) : Parser (List Stmt) :=
  declarations [] (declaration bound (statement bound)) bound

/-- An expression of at most `bound` tokens with nothing behind it. -/
def soleExpression (bound : Nat) : Parser Expr := do
  let e ← expression bound
  match ← peek? with
  | none => return e
  | some _ => fail .endOfExpression

end Parser

namespace Parse

/-- The statements of a token list that could be read, and the faults that were reported. -/
def program (tokens : List Token) : List Stmt × List ParseFault :=
  match Stream.ofTokens? tokens with
  | none => ([], [])
  | some stream =>
    let o := Parser.program stream.body.length stream.stop stream.body
    (o.result.toOption.getD [], o.reports)

/-- The expression that a token list is, if it is one, and the faults that were reported. -/
def expression (tokens : List Token) : Option Expr × List ParseFault :=
  match Stream.ofTokens? tokens with
  | none => (none, [])
  | some stream =>
    let o := Parser.soleExpression stream.body.length stream.stop stream.body
    match o.result with
    | .ok e => (some e, o.reports)
    | .error fault => (none, o.reports ++ [fault])

end Parse

end LoxLang
