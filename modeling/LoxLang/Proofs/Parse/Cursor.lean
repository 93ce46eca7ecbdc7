import LoxLang.Parse.Stmt

/-!
# Reading by a cursor

The parsers of `LoxLang.Parse` take tokens off the front of a list that has been cut at its end mark, and
count down a bound whose last value stands for some harmless answer. Here the same grammar is read in the
way a machine reads it: the tokens stay where they are, a cursor moves over them, and whatever may go wrong
with the cursor is an outcome of its own. A `Walker` that breaks off says how (`Breach`): the last index of
no tokens was asked for, a token was asked for that is not there, the cursor moved behind the last token, or
a loop or a recursion took more rounds than it was allowed.

The end is looked for at every step: the cursor stands at it on an end mark, or behind the last token. Loops
are rounds (`loop`) that say whether to go on, so that it can be said what one round does. A walker also
keeps, for every recovery from a fault, where the cursor stood before and after it.
-/

namespace LoxLang

/-- Why a walker breaks off. -/
inductive Breach where
  | underflow
  | outOfRange
  | overrun
  | unfinished
  deriving DecidableEq, Repr

/-- What a walker leaves behind: like the outcome of a parser, with the cursor in place of the tokens that
are left, and with the stretches that recovery passed over. -/
structure Landing (α : Type) where
  result : Except ParseFault α
  reports : List ParseFault
  recoveries : List (Nat × Nat)
  current : Nat

/-- A reader of tokens from a cursor on. -/
def Walker (α : Type) : Type :=
  (tokens : List Token) → (current : Nat) → Except Breach (Landing α)

namespace Walker

variable {α β γ σ : Type}

/-- Moves nowhere and succeeds. -/
def succeed (a : α) : Walker α :=
  fun _ current => .ok ⟨.ok a, [], [], current⟩

/-- Runs a walker and, if it succeeds, a second one from where it stands. -/
def andThen (w : Walker α) (f : α → Walker β) : Walker β :=
  fun tokens current =>
    match w tokens current with
    | .error breach => .error breach
    | .ok ⟨.error fault, reports, recoveries, after⟩ => .ok ⟨.error fault, reports, recoveries, after⟩
    | .ok ⟨.ok a, reports, recoveries, after⟩ =>
      match f a tokens after with
      | .error breach => .error breach
      | .ok second =>
        .ok ⟨second.result, reports ++ second.reports, recoveries ++ second.recoveries, second.current⟩

/-- Walkers are put together one after the other. -/
instance : Monad Walker where
  pure := succeed
  bind := andThen

/-! ## The cursor -/

/-- Breaks off. -/
def breakOff (breach : Breach) : Walker α :=
  fun _ _ => .error breach

/-- The number of tokens. -/
def count : Walker Nat :=
  fun tokens current => .ok ⟨.ok tokens.length, [], [], current⟩

/-- Where the cursor stands. -/
def position : Walker Nat :=
  fun _ current => .ok ⟨.ok current, [], [], current⟩

/-- Puts the cursor on the first token. -/
def restart : Walker Unit :=
  fun _ _ => .ok ⟨.ok (), [], [], 0⟩

/-- The token at an index. -/
def get (index : Nat) : Walker Token :=
  fun tokens current =>
    match tokens[index]? with
    | some t => .ok ⟨.ok t, [], [], current⟩
    | none => .error .outOfRange

/-- Moves the cursor by one token. -/
def step : Walker Unit :=
  fun tokens current =>
    if current < tokens.length then .ok ⟨.ok (), [], [], current + 1⟩ else .error .overrun

/-- The token at the cursor, or the last one if the cursor stands behind it. -/
def peek : Walker Token := do
  match ← count with
  | 0 => breakOff .underflow
  | last + 1 => get (min (← position) last)

/-- The token before the cursor, or the first one if there is none. -/
def previous : Walker Token := do
  get ((← position) - 1)

/-- Whether the cursor stands on an end mark, or behind the last token. -/
def isAtEnd : Walker Bool := do
  if (← count) ≤ (← position) then return true
  else return (← peek).kind = .eof

/-- Moves the cursor unless it stands at the end; answers the token before it. -/
def advance : Walker Token := do
  match ← isAtEnd with
  | true => previous
  | false => step; previous

/-- Whether a token of the given kind is next. -/
def check (kind : Kind) : Walker Bool := do
  match ← isAtEnd with
  | true => return false
  | false => return (← peek).kind = kind

/-- Moves behind the next token if it is of one of the kinds, which are tried in turn. -/
def takes : List Kind → Walker Bool
  | [] => return false
  | kind :: kinds => do
    match ← check kind with
    | true => let _ ← advance; return true
    | false => takes kinds

/-- Goes one way behind a token of the given kinds, and another way if none is next. -/
def ifTakes (kinds : List Kind) (yes no : Walker α) : Walker α := do
  match ← takes kinds with
  | true => yes
  | false => no

/-! ## Faults and recovery -/

/-- Stops with a fault. -/
def raise (fault : ParseFault) : Walker α :=
  fun _ current => .ok ⟨.error fault, [], [], current⟩

/-- Stops with a fault at the next token. -/
def fail (cause : ParseCause) : Walker α := do
  raise ⟨cause, ← peek⟩

/-- Reports a fault and goes on. -/
def report (fault : ParseFault) : Walker Unit :=
  fun _ current => .ok ⟨.ok (), [fault], [], current⟩

/-- Moves behind the next token, which has to be of the given kind. -/
def consume (kind : Kind) (cause : ParseCause) : Walker Token := do
  match ← check kind with
  | true => advance
  | false => fail cause

/-- Runs a walker and answers its fault if it stops with one. -/
def attempt (w : Walker α) : Walker (Except ParseFault α) :=
  fun tokens current =>
    (w tokens current).map fun r => ⟨.ok r.result, r.reports, r.recoveries, r.current⟩

/-- Keeps that recovery has moved the cursor to where it is now. -/
def recovered (before : Nat) : Walker Unit :=
  fun _ current => .ok ⟨.ok (), [], [(before, current)], current⟩

/-- At most `bound` rounds of a loop; each one says with what to go on, or what the loop answers. -/
def loop (round : σ → Walker (σ ⊕ β)) : Nat → σ → Walker β
  | 0, _ => breakOff .unfinished
  | bound + 1, state => do
    match ← round state with
    | .inl state => loop round bound state
    | .inr answer => return answer

/-- One round of recovery, which ends behind a semicolon and before a token that begins a statement. -/
def synchronizeRound (_ : Unit) : Walker (Unit ⊕ Unit) := do
  match ← isAtEnd with
  | true => return .inr ()
  | false =>
    let before ← previous
    if before.kind = .semicolon then return .inr ()
    else
      let next ← peek
      if Parser.beginsStatement next then return .inr ()
      else
        let _ ← advance
        return .inl ()

/-- Moves the cursor behind the statement that holds a fault; the next token is passed over at once. -/
def synchronize (bound : Nat) : Walker Unit := do
  let _ ← peek
  let _ ← advance
  loop synchronizeRound bound ()

/-- Reports a fault and passes over the rest of the statement. -/
def recover (bound : Nat) (fault : ParseFault) : Walker Unit := do
  report fault
  let before ← position
  synchronize bound
  recovered before

/-- An answer is kept, and a fault is recovered from. -/
def settle (bound : Nat) : Except ParseFault α → Walker (Option α)
  | .ok a => return some a
  | .error fault => do
    recover bound fault
    return none

/-- Runs a walker; if it stops, reading goes on behind the statement. -/
def recovering (bound : Nat) (w : Walker α) : Walker (Option α) := do
  settle bound (← attempt w)

/-! ## Expressions -/

/-- A primary expression, given how to read an expression in brackets. -/
def primary (inner : Walker Expr) : Walker Expr :=
  ifTakes [.falseWord] (return .literal (.bool false)) <|
  ifTakes [.trueWord] (return .literal (.bool true)) <|
  ifTakes [.nullWord] (return .literal .null) <|
  ifTakes [.number, .string] (do return .literal (Parser.literalValue (← previous))) <|
  ifTakes [.identifier] (do return .read (← previous)) <|
  ifTakes [.leftParen] (do
    let e ← inner
    let _ ← consume .rightParen .parenAfterExpression
    return .grouping e) <|
  fail .expression

/-- A primary expression behind any number of unary operators. -/
def unary (primary : Walker Expr) : Nat → Walker Expr
  | 0 => breakOff .unfinished
  | bound + 1 =>
    ifTakes [.bang, .minus]
      (do
        let operator ← previous
        return .unary operator (← unary primary bound))
      primary

/-- One operator of a level and its right operand, behind the left one. -/
def chainRound (level : Parser.Level) (operand : Walker Expr) (left : Expr) : Walker (Expr ⊕ Expr) :=
  ifTakes level.operators
    (do
      let operator ← previous
      let right ← operand
      return .inl (level.join left operator right))
    (return .inr left)

/-- An expression of the given levels, loosest first, over a tightest one. -/
def infixes (bound : Nat) (tightest : Walker Expr) : List Parser.Level → Walker Expr
  | [] => tightest
  | level :: tighter => do
    let left ← infixes bound tightest tighter
    loop (chainRound level (infixes bound tightest tighter)) bound left

/-- What an equals sign behind `left` makes of the expression behind it. -/
def assigned (left : Expr) (equals : Token) (value : Expr) : Walker Expr :=
  match left with
  | .read name => return .assign name value
  | _ => do
    report ⟨.invalidTarget, equals⟩
    return value

/-- An assignment or the expression `target`. -/
def assignment (target inner : Walker Expr) : Walker Expr := do
  let left ← target
  ifTakes [.equal]
    (do
      let equals ← previous
      let value ← inner
      assigned left equals value)
    (return left)

/-- An expression, with at most `bound` of them inside each other. -/
def expression : Nat → Walker Expr
  | 0 => breakOff .unfinished
  | bound + 1 =>
    let inner := expression bound
    assignment (infixes (bound + 1) (unary (primary inner) (bound + 1)) Parser.levels) inner

/-! ## Statements -/

/-- An expression statement. -/
def expressionStatement (bound : Nat) : Walker Stmt := do
  let e ← expression bound
  let _ ← consume .semicolon .semicolonAfterExpression
  return .expression e

/-- A print statement behind its first word. -/
def printStatement (bound : Nat) : Walker Stmt := do
  let e ← expression bound
  let _ ← consume .semicolon .semicolonAfterValue
  return .print e

/-- The expression behind an equals sign, if there is one. -/
def initializer? (bound : Nat) : Walker (Option Expr) :=
  ifTakes [.equal] (do return some (← expression bound)) (return none)

/-- A variable declaration behind its first word. -/
def varDeclaration (bound : Nat) : Walker Stmt := do
  let name ← consume .identifier .variableName
  let initial ← initializer? bound
  let _ ← consume .semicolon .semicolonAfterDeclaration
  return .declare name initial

/-- An expression, unless the next token is of the kind that closes an empty place for one. -/
def optionalExpression (bound : Nat) (close : Kind) : Walker (Option Expr) := do
  match ← check close with
  | true => return none
  | false => return some (← expression bound)

/-- The first clause of a `for` statement, its semicolon included. -/
def forInitial (bound : Nat) : Walker (Option Stmt) :=
  ifTakes [.semicolon] (return none) <|
  ifTakes [.varWord] (do return some (← varDeclaration bound)) <|
  (do return some (← expressionStatement bound))

/-- A `for` statement behind its first word. -/
def forStatement (bound : Nat) (inner : Walker Stmt) : Walker Stmt := do
  let _ ← consume .leftParen .parenAfterFor
  let initial ← forInitial bound
  let condition ← optionalExpression bound .semicolon
  let _ ← consume .semicolon .semicolonAfterLoopCondition
  let increment ← optionalExpression bound .rightParen
  let _ ← consume .rightParen .parenAfterForClauses
  let body ← inner
  return .forLoop initial condition increment body

/-- An `if` statement behind its first word. -/
def ifStatement (bound : Nat) (inner : Walker Stmt) : Walker Stmt := do
  let _ ← consume .leftParen .parenAfterIf
  let condition ← expression bound
  let _ ← consume .rightParen .parenAfterIfCondition
  let yes ← inner
  ifTakes [.elseWord] (do return .ifThenElse condition yes (← inner)) (return .ifThen condition yes)

/-- A `while` statement behind its first word. -/
def whileStatement (bound : Nat) (inner : Walker Stmt) : Walker Stmt := do
  let _ ← consume .leftParen .parenAfterWhile
  let condition ← expression bound
  let _ ← consume .rightParen .parenAfterCondition
  return .whileLoop condition (← inner)

/-- A declaration, given how to read a statement; one that cannot be read is reported and left out. -/
def declaration (bound : Nat) (statement : Walker Stmt) : Walker (Option Stmt) :=
  recovering bound (ifTakes [.varWord] (varDeclaration bound) statement)

/-- One round of a loop over declarations, which ends where `closed` says so and otherwise puts a
declaration behind those that were read. -/
def rowRound (closed : Walker Bool) (one : Walker (Option Stmt)) (found : List Stmt) :
    Walker (List Stmt ⊕ List Stmt) := do
  match ← closed with
  | true => return .inr found
  | false => return .inl (found ++ (← one).toList)

/-- Whether the cursor stands on a closing brace, or at the end. -/
def isAtBrace : Walker Bool := do
  match ← check .rightBrace with
  | true => return true
  | false => isAtEnd

/-- One round of the loop in a block. -/
def blockRound (bound : Nat) (inner : Walker Stmt) : List Stmt → Walker (List Stmt ⊕ List Stmt) :=
  rowRound isAtBrace (declaration bound inner)

/-- A block behind its opening brace. -/
def block (bound : Nat) (inner : Walker Stmt) : Walker Stmt := do
  let body ← loop (blockRound bound inner) bound []
  let _ ← consume .rightBrace .braceAfterBlock
  return .block body

/-- A statement, with at most `bound` of them inside each other. -/
def statement : Nat → Walker Stmt
  | 0 => breakOff .unfinished
  | bound + 1 => do
    let inner := statement bound
    let _ ← peek
    ifTakes [.forWord] (forStatement bound inner) <|
    ifTakes [.ifWord] (ifStatement bound inner) <|
    ifTakes [.whileWord] (whileStatement bound inner) <|
    ifTakes [.leftBrace] (block bound inner) <|
    ifTakes [.printWord] (printStatement bound) <|
    expressionStatement (bound + 1)

/-- One round of the loop over a program. -/
def programRound (bound : Nat) : List Stmt → Walker (List Stmt ⊕ List Stmt) :=
  rowRound isAtEnd (declaration bound (statement bound))

/-- The program that the tokens are, wherever the cursor stood before. -/
def program (bound : Nat) : Walker (List Stmt) := do
  restart
  if (← count) = 0 then return []
  else loop (programRound bound) bound []

/-- An expression with nothing behind it. -/
def wholeExpression (bound : Nat) : Walker Expr := do
  let e ← expression bound
  match ← isAtEnd with
  | true => return e
  | false => fail .endOfExpression

/-- An answer is kept, and a fault is reported. -/
def conclude : Except ParseFault α → Walker (Option α)
  | .ok a => return some a
  | .error fault => do
    report fault
    return none

/-- The expression that the tokens are, wherever the cursor stood before. -/
def soleExpression (bound : Nat) : Walker (Option Expr) := do
  restart
  if (← count) = 0 then return none
  else conclude (← attempt (wholeExpression bound))

end Walker

end LoxLang
