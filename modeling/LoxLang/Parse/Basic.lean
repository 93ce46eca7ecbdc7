import LoxLang.Tree.Basic

/-!
# Parsers with reports

A parser takes tokens off the front of a list. Its outcome is a tree or the fault that stopped it,
together with the tokens that are left and the faults it reported on the way; the last two are kept
also when it stops, since reading goes on behind a fault (`Parser.recovering`). A fault blames the next
token, or `stop`, the token behind the list, when none is left.

A token list given by a user is cut at the first end mark (`Stream.ofTokens?`), so that no parser ever
sees one: `stop` is that mark, or the last token of a list that has no mark.
-/

namespace LoxLang

/-- What reading a tree can miss, and the one thing it can find fault with afterwards. -/
inductive ParseCause where
  | variableName
  | semicolonAfterDeclaration
  | parenAfterFor
  | semicolonAfterLoopCondition
  | parenAfterForClauses
  | semicolonAfterValue
  | semicolonAfterExpression
  | parenAfterIf
  | parenAfterIfCondition
  | parenAfterWhile
  | parenAfterCondition
  | braceAfterBlock
  | parenAfterExpression
  | expression
  | endOfExpression
  | invalidTarget
  deriving DecidableEq, Repr

/-- The text of a fault. -/
def ParseCause.message : ParseCause → String
  | variableName => "Expect variable name."
  | semicolonAfterDeclaration => "Expect ';' after variable declaration."
  | parenAfterFor => "Expect '(' after 'for'."
  | semicolonAfterLoopCondition => "Expect ';' after loop condition."
  | parenAfterForClauses => "Expect ')' after for clauses."
  | semicolonAfterValue => "Expect ';' after value."
  | semicolonAfterExpression => "Expect ';' after expression."
  | parenAfterIf => "Expect '(' after 'if'."
  | parenAfterIfCondition => "Expect ')' after if condition."
  | parenAfterWhile => "Expect '(' after 'while'."
  | parenAfterCondition => "Expect ')' after condition."
  | braceAfterBlock => "Expect '\x7d' after block."
  | parenAfterExpression => "Expect ')' after expression."
  | expression => "Expect expression."
  | endOfExpression => "Expect end of expression."
  | invalidTarget => "Invalid assignment target."

/-- A fault and the token it blames. -/
structure ParseFault where
  cause : ParseCause
  token : Token
  deriving DecidableEq

/-- What a parser leaves behind. -/
structure Outcome (α : Type) where
  result : Except ParseFault α
  reports : List ParseFault
  rest : List Token

/-- A parser of the tokens before `stop`. -/
def Parser (α : Type) : Type :=
  (stop : Token) → List Token → Outcome α

namespace Parser

variable {α β : Type}

/-- Takes nothing and succeeds. -/
def succeed (a : α) : Parser α :=
  fun _ tokens => ⟨.ok a, [], tokens⟩

/-- Runs a parser and, if it succeeds, a second one on what is left; the reports of both are kept in
order. -/
def andThen (p : Parser α) (f : α → Parser β) : Parser β :=
  fun stop tokens =>
    let first := p stop tokens
    match first.result with
    | .error fault => ⟨.error fault, first.reports, first.rest⟩
    | .ok a =>
      let second := f a stop first.rest
      ⟨second.result, first.reports ++ second.reports, second.rest⟩

/-- Parsers are put together one after the other. -/
instance : Monad Parser where
  pure := succeed
  bind := andThen

/-! ## Laws of sequencing -/

/-- After a success the second parser goes on with what is left, and its reports follow. -/
theorem bind_of_ok {p : Parser α} {f : α → Parser β} {stop : Token} {tokens rest : List Token}
    {a : α} {reports : List ParseFault} (h : p stop tokens = ⟨.ok a, reports, rest⟩) :
    (p >>= f) stop tokens =
      ⟨(f a stop rest).result, reports ++ (f a stop rest).reports, (f a stop rest).rest⟩ := by
  show andThen p f stop tokens = _
  simp [andThen, h]

/-- After a fault the second parser is not run. -/
theorem bind_of_error {p : Parser α} {f : α → Parser β} {stop : Token} {tokens rest : List Token}
    {fault : ParseFault} {reports : List ParseFault}
    (h : p stop tokens = ⟨.error fault, reports, rest⟩) :
    (p >>= f) stop tokens = ⟨.error fault, reports, rest⟩ := by
  show andThen p f stop tokens = _
  simp [andThen, h]

/-- To succeed behind a parser adds nothing to it. -/
theorem andThen_succeed (p : Parser α) : andThen p succeed = p := by
  funext stop tokens
  cases h : p stop tokens with
  | mk result reports rest => cases result <;> simp [andThen, h, succeed]

/-- Three parsers in a row can be put together from either end. -/
theorem andThen_assoc {γ : Type} (p : Parser α) (f : α → Parser β) (g : β → Parser γ) :
    andThen (andThen p f) g = andThen p fun a => andThen (f a) g := by
  funext stop tokens
  cases h : p stop tokens with
  | mk result reports rest =>
    cases result with
    | error fault => simp [andThen, h]
    | ok a =>
      cases h' : f a stop rest with
      | mk result' reports' rest' => cases result' <;> simp [andThen, h, h']

/-- The order in which parsers are put together does not matter, so `do` blocks can be nested freely. -/
instance : LawfulMonad Parser :=
  LawfulMonad.mk' Parser andThen_succeed (fun _ _ => rfl) andThen_assoc

/-! ## Single tokens -/

/-- Stops with a fault at the next token. -/
def fail (cause : ParseCause) : Parser α :=
  fun stop tokens => ⟨.error ⟨cause, tokens.headD stop⟩, [], tokens⟩

/-- Reports a fault at a token and goes on. -/
def report (cause : ParseCause) (token : Token) : Parser Unit :=
  fun _ tokens => ⟨.ok (), [⟨cause, token⟩], tokens⟩

/-- The next token, left in place. -/
def peek? : Parser (Option Token) :=
  fun _ tokens => ⟨.ok tokens.head?, [], tokens⟩

/-- The kind of the next token, left in place. -/
def peekKind? : Parser (Option Kind) :=
  fun _ tokens => ⟨.ok (tokens.head?.map Token.kind), [], tokens⟩

/-- Drops the next token. -/
def skip : Parser Unit :=
  fun _ tokens => ⟨.ok (), [], tokens.tail⟩

/-- Takes the next token if it is of one of the given kinds. -/
def accept? (kinds : List Kind) : Parser (Option Token) :=
  fun _ tokens =>
    match tokens with
    | [] => ⟨.ok none, [], []⟩
    | t :: rest => if t.kind ∈ kinds then ⟨.ok (some t), [], rest⟩ else ⟨.ok none, [], t :: rest⟩

/-- Takes the next token, which has to be of the given kind. -/
def expect (kind : Kind) (cause : ParseCause) : Parser Token :=
  fun stop tokens =>
    match tokens with
    | [] => ⟨.error ⟨cause, stop⟩, [], []⟩
    | t :: rest =>
      if t.kind = kind then ⟨.ok t, [], rest⟩ else ⟨.error ⟨cause, t⟩, [], t :: rest⟩

/-! ## Recovery -/

/-- Whether a token begins a new statement, so that recovery stops before it. -/
def beginsStatement (t : Token) : Bool :=
  t.kind ∈ [.classWord, .funWord, .varWord, .forWord, .ifWord, .whileWord, .printWord, .returnWord]

/-- What is left behind the statement that `previous` belongs to: recovery stops behind a semicolon
and before a token that begins a statement. -/
def skipStatement (previous : Token) : List Token → List Token
  | [] => []
  | t :: rest =>
    if previous.kind = .semicolon ∨ beginsStatement t then t :: rest else skipStatement t rest

/-- What is left for reading after a fault: the blamed token goes, and the rest of its statement. -/
def synchronize : List Token → List Token
  | [] => []
  | t :: rest => skipStatement t rest

/-- Runs a parser; if it stops, its fault is reported and reading goes on behind the statement. -/
def recovering (p : Parser α) : Parser (Option α) :=
  fun stop tokens =>
    let o := p stop tokens
    match o.result with
    | .ok a => ⟨.ok (some a), o.reports, o.rest⟩
    | .error fault => ⟨.ok none, o.reports ++ [fault], synchronize o.rest⟩

end Parser

/-- Tokens to be read, and the token behind them. -/
structure Stream where
  body : List Token
  stop : Token
  deriving DecidableEq

/-- What there is to read in a token list: all that stands before the first end mark. An empty list has
nothing to blame and is no stream. -/
def Stream.ofTokens? (tokens : List Token) : Option Stream :=
  tokens.getLast?.map fun last =>
    ⟨tokens.takeWhile (·.kind ≠ .eof), (tokens.find? (·.kind = .eof)).getD last⟩

/-- A list with an end mark only behind it is read up to the mark. -/
theorem Stream.ofTokens?_append_mark {body : List Token} {mark : Token}
    (hbody : ∀ t ∈ body, t.kind ≠ .eof) (hmark : mark.kind = .eof) :
    Stream.ofTokens? (body ++ [mark]) = some ⟨body, mark⟩ := by
  have htake : (body ++ [mark]).takeWhile (·.kind ≠ .eof) = body := by
    rw [List.takeWhile_append_of_pos (by simpa using hbody)]
    simp [hmark]
  have hfind : (body ++ [mark]).find? (·.kind = .eof) = some mark := by
    have hnone : body.find? (·.kind = .eof) = none := by simpa using hbody
    simp [List.find?_append, hnone, hmark]
  simp only [Stream.ofTokens?, List.getLast?_append, List.getLast?_singleton, Option.some_or,
    Option.map_some, hfind, Option.getD_some]
  rw [htake]

end LoxLang
