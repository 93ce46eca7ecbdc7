import LoxLang.Proofs.Parse.Regular

/-!
# Parsers do not look at lines

The lines of tokens go into trees and reports and nowhere else: tokens with their lines moved are read to
the same trees and the same reports, with their lines moved (`Parse.program_reline`). This is so for every
token list, recovery from faults included, and whatever is done to the lines. `Relines` is the calculus,
with one rule for each combinator. It relates two parsers, since a parser may have been built from a tree
that was read before, which then has its lines moved as well.
-/

namespace LoxLang

/-- The fault with the line of the blamed token moved. -/
def ParseFault.reline (move : Nat → Nat) (f : ParseFault) : ParseFault :=
  { f with token := f.token.reline move }

/-- The outcome with the lines of faults and tokens moved; `act` does it to what was read. -/
def Outcome.reline {α β : Type} (move : Nat → Nat) (act : α → β) (o : Outcome α) : Outcome β where
  result := match o.result with
    | .ok a => .ok (act a)
    | .error fault => .error (fault.reline move)
  reports := o.reports.map (ParseFault.reline move)
  rest := o.rest.map (Token.reline move)

namespace Parser

section
variable {α α' β β' : Type} {move : Nat → Nat}

/-- From tokens with their lines moved the second parser reads what the first one reads from the tokens,
with its lines moved. -/
def Relines (move : Nat → Nat) (act : α → α') (p : Parser α) (q : Parser α') : Prop :=
  ∀ stop tokens, q (stop.reline move) (tokens.map (Token.reline move)) = (p stop tokens).reline move act

/-! ## Combinators -/

/-- A result of its own is the same, up to the lines in it. -/
theorem relines_pure {act : α → α'} (a : α) : Relines move act (pure a) (pure (act a)) :=
  fun _ _ => rfl

/-- The rule for two parsers in a row: the second one is given a result with its lines moved. -/
theorem Relines.bind {act : α → α'} {act' : β → β'} {p : Parser α} {q : Parser α'}
    {f : α → Parser β} {g : α' → Parser β'} (hp : Relines move act p q)
    (hf : ∀ a, Relines move act' (f a) (g (act a))) : Relines move act' (p >>= f) (q >>= g) := by
  intro stop tokens
  have hq := hp stop tokens
  rcases hfirst : p stop tokens with ⟨fault | a, reports, rest⟩ <;> rw [hfirst] at hq
  · rw [bind_of_error hfirst, bind_of_error hq]
    rfl
  · rw [bind_of_ok hfirst, bind_of_ok hq, hf a stop rest]
    simp only [Outcome.reline, List.map_append]

/-- A fault blames the next token, with its line moved. -/
theorem relines_fail {act : α → α'} (cause : ParseCause) :
    Relines move act (fail cause) (fail cause) := by
  intro stop tokens
  cases tokens <;> rfl

/-- A report of a token has its line moved. -/
theorem relines_report (cause : ParseCause) (t : Token) :
    Relines move id (report cause t) (report cause (t.reline move)) :=
  fun _ _ => rfl

/-- The next token is the same, with its line moved. -/
theorem relines_peek? : Relines move (Option.map (Token.reline move)) peek? peek? := by
  intro stop tokens
  cases tokens <;> rfl

/-- The kind of the next token is the same. -/
theorem relines_peekKind? : Relines move id peekKind? peekKind? := by
  intro stop tokens
  cases tokens <;> rfl

/-- Skipping a token does not look at its line. -/
theorem relines_skip : Relines move id skip skip := by
  intro stop tokens
  cases tokens <;> rfl

/-- A token is accepted for its kind, whatever its line. -/
theorem relines_accept? (kinds : List Kind) :
    Relines move (Option.map (Token.reline move)) (accept? kinds) (accept? kinds) := by
  intro stop tokens
  cases tokens with
  | nil => rfl
  | cons t rest =>
    show (if t.kind ∈ kinds then _ else _) = Outcome.reline _ _ (if t.kind ∈ kinds then _ else _)
    by_cases h : t.kind ∈ kinds
    · rw [if_pos h, if_pos h]
      rfl
    · rw [if_neg h, if_neg h]
      rfl

/-- A token is expected for its kind, whatever its line. -/
theorem relines_expect (kind : Kind) (cause : ParseCause) :
    Relines move (Token.reline move) (expect kind cause) (expect kind cause) := by
  intro stop tokens
  cases tokens with
  | nil => rfl
  | cons t rest =>
    show (if t.kind = kind then _ else _) = Outcome.reline _ _ (if t.kind = kind then _ else _)
    by_cases h : t.kind = kind
    · rw [if_pos h, if_pos h]
      rfl
    · rw [if_neg h, if_neg h]
      rfl

/-- What is left behind a statement does not depend on lines. -/
theorem skipStatement_reline (previous : Token) (tokens : List Token) :
    skipStatement (previous.reline move) (tokens.map (Token.reline move)) =
      (skipStatement previous tokens).map (Token.reline move) := by
  induction tokens generalizing previous with
  | nil => rfl
  | cons t rest ih =>
    have hbegins : beginsStatement (t.reline move) = beginsStatement t := rfl
    rw [List.map_cons, skipStatement, skipStatement, hbegins, Token.reline_kind, ih]
    split <;> rfl

/-- Recovery does not look at lines. -/
theorem synchronize_reline (tokens : List Token) :
    synchronize (tokens.map (Token.reline move)) = (synchronize tokens).map (Token.reline move) := by
  cases tokens with
  | nil => rfl
  | cons t rest => exact skipStatement_reline t rest

/-- A parser with recovery moves the lines of what it reports if the parser does. -/
theorem Relines.recovering {act : α → α'} {p : Parser α} {q : Parser α'} (h : Relines move act p q) :
    Relines move (Option.map act) (recovering p) (recovering q) := by
  intro stop tokens
  rw [Parser.recovering, Parser.recovering, h stop tokens]
  rcases p stop tokens with ⟨fault | a, reports, rest⟩
  · simp only [Outcome.reline, List.map_append, synchronize_reline]
    rfl
  · rfl

end

/-! ## Expressions -/

section
variable {move : Nat → Nat}

/-- A primary is read up to lines if the expression in its brackets is. -/
theorem primary_relines {inner : Parser Expr} (hinner : Relines move (Expr.reline move) inner inner) :
    Relines move (Expr.reline move) (primary inner) (primary inner) := by
  refine relines_peek?.bind fun o => ?_
  cases o with
  | none => exact relines_fail _
  | some t =>
    simp only [Option.map_some, Token.reline_kind]
    split
    · exact relines_skip.bind fun _ => relines_pure (Expr.literal _)
    · exact relines_skip.bind fun _ => relines_pure (Expr.literal _)
    · exact relines_skip.bind fun _ => relines_pure (Expr.literal _)
    · exact relines_skip.bind fun _ => relines_pure (Expr.literal _)
    · exact relines_skip.bind fun _ => relines_pure (Expr.literal _)
    · exact relines_skip.bind fun _ => relines_pure (Expr.read t)
    · refine relines_skip.bind fun _ => hinner.bind fun e => ?_
      exact (relines_expect _ _).bind fun _ => relines_pure (Expr.grouping e)
    · exact relines_fail _

/-- A row of unary operators is read up to lines if its operand is. -/
theorem unary_relines {primary : Parser Expr} (h : Relines move (Expr.reline move) primary primary)
    (bound : Nat) : Relines move (Expr.reline move) (unary primary bound) (unary primary bound) := by
  induction bound with
  | zero => exact h
  | succ bound ih =>
    refine (relines_accept? _).bind fun o => ?_
    cases o with
    | none => exact h
    | some operator => exact ih.bind fun right => relines_pure (Expr.unary operator right)

/-- A level builds from operands with their lines moved the tree with its lines moved. -/
theorem join_reline {level : Level} (h : level ∈ levels) (left : Expr) (operator : Token)
    (right : Expr) :
    level.join (left.reline move) (operator.reline move) (right.reline move) =
      (level.join left operator right).reline move := by
  rcases levels_kinds level h with ⟨hjoin, -⟩ | ⟨hjoin, -⟩ <;> rw [hjoin] <;> rfl

/-- A chain of operators of one level is read up to lines, on a left operand with its lines moved. -/
theorem chain_relines {level : Level} (hlevel : level ∈ levels) {operand : Parser Expr}
    (hoperand : Relines move (Expr.reline move) operand operand) (bound : Nat) (left : Expr) :
    Relines move (Expr.reline move) (chain level operand bound left)
      (chain level operand bound (left.reline move)) := by
  induction bound generalizing left with
  | zero => exact relines_pure left
  | succ bound ih =>
    refine (relines_accept? _).bind fun o => ?_
    cases o with
    | none => exact relines_pure left
    | some operator =>
      refine hoperand.bind fun right => ?_
      rw [join_reline hlevel]
      exact ih _

/-- The levels of infix operators are read up to lines if the tightest operand is. -/
theorem infixes_relines (bound : Nat) {tightest : Parser Expr}
    (h : Relines move (Expr.reline move) tightest tightest) {ls : List Level} (hls : ls ⊆ levels) :
    Relines move (Expr.reline move) (infixes bound tightest ls) (infixes bound tightest ls) := by
  induction ls with
  | nil => exact h
  | cons level tighter ih =>
    obtain ⟨hlevel, htighter⟩ := List.cons_subset.1 hls
    exact (ih htighter).bind fun left => chain_relines hlevel (ih htighter) bound left

/-- An assignment is read up to lines, the blamed equals sign of an invalid target included. -/
theorem assignment_relines {target inner : Parser Expr}
    (htarget : Relines move (Expr.reline move) target target)
    (hinner : Relines move (Expr.reline move) inner inner) :
    Relines move (Expr.reline move) (assignment target inner) (assignment target inner) := by
  refine htarget.bind fun left => (relines_accept? _).bind fun o => ?_
  cases o with
  | none => exact relines_pure left
  | some equals =>
    refine hinner.bind fun value => ?_
    -- The form of the target decides, and moving lines does not change it.
    cases left with
    | read name => exact relines_pure (Expr.assign name value)
    | _ => exact (relines_report _ equals).bind fun _ => relines_pure value

/-- An expression is read up to lines. -/
theorem expression_relines (bound : Nat) :
    Relines move (Expr.reline move) (expression bound) (expression bound) := by
  induction bound with
  | zero => exact relines_fail _
  | succ bound ih =>
    refine assignment_relines (infixes_relines _ ?_ (List.Subset.refl _)) ih
    exact unary_relines (primary_relines ih) _

/-! ## Statements -/

/-- An expression statement is read up to lines. -/
theorem expressionStatement_relines (bound : Nat) :
    Relines move (Stmt.reline move) (expressionStatement bound) (expressionStatement bound) := by
  refine (expression_relines bound).bind fun e => ?_
  exact (relines_expect _ _).bind fun _ => relines_pure (Stmt.expression e)

/-- A print statement is read up to lines. -/
theorem printStatement_relines (bound : Nat) :
    Relines move (Stmt.reline move) (printStatement bound) (printStatement bound) := by
  refine (expression_relines bound).bind fun e => ?_
  exact (relines_expect _ _).bind fun _ => relines_pure (Stmt.print e)

/-- An initial value that may be missing is read up to lines. -/
theorem initializer?_relines (bound : Nat) :
    Relines move (Option.map (Expr.reline move)) (initializer? bound) (initializer? bound) := by
  refine (relines_accept? _).bind fun o => ?_
  cases o with
  | none => exact relines_pure none
  | some _ => exact (expression_relines bound).bind fun e => relines_pure (some e)

/-- A declaration of a variable is read up to lines. -/
theorem varDeclaration_relines (bound : Nat) :
    Relines move (Stmt.reline move) (varDeclaration bound) (varDeclaration bound) := by
  refine (relines_expect _ _).bind fun name => (initializer?_relines bound).bind fun initial => ?_
  exact (relines_expect _ _).bind fun _ => relines_pure (Stmt.declare name initial)

/-- An expression that may be missing is read up to lines. -/
theorem optionalExpression_relines (bound : Nat) (close : Kind) :
    Relines move (Option.map (Expr.reline move)) (optionalExpression bound close)
      (optionalExpression bound close) := by
  refine relines_peekKind?.bind fun o => ?_
  dsimp only [id_eq]
  split
  · exact relines_pure none
  · exact (expression_relines bound).bind fun e => relines_pure (some e)

/-- The first clause of a `for` statement is read up to lines. -/
theorem forInitial_relines (bound : Nat) :
    Relines move (Option.map (Stmt.reline move)) (forInitial bound) (forInitial bound) := by
  refine relines_peekKind?.bind fun o => ?_
  dsimp only [id_eq]
  split
  · exact relines_skip.bind fun _ => relines_pure none
  · refine relines_skip.bind fun _ => (varDeclaration_relines bound).bind fun s => ?_
    exact relines_pure (some s)
  · exact (expressionStatement_relines bound).bind fun s => relines_pure (some s)

variable {inner : Parser Stmt}

/-- A `for` statement is read up to lines if its body is. -/
theorem forStatement_relines (bound : Nat) (h : Relines move (Stmt.reline move) inner inner) :
    Relines move (Stmt.reline move) (forStatement bound inner) (forStatement bound inner) := by
  refine (relines_expect _ _).bind fun _ => (forInitial_relines bound).bind fun initial => ?_
  refine (optionalExpression_relines bound _).bind fun condition => ?_
  refine (relines_expect _ _).bind fun _ => ?_
  refine (optionalExpression_relines bound _).bind fun increment => ?_
  refine (relines_expect _ _).bind fun _ => h.bind fun body => ?_
  rw [← Stmt.reline_forLoop]
  exact relines_pure (Stmt.forLoop initial condition increment body)

/-- An `if` statement is read up to lines if its branches are. -/
theorem ifStatement_relines (bound : Nat) (h : Relines move (Stmt.reline move) inner inner) :
    Relines move (Stmt.reline move) (ifStatement bound inner) (ifStatement bound inner) := by
  refine (relines_expect _ _).bind fun _ => (expression_relines bound).bind fun condition => ?_
  refine (relines_expect _ _).bind fun _ => h.bind fun yes => (relines_accept? _).bind fun o => ?_
  cases o with
  | none => exact relines_pure (Stmt.ifThen condition yes)
  | some _ => exact h.bind fun no => relines_pure (Stmt.ifThenElse condition yes no)

/-- A `while` statement is read up to lines if its body is. -/
theorem whileStatement_relines (bound : Nat) (h : Relines move (Stmt.reline move) inner inner) :
    Relines move (Stmt.reline move) (whileStatement bound inner) (whileStatement bound inner) := by
  refine (relines_expect _ _).bind fun _ => (expression_relines bound).bind fun condition => ?_
  exact (relines_expect _ _).bind fun _ => h.bind fun body => relines_pure (Stmt.whileLoop condition body)

/-- A declaration is read up to lines if the statements in it are. -/
theorem declaration_relines (bound : Nat) (h : Relines move (Stmt.reline move) inner inner) :
    Relines move (Stmt.reline move) (declaration bound inner) (declaration bound inner) := by
  refine relines_peekKind?.bind fun o => ?_
  dsimp only [id_eq]
  split
  · exact relines_skip.bind fun _ => varDeclaration_relines bound
  · exact h

/-- A declaration that is not read leaves the same tokens behind, so the next one starts at the same
place. -/
theorem declarations_relines (closing : List Kind) {one : Parser Stmt}
    (h : Relines move (Stmt.reline move) one one) (bound : Nat) :
    Relines move (List.map (Stmt.reline move)) (declarations closing one bound)
      (declarations closing one bound) := by
  induction bound with
  | zero => exact relines_pure []
  | succ bound ih =>
    refine relines_peekKind?.bind fun o => ?_
    cases o with
    | none => exact relines_pure []
    | some kind =>
      dsimp only [id_eq]
      split
      · exact relines_pure []
      · refine h.recovering.bind fun first => ih.bind fun others => ?_
        rw [Option.toList_map, ← List.map_append]
        exact relines_pure (first.toList ++ others)

/-- A block is read up to lines if the statements in it are. -/
theorem block_relines (bound : Nat) (h : Relines move (Stmt.reline move) inner inner) :
    Relines move (Stmt.reline move) (block bound inner) (block bound inner) := by
  refine (declarations_relines _ (declaration_relines bound h) bound).bind fun body => ?_
  refine (relines_expect _ _).bind fun _ => ?_
  rw [← Stmt.relineAll_eq_map]
  exact relines_pure (Stmt.block body)

/-- A statement is read up to lines. -/
theorem statement_relines (bound : Nat) :
    Relines move (Stmt.reline move) (statement bound) (statement bound) := by
  induction bound with
  | zero => exact relines_fail _
  | succ bound ih =>
    refine relines_peekKind?.bind fun o => ?_
    dsimp only [id_eq]
    split
    · exact relines_skip.bind fun _ => forStatement_relines bound ih
    · exact relines_skip.bind fun _ => ifStatement_relines bound ih
    · exact relines_skip.bind fun _ => whileStatement_relines bound ih
    · exact relines_skip.bind fun _ => block_relines bound ih
    · exact relines_skip.bind fun _ => printStatement_relines bound
    · exact expressionStatement_relines (bound + 1)

/-- A program is read up to lines. -/
theorem program_relines (bound : Nat) :
    Relines move (List.map (Stmt.reline move)) (program bound) (program bound) :=
  declarations_relines [] (declaration_relines bound (statement_relines bound)) bound

end

end Parser

/-! ## Token lists -/

/-- What there is to read in a list of tokens with their lines moved is what there is to read in the list, with its
lines moved. -/
theorem Stream.ofTokens?_reline (move : Nat → Nat) (tokens : List Token) :
    Stream.ofTokens? (tokens.map (Token.reline move)) =
      (Stream.ofTokens? tokens).map fun stream =>
        ⟨stream.body.map (Token.reline move), stream.stop.reline move⟩ := by
  have hkind : (fun t : Token => decide (t.kind ≠ .eof)) ∘ Token.reline move =
      fun t => decide (t.kind ≠ .eof) := rfl
  have heof : (fun t : Token => decide (t.kind = .eof)) ∘ Token.reline move =
      fun t => decide (t.kind = .eof) := rfl
  rw [Stream.ofTokens?, Stream.ofTokens?, List.getLast?_map, List.takeWhile_map, List.find?_map, hkind,
    heof]
  cases tokens.getLast? with
  | none => rfl
  | some last => cases tokens.find? _ <;> rfl

namespace Parse

/-- Whatever the tokens are, with their lines moved they are read as the same program, and the same faults
are reported, up to lines. -/
theorem program_reline (move : Nat → Nat) (tokens : List Token) :
    program (tokens.map (Token.reline move)) =
      ((program tokens).1.map (Stmt.reline move), (program tokens).2.map (ParseFault.reline move)) := by
  rw [program, program, Stream.ofTokens?_reline]
  cases Stream.ofTokens? tokens with
  | none => rfl
  | some stream =>
    dsimp only [Option.map_some]
    rw [List.length_map, Parser.program_relines stream.body.length stream.stop stream.body]
    rcases Parser.program _ _ _ with ⟨_ | trees, reports, rest⟩ <;> rfl

end Parse

end LoxLang
