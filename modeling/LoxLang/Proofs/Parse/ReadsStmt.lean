import LoxLang.Proofs.Parse.ReadsExpr
import LoxLang.Token.Item

/-!
# Clean readings of programs are derivations

Soundness and completeness of the parsers of statements, as for expressions: what is read cleanly is a
derivation of the tokens that were taken (`statement_sound`), and the tokens of a derivation are read
(`DerivesStmt.complete`). Both are about the grammar that attaches each `else` to the nearest open `if`.
A parser that has read a dangling statement has seen that no `else` follows, and it needs to see that, so
the next token is part of either statement.

Together they make `Parse.program` and `Parse.expression` decide the grammar and compute its trees
(`parse_program_iff`, `parse_expression_iff`).
-/

namespace LoxLang

open LoxLang.Parser

namespace Grammar

variable {stop : Token} {tokens rest : List Token} {bound : Nat}

/-! ## Soundness -/

/-- What is read as an initial value, or as none, is derived so. -/
theorem initializer?_sound {o : Option Expr} (h : Reads (initializer? bound) stop tokens o rest) :
    ∃ used, tokens = used ++ rest ∧ Initializer used o := by
  simp only [initializer?, reads_bind, reads_accept?] at h
  obtain ⟨_, _, ⟨equals, rfl, rfl, hk⟩ | ⟨rfl, rfl, _⟩, h⟩ := h
  · obtain ⟨e, _, he, h⟩ := reads_bind.1 h
    obtain ⟨rfl, rfl⟩ := reads_pure.1 h
    obtain ⟨used, rfl, hused⟩ := expression_sound bound _ _ _ _ he
    exact ⟨equals :: used, rfl, .present (List.mem_singleton.1 hk) hused⟩
  · obtain ⟨rfl, rfl⟩ := reads_pure.1 h
    exact ⟨[], rfl, .absent⟩

/-- What is read behind `var` is derived as a declaration of a variable. -/
theorem varDeclaration_sound {var : Token} {s : Stmt} (hvar : var.kind = .varWord)
    (h : Reads (varDeclaration bound) stop tokens s rest) :
    ∃ used, tokens = used ++ rest ∧ VarDecl (var :: used) s := by
  simp only [varDeclaration, reads_bind, reads_expect, reads_pure] at h
  obtain ⟨name, _, ⟨rfl, hname⟩, initial, _, hinitial, semicolon, _, ⟨rfl, hsemicolon⟩, rfl, rfl⟩ := h
  obtain ⟨used, rfl, hused⟩ := initializer?_sound hinitial
  exact ⟨name :: used ++ [semicolon], by simp, .mk hvar hname hused hsemicolon⟩

/-- What is read as an expression statement is derived as one. -/
theorem expressionStatement_sound {s : Stmt}
    (h : Reads (expressionStatement bound) stop tokens s rest) :
    ∃ used, tokens = used ++ rest ∧ ExprStmt used s := by
  simp only [expressionStatement, reads_bind, reads_expect, reads_pure] at h
  obtain ⟨e, _, he, semicolon, _, ⟨rfl, hsemicolon⟩, rfl, rfl⟩ := h
  obtain ⟨used, rfl, hused⟩ := expression_sound bound _ _ _ _ he
  exact ⟨used ++ [semicolon], by simp, .mk hused hsemicolon⟩

/-- What is read as an expression that may be missing is derived so. -/
theorem optionalExpression_sound {close : Kind} {o : Option Expr}
    (h : Reads (optionalExpression bound close) stop tokens o rest) :
    ∃ used, tokens = used ++ rest ∧ OptionalExpression used o := by
  simp only [optionalExpression, reads_bind, reads_peekKind?] at h
  obtain ⟨_, _, ⟨rfl, rfl⟩, h⟩ := h
  split at h
  · obtain ⟨rfl, rfl⟩ := reads_pure.1 h
    exact ⟨[], rfl, .absent⟩
  · obtain ⟨e, _, he, h⟩ := reads_bind.1 h
    obtain ⟨rfl, rfl⟩ := reads_pure.1 h
    obtain ⟨used, rfl, hused⟩ := expression_sound bound _ _ _ _ he
    exact ⟨used, rfl, .present hused⟩

/-- What is read as the first clause of a `for` statement is derived as one. -/
theorem forInitial_sound {o : Option Stmt} (h : Reads (forInitial bound) stop tokens o rest) :
    ∃ used, tokens = used ++ rest ∧ ForInitial used o := by
  simp only [forInitial, reads_bind, reads_peekKind?] at h
  obtain ⟨_, tokens, ⟨rfl, rfl⟩, h⟩ := h
  split at h
  · next hk =>
    obtain ⟨semicolon, ts, rfl, hsemicolon⟩ := head?_kind_eq_some_iff.1 hk
    obtain ⟨rfl, rfl⟩ := reads_skip_pure.1 h
    exact ⟨[semicolon], rfl, .absent hsemicolon⟩
  · next hk =>
    obtain ⟨var, ts, rfl, hvar⟩ := head?_kind_eq_some_iff.1 hk
    simp only [reads_bind, reads_skip, reads_pure, List.tail_cons] at h
    obtain ⟨_, _, rfl, s, _, hs, rfl, rfl⟩ := h
    obtain ⟨used, rfl, hused⟩ := varDeclaration_sound hvar hs
    exact ⟨var :: used, rfl, .varDecl hused⟩
  · obtain ⟨s, _, hs, h⟩ := reads_bind.1 h
    obtain ⟨rfl, rfl⟩ := reads_pure.1 h
    obtain ⟨used, rfl, hused⟩ := expressionStatement_sound hs
    exact ⟨used, rfl, .exprStmt hused⟩

/-- What a parser reads cleanly is a statement, made of the tokens that were taken. If it dangles, no
`else` follows. -/
def SoundForStmt (p : Parser Stmt) : Prop :=
  ∀ (stop : Token) (tokens rest : List Token) (s : Stmt), Reads p stop tokens s rest →
    ∃ used dangling, tokens = used ++ rest ∧ DerivesStmt .nearest (.statement dangling) used s ∧
      (dangling = true → NextNot [.elseWord] rest)

/-- What is read behind `for` is derived as a `for` statement. It dangles if its body does, so it needs to see what
the body does. -/
theorem forStatement_sound {inner : Parser Stmt} (hinner : SoundForStmt inner) {word : Token}
    {s : Stmt} (hword : word.kind = .forWord)
    (h : Reads (forStatement bound inner) stop tokens s rest) :
    ∃ used dangling, tokens = used ++ rest ∧
      DerivesStmt .nearest (.statement dangling) (word :: used) s ∧
      (dangling = true → NextNot [.elseWord] rest) := by
  simp only [forStatement, reads_bind, reads_expect, reads_pure] at h
  obtain ⟨left, _, ⟨rfl, hleft⟩, initial, _, hinitial, condition, _, hcondition, semicolon, _,
    ⟨rfl, hsemicolon⟩, increment, _, hincrement, right, _, ⟨rfl, hright⟩, round, _, hround, rfl,
    rfl⟩ := h
  obtain ⟨first, rfl, hfirst⟩ := forInitial_sound hinitial
  obtain ⟨second, hsecond, hsecond'⟩ := optionalExpression_sound hcondition
  obtain ⟨third, rfl, hthird⟩ := optionalExpression_sound hincrement
  obtain ⟨body, dangling, rfl, hbody, hnext⟩ := hinner _ _ _ _ hround
  refine ⟨left :: first ++ second ++ semicolon :: third ++ right :: body, dangling, ?_, ?_, hnext⟩
  · simp [hsecond]
  · rw [← forTree_eq_forLoop]
    exact .forStmt hword hleft hfirst hsecond' hsemicolon hthird hright hbody

/-- What is read behind `if` is derived as one of the two forms. Without an alternative the statement dangles, and
no `else` comes next. -/
theorem ifStatement_sound {inner : Parser Stmt} (hinner : SoundForStmt inner) {word : Token}
    {s : Stmt} (hword : word.kind = .ifWord)
    (h : Reads (ifStatement bound inner) stop tokens s rest) :
    ∃ used dangling, tokens = used ++ rest ∧
      DerivesStmt .nearest (.statement dangling) (word :: used) s ∧
      (dangling = true → NextNot [.elseWord] rest) := by
  simp only [ifStatement, reads_bind, reads_expect, reads_accept?] at h
  obtain ⟨left, _, ⟨rfl, hleft⟩, condition, _, hcondition, right, _, ⟨rfl, hright⟩, yes, mid, hyes,
    _, _, hother, h⟩ := h
  obtain ⟨used, rfl, hused⟩ := expression_sound bound _ _ _ _ hcondition
  obtain ⟨body, inner, rfl, hbody, hnext⟩ := hinner _ _ _ _ hyes
  rcases hother with ⟨other, rfl, rfl, hk⟩ | ⟨rfl, rfl, hnone⟩
  · obtain ⟨no, _, hno, h⟩ := reads_bind.1 h
    obtain ⟨rfl, rfl⟩ := reads_pure.1 h
    obtain ⟨alternative, dangling, rfl, halternative, hnext'⟩ := hinner _ _ _ _ hno
    -- The branch does not dangle, or it would have seen this `else`.
    have hclosed : inner = false := by
      cases inner with
      | false => rfl
      | true => exact absurd hk (nextNot_cons.1 (hnext rfl))
    exact ⟨left :: used ++ right :: body ++ other :: alternative, dangling, by simp,
      .ifThenElse hword hleft hused hright hbody hclosed (List.mem_singleton.1 hk) halternative,
      hnext'⟩
  · obtain ⟨rfl, rfl⟩ := reads_pure.1 h
    exact ⟨left :: used ++ right :: body, true, by simp, .ifThen hword hleft hused hright hbody,
      fun _ => hnone⟩

/-- What is read behind `while` is derived as a loop, which dangles if its body does. -/
theorem whileStatement_sound {inner : Parser Stmt} (hinner : SoundForStmt inner) {word : Token}
    {s : Stmt} (hword : word.kind = .whileWord)
    (h : Reads (whileStatement bound inner) stop tokens s rest) :
    ∃ used dangling, tokens = used ++ rest ∧
      DerivesStmt .nearest (.statement dangling) (word :: used) s ∧
      (dangling = true → NextNot [.elseWord] rest) := by
  simp only [whileStatement, reads_bind, reads_expect, reads_pure] at h
  obtain ⟨left, _, ⟨rfl, hleft⟩, condition, _, hcondition, right, _, ⟨rfl, hright⟩, round, _, hround,
    rfl, rfl⟩ := h
  obtain ⟨used, rfl, hused⟩ := expression_sound bound _ _ _ _ hcondition
  obtain ⟨body, dangling, rfl, hbody, hnext⟩ := hinner _ _ _ _ hround
  exact ⟨left :: used ++ right :: body, dangling, by simp,
    .whileStmt hword hleft hused hright hbody, hnext⟩

/-- What is read as a declaration is derived as one. -/
theorem declaration_sound {inner : Parser Stmt} (hinner : SoundForStmt inner) {s : Stmt}
    (h : Reads (declaration bound inner) stop tokens s rest) :
    ∃ used, tokens = used ++ rest ∧ DerivesStmt .nearest .declaration used s := by
  simp only [declaration, reads_bind, reads_peekKind?] at h
  obtain ⟨_, tokens, ⟨rfl, rfl⟩, h⟩ := h
  split at h
  · next hk =>
    obtain ⟨var, ts, rfl, hvar⟩ := head?_kind_eq_some_iff.1 hk
    simp only [reads_bind, reads_skip, List.tail_cons] at h
    obtain ⟨_, _, rfl, hs⟩ := h
    obtain ⟨used, rfl, hused⟩ := varDeclaration_sound hvar hs
    exact ⟨var :: used, rfl, .varDecl hused⟩
  · obtain ⟨used, _, rfl, hused, _⟩ := hinner _ _ _ _ h
    exact ⟨used, rfl, .statement hused⟩

/-- Declarations that are read cleanly are a row. With a bound that reaches the number of tokens, what
is left begins with a closing token, if it is not empty. -/
theorem declarations_sound {closing : List Kind} {inner : Parser Stmt} (hinner : SoundForStmt inner)
    {size : Nat} (bound : Nat) :
    ∀ {tokens rest : List Token} {trees : List Stmt},
      Reads (declarations closing (declaration size inner) bound) stop tokens trees rest →
      ∃ body, tokens = body ++ rest ∧ Program .nearest body trees ∧
        (tokens.length ≤ bound → ∀ t ∈ rest.head?, t.kind ∈ closing) := by
  -- A declaration has a token, so a bound that reaches all tokens still does behind the first declaration.
  induction bound with
  | zero =>
    intro tokens rest trees h
    obtain ⟨rfl, rfl⟩ := reads_pure.1 h
    refine ⟨[], rfl, .nil _, fun hlength => ?_⟩
    rw [List.eq_nil_of_length_eq_zero (Nat.le_zero.1 hlength)]
    nofun
  | succ bound ih =>
    intro _ rest trees h
    simp only [declarations, reads_bind, reads_peekKind?] at h
    obtain ⟨_, tokens, ⟨rfl, rfl⟩, h⟩ := h
    cases tokens with
    | nil =>
      obtain ⟨rfl, rfl⟩ := reads_pure.1 h
      exact ⟨[], rfl, .nil _, fun _ => nofun⟩
    | cons t ts =>
      simp only [List.head?_cons, Option.map_some] at h
      split at h
      · next hk =>
        obtain ⟨rfl, rfl⟩ := reads_pure.1 h
        refine ⟨[], rfl, .nil _, fun _ t' ht' => ?_⟩
        cases ht'
        exact hk
      · simp only [reads_bind, reads_recovering, reads_pure] at h
        obtain ⟨_, _, ⟨s, rfl, hs⟩, others, _, hothers, rfl, rfl⟩ := h
        obtain ⟨used, hused, hder⟩ := declaration_sound hinner hs
        obtain ⟨body, rfl, hbody, hclosing⟩ := ih hothers
        refine ⟨used ++ body, by simp [hused], .cons hder hbody, fun hlength => hclosing ?_⟩
        have hpos := hder.length_pos
        rw [hused, List.length_append] at hlength
        omega

/-- What is read behind a left brace is derived as a block. Its declarations are read with recovery, but a clean
reading has not used it. -/
theorem block_sound {inner : Parser Stmt} (hinner : SoundForStmt inner) {left : Token} {s : Stmt}
    (hleft : left.kind = .leftBrace) (h : Reads (block bound inner) stop tokens s rest) :
    ∃ used, tokens = used ++ rest ∧ DerivesStmt .nearest (.statement false) (left :: used) s := by
  simp only [block, reads_bind, reads_expect, reads_pure] at h
  obtain ⟨trees, _, htrees, right, _, ⟨rfl, hright⟩, rfl, rfl⟩ := h
  obtain ⟨_, rfl, ⟨parts, rfl, rfl, hparts⟩, _⟩ := declarations_sound hinner _ htrees
  exact ⟨parts.flatMap Prod.fst ++ [right], by simp, .block parts hleft hparts hright⟩

/-- What is read behind `print` is derived as a print statement. -/
theorem printStatement_sound {word : Token} {s : Stmt} (hword : word.kind = .printWord)
    (h : Reads (printStatement bound) stop tokens s rest) :
    ∃ used, tokens = used ++ rest ∧ DerivesStmt .nearest (.statement false) (word :: used) s := by
  simp only [printStatement, reads_bind, reads_expect, reads_pure] at h
  obtain ⟨e, _, he, semicolon, _, ⟨rfl, hsemicolon⟩, rfl, rfl⟩ := h
  obtain ⟨used, rfl, hused⟩ := expression_sound bound _ _ _ _ he
  exact ⟨used ++ [semicolon], by simp, .printStmt hword hused hsemicolon⟩

/-- What is read cleanly as a statement is one. -/
theorem statement_sound (bound : Nat) : SoundForStmt (Parser.statement bound) := by
  induction bound with
  | zero => exact fun _ _ _ _ h => absurd h not_reads_fail
  | succ bound ih =>
    intro stop _ rest s h
    simp only [Parser.statement, reads_bind, reads_peekKind?] at h
    obtain ⟨_, tokens, ⟨rfl, rfl⟩, h⟩ := h
    split at h
    case h_6 =>
      obtain ⟨used, rfl, hused⟩ := expressionStatement_sound h
      exact ⟨used, false, rfl, .exprStmt hused, fun h => absurd h Bool.false_ne_true⟩
    all_goals
      rename_i hk
      obtain ⟨word, ts, rfl, hword⟩ := head?_kind_eq_some_iff.1 hk
      simp only [reads_bind, reads_skip, List.tail_cons] at h
      obtain ⟨_, _, rfl, h⟩ := h
    · obtain ⟨used, dangling, rfl, hused, hnext⟩ := forStatement_sound ih hword h
      exact ⟨word :: used, dangling, rfl, hused, hnext⟩
    · obtain ⟨used, dangling, rfl, hused, hnext⟩ := ifStatement_sound ih hword h
      exact ⟨word :: used, dangling, rfl, hused, hnext⟩
    · obtain ⟨used, dangling, rfl, hused, hnext⟩ := whileStatement_sound ih hword h
      exact ⟨word :: used, dangling, rfl, hused, hnext⟩
    · obtain ⟨used, rfl, hused⟩ := block_sound ih hword h
      exact ⟨word :: used, false, rfl, hused, fun h => absurd h Bool.false_ne_true⟩
    · obtain ⟨used, rfl, hused⟩ := printStatement_sound hword h
      exact ⟨word :: used, false, rfl, hused, fun h => absurd h Bool.false_ne_true⟩

/-! ## Completeness -/

/-- A variable declaration begins with its word. -/
theorem VarDecl.exists_cons {used : List Token} {s : Stmt} (h : VarDecl used s) :
    ∃ var ts, used = var :: ts ∧ var.kind = .varWord := by
  cases h with
  | mk hvar => exact ⟨_, _, rfl, hvar⟩

/-- An expression does not begin with a token of a kind that begins none. -/
theorem Expression.nextNot {used : List Token} {e : Expr} (h : Expression used e) {kinds : List Kind}
    (rest : List Token) (hkinds : ∀ kind ∈ kinds, kind ∉ expressionStarts) : NextNot kinds (used ++ rest) := by
  obtain ⟨t, ts, rfl, ht⟩ := h.starts
  rw [List.cons_append, nextNot_cons]
  exact fun hk => hkinds _ hk ht

/-- The kind of the first token of an expression is none that begins no expression. -/
theorem Expression.head?_kind_ne {used : List Token} {e : Expr} (h : Expression used e)
    (kind : Kind) (rest : List Token) (hkind : kind ∉ expressionStarts) :
    (used ++ rest).head?.map Token.kind ≠ some kind := by
  intro heq
  obtain ⟨t, ts, hts, rfl⟩ := head?_kind_eq_some_iff.1 heq
  have hnext : NextNot [t.kind] (used ++ rest) := h.nextNot rest (by simpa using hkind)
  rw [hts, nextNot_cons] at hnext
  exact hnext (by simp)

/-- A token that closes a place for an expression does not go on with one. -/
theorem nextNot_continues {t : Token} (h : t.kind = .semicolon ∨ t.kind = .rightParen) :
    NextNot expressionContinues (t :: rest) := by
  rw [nextNot_cons]
  rcases h with hk | hk <;> rw [hk] <;> decide

/-- The tokens of an initial value, or of none, are read up to the semicolon behind them. -/
theorem initializer?_complete {used : List Token} {o : Option Expr} (h : Initializer used o)
    (hbound : used.length ≤ bound) {semicolon : Token} (hsemicolon : semicolon.kind = .semicolon) :
    Reads (initializer? bound) stop (used ++ semicolon :: rest) o (semicolon :: rest) := by
  simp only [initializer?, reads_bind, reads_accept?]
  cases h with
  | absent => exact ⟨none, _, .inr ⟨rfl, rfl, by simp [hsemicolon]⟩, reads_pure.2 ⟨rfl, rfl⟩⟩
  | @present equals used e hequals he =>
    refine ⟨some equals, used ++ semicolon :: rest, .inl ⟨equals, rfl, rfl, by simp [hequals]⟩, ?_⟩
    have hread : Reads (expression bound) stop (used ++ semicolon :: rest) e (semicolon :: rest) :=
      expression_complete he _ _ _ (Nat.le_of_succ_le hbound) (nextNot_continues (.inl hsemicolon))
    exact reads_bind.2 ⟨e, _, hread, reads_pure.2 ⟨rfl, rfl⟩⟩

/-- The tokens of a declaration of a variable are read behind their `var`. -/
theorem varDeclaration_complete {var : Token} {used : List Token} {s : Stmt}
    (h : VarDecl (var :: used) s) (hbound : used.length ≤ bound) :
    Reads (varDeclaration bound) stop (used ++ rest) s rest := by
  generalize htokens : var :: used = tokens at h
  cases h with
  | @mk _ name semicolon used initial _ hname hinitial hsemicolon =>
    simp only [List.cons_append, List.cons.injEq] at htokens
    obtain ⟨rfl, rfl⟩ := htokens
    simp only [varDeclaration, reads_bind, reads_expect, reads_pure]
    simp only [List.length_append, List.length_cons] at hbound
    exact ⟨name, used ++ semicolon :: rest, ⟨by simp, hname⟩, initial, semicolon :: rest,
      initializer?_complete hinitial (by omega) hsemicolon, semicolon, rest, ⟨rfl, hsemicolon⟩,
      rfl, rfl⟩

/-- The tokens of an expression statement are read. -/
theorem expressionStatement_complete {used : List Token} {s : Stmt} (h : ExprStmt used s)
    (hbound : used.length ≤ bound) :
    Reads (expressionStatement bound) stop (used ++ rest) s rest := by
  cases h with
  | @mk used e semicolon he hsemicolon =>
    simp only [expressionStatement, reads_bind, reads_expect, reads_pure]
    rw [List.length_append] at hbound
    have hread := expression_complete he bound stop (semicolon :: rest)
      (Nat.le_of_add_right_le hbound) (nextNot_continues (.inl hsemicolon))
    exact ⟨e, semicolon :: rest, by simpa using hread, semicolon, rest, ⟨rfl, hsemicolon⟩, rfl, rfl⟩

/-- The tokens of an expression that may be missing are read up to what closes the clause. -/
theorem optionalExpression_complete {used : List Token} {o : Option Expr}
    (h : OptionalExpression used o) (bound : Nat) (stop : Token) {close : Token} (rest : List Token)
    (hbound : used.length ≤ bound) (hclose : close.kind = .semicolon ∨ close.kind = .rightParen) :
    Reads (optionalExpression bound close.kind) stop (used ++ close :: rest) o (close :: rest) := by
  simp only [optionalExpression, reads_bind, reads_peekKind?]
  refine ⟨_, _, ⟨rfl, rfl⟩, ?_⟩
  cases h with
  | absent => simp
  | @present _ e he =>
    have hstart : close.kind ∉ expressionStarts := by
      rcases hclose with hk | hk <;> rw [hk] <;> decide
    rw [if_neg (he.head?_kind_ne _ _ hstart)]
    have hread := expression_complete he bound stop (close :: rest) hbound
      (nextNot_continues hclose)
    exact reads_bind.2 ⟨e, _, hread, reads_pure.2 ⟨rfl, rfl⟩⟩

/-- The tokens of the first clause of a `for` statement are read. -/
theorem forInitial_complete {used : List Token} {o : Option Stmt} (h : ForInitial used o)
    (bound : Nat) (stop : Token) (rest : List Token) (hbound : used.length ≤ bound) :
    Reads (forInitial bound) stop (used ++ rest) o rest := by
  simp only [forInitial, reads_bind, reads_peekKind?]
  refine ⟨_, _, ⟨rfl, rfl⟩, ?_⟩
  cases h with
  | absent hk =>
    simp only [List.cons_append, List.head?_cons, Option.map_some, hk]
    exact reads_skip_pure.2 ⟨rfl, rfl⟩
  | varDecl h =>
    obtain ⟨var, used, rfl, hvar⟩ := h.exists_cons
    simp only [List.cons_append, List.head?_cons, Option.map_some, hvar, reads_bind, reads_skip,
      List.tail_cons, reads_pure]
    exact ⟨(), _, rfl, _, _, varDeclaration_complete h (Nat.le_of_succ_le hbound), rfl, rfl⟩
  | exprStmt h =>
    obtain ⟨e, used, t, rfl, he⟩ : ∃ e used' t, used = used' ++ [t] ∧ Expression used' e := by
      cases h with | mk he => exact ⟨_, _, _, rfl, he⟩
    have hsemicolon := he.head?_kind_ne .semicolon (t :: rest) (by decide)
    have hvar := he.head?_kind_ne .varWord (t :: rest) (by decide)
    rw [List.append_cons] at hsemicolon hvar
    split
    · next hk => exact absurd hk hsemicolon
    · next hk => exact absurd hk hvar
    · exact reads_bind.2 ⟨_, _, expressionStatement_complete h hbound, reads_pure.2 ⟨rfl, rfl⟩⟩

/-- The parser of the statements that a word begins, behind that word. -/
def behindWord (bound : Nat) : Kind → Option (Parser Stmt)
  | .forWord => some (forStatement bound (Parser.statement bound))
  | .ifWord => some (ifStatement bound (Parser.statement bound))
  | .whileWord => some (whileStatement bound (Parser.statement bound))
  | .leftBrace => some (Parser.block bound (Parser.statement bound))
  | .printWord => some (printStatement bound)
  | _ => none

/-- A statement that a word begins is read by the parser of that word. -/
theorem statement_of_behindWord {word : Token} {p : Parser Stmt} {s : Stmt}
    (hp : behindWord bound word.kind = some p) (h : Reads p stop tokens s rest) :
    Reads (Parser.statement (bound + 1)) stop (word :: tokens) s rest := by
  simp only [Parser.statement, reads_bind, reads_peekKind?]
  refine ⟨_, _, ⟨rfl, rfl⟩, ?_⟩
  simp only [List.head?_cons, Option.map_some]
  unfold behindWord at hp
  split at hp <;> cases hp
  all_goals
    next hk =>
    simp only [hk, reads_bind, reads_skip, List.tail_cons]
    exact ⟨(), tokens, rfl, h⟩

/-- An expression statement is read as a statement, since it begins with none of the words that the others begin
with. -/
theorem statement_of_exprStmt {used : List Token} {s : Stmt} (h : ExprStmt used s)
    (hbound : used.length ≤ bound + 1) :
    Reads (Parser.statement (bound + 1)) stop (used ++ rest) s rest := by
  have hnext : NextNot [.forWord, .ifWord, .whileWord, .leftBrace, .printWord] (used ++ rest) := by
    cases h with
    | mk he => rw [List.append_assoc]; exact he.nextNot _ (by decide)
  simp only [Parser.statement, reads_bind, reads_peekKind?]
  refine ⟨_, _, ⟨rfl, rfl⟩, ?_⟩
  split
  case h_6 => exact expressionStatement_complete h hbound
  all_goals
    next hk =>
    obtain ⟨word, ts, hts, hword⟩ := head?_kind_eq_some_iff.1 hk
    rw [hts, nextNot_cons, hword] at hnext
    exact absurd (by decide) hnext

/-- A declaration begins neither with an `else` nor with a closing brace. -/
theorem DerivesStmt.nextNot {rule : ElseRule} {form : Form} {used : List Token} {s : Stmt}
    (h : DerivesStmt rule form used s) : NextNot [.elseWord, .rightBrace] (used ++ rest) := by
  induction h with
  | varDecl h => cases h with | mk hvar => simp [hvar]
  | statement _ ih => exact ih
  | exprStmt h => cases h with | mk he => rw [List.append_assoc]; exact he.nextNot _ (by decide)
  | printStmt hk | block _ hk | ifThen hk | ifThenElse hk | whileStmt hk | forStmt hk => simp [hk]

/-- A statement does not begin with the word of a variable declaration. -/
theorem DerivesStmt.head?_kind_ne_varWord {rule : ElseRule} {dangling : Bool} {used : List Token}
    {s : Stmt} (h : DerivesStmt rule (.statement dangling) used s) :
    (used ++ rest).head?.map Token.kind ≠ some .varWord := by
  cases h with
  | exprStmt h =>
    cases h with | mk he => rw [List.append_assoc]; exact he.head?_kind_ne _ _ (by decide)
  | printStmt hk | block _ hk | ifThen hk | ifThenElse hk | whileStmt hk | forStmt hk => simp [hk]

/-- There are no more declarations in a row than tokens. -/
theorem length_parts {rule : ElseRule} {parts : List (List Token × Stmt)}
    (h : ∀ p ∈ parts, DerivesStmt rule .declaration p.1 p.2) :
    parts.length ≤ (parts.flatMap Prod.fst).length := by
  induction parts with
  | nil => simp
  | cons p parts ih =>
    have hpos := (h p (by simp)).length_pos
    have := ih fun q hq => h q (by simp [hq])
    rw [List.flatMap_cons, List.length_append, List.length_cons]
    omega

/-- The parser of a form reads a tree from its tokens, whatever follows them that cannot go on with it:
behind a declaration or a dangling statement, an `else` could. -/
def CompleteForForm : Form → List Token → Stmt → Prop
  | .declaration, used, s => ∀ (bound : Nat) (stop : Token) (rest : List Token),
      used.length ≤ bound → NextNot [.elseWord] rest →
      Reads (declaration bound (Parser.statement bound)) stop (used ++ rest) s rest
  | .statement dangling, used, s => ∀ (bound : Nat) (stop : Token) (rest : List Token),
      used.length ≤ bound → (dangling = true → NextNot [.elseWord] rest) →
      Reads (Parser.statement bound) stop (used ++ rest) s rest

/-- Declarations in a row are read, up to the end or a closing brace that stops them. -/
theorem declarations_complete {closing : List Kind} (hclosing : closing ⊆ [.rightBrace])
    {rule : ElseRule} (hrest : ∀ t ∈ rest.head?, t.kind ∈ closing) (size : Nat) (stop : Token) :
    ∀ {parts : List (List Token × Stmt)} (bound : Nat), parts.length ≤ bound →
      (parts.flatMap Prod.fst).length ≤ size →
      (∀ p ∈ parts, DerivesStmt rule .declaration p.1 p.2) →
      (∀ p ∈ parts, CompleteForForm .declaration p.1 p.2) →
      Reads (declarations closing (declaration size (Parser.statement size)) bound) stop
        (parts.flatMap Prod.fst ++ rest) (parts.map Prod.snd) rest := by
  intro parts
  induction parts with
  | nil =>
    intro bound _ _ _ _
    cases bound with
    | zero => exact reads_pure.2 ⟨rfl, rfl⟩
    | succ bound =>
      simp only [declarations, reads_bind, reads_peekKind?]
      refine ⟨_, _, ⟨rfl, rfl⟩, ?_⟩
      cases rest with
      | nil => exact reads_pure.2 ⟨rfl, rfl⟩
      | cons t ts =>
        have ht : t.kind ∈ closing := hrest t rfl
        simp only [List.flatMap_nil, List.nil_append, List.head?_cons, Option.map_some, if_pos ht]
        exact reads_pure.2 ⟨rfl, rfl⟩
  | cons p parts ih =>
    intro bound hbound hsize hder hcomplete
    cases bound with
    | zero => exact absurd hbound (by simp)
    | succ bound =>
      obtain ⟨used, s⟩ := p
      have hs : DerivesStmt rule .declaration used s := hder (used, s) (by simp)
      rw [List.flatMap_cons, List.length_append] at hsize
      -- What follows the first declaration is another one, the closing brace or the end.
      have hnext : NextNot [.elseWord] (parts.flatMap Prod.fst ++ rest) := by
        cases parts with
        | nil =>
          intro t ht hk
          have hbrace := hclosing (hrest t ht)
          rw [List.mem_singleton] at hk hbrace
          rw [hk] at hbrace
          cases hbrace
        | cons q parts =>
          rw [List.flatMap_cons, List.append_assoc]
          exact (hder q (by simp)).nextNot.mono (by simp)
      have hfirst := hcomplete (used, s) (by simp) size stop _ (by omega) hnext
      have hothers := ih bound (Nat.le_of_succ_le_succ hbound) (by omega)
        (fun q hq => hder q (by simp [hq])) fun q hq => hcomplete q (by simp [hq])
      have hstart : NextNot closing (used ++ (parts.flatMap Prod.fst ++ rest)) :=
        hs.nextNot.mono fun k hk => by simp [List.mem_singleton.1 (hclosing hk)]
      obtain ⟨t, ts, rfl⟩ : ∃ t ts, used = t :: ts :=
        List.exists_cons_of_length_pos hs.length_pos
      simp only [declarations, reads_bind, reads_peekKind?, List.flatMap_cons, List.append_assoc]
      refine ⟨_, _, ⟨rfl, rfl⟩, ?_⟩
      simp only [List.cons_append, List.head?_cons, Option.map_some, if_neg (nextNot_cons.1 hstart)]
      simp only [reads_bind, reads_recovering, reads_pure]
      exact ⟨some s, _, ⟨s, rfl, hfirst⟩, _, _, hothers, rfl, rfl⟩

/-- The tokens of a `for` statement are read clause by clause, and its tree is put together behind them. -/
theorem forStatement_complete {word : Token} {first second third body : List Token}
    {left semicolon right : Token} {initial : Option Stmt} {condition increment : Option Expr}
    {round : Stmt} {dangling : Bool} (hword : word.kind = .forWord) (hleft : left.kind = .leftParen)
    (hinitial : ForInitial first initial) (hcondition : OptionalExpression second condition)
    (hsemicolon : semicolon.kind = .semicolon) (hincrement : OptionalExpression third increment)
    (hright : right.kind = .rightParen) (ih : CompleteForForm (.statement dangling) body round) :
    CompleteForForm (.statement dangling)
      (word :: left :: first ++ second ++ semicolon :: third ++ right :: body)
      (.forLoop initial condition increment round) := by
  intro bound stop rest hbound hrest
  simp only [List.length_append, List.length_cons] at hbound
  obtain ⟨bound, rfl⟩ : ∃ b, bound = b + 1 := ⟨bound - 1, by omega⟩
  have hthird := optionalExpression_complete hincrement bound stop (body ++ rest) (by omega)
    (.inr hright)
  have hsecond := optionalExpression_complete hcondition bound stop
    (third ++ right :: (body ++ rest)) (by omega) (.inl hsemicolon)
  have hfirst := forInitial_complete hinitial bound stop
    (second ++ semicolon :: (third ++ right :: (body ++ rest))) (by omega)
  have hbody := ih bound stop rest (by omega) hrest
  rw [hright] at hthird
  rw [hsemicolon] at hsecond
  simp only [List.cons_append, List.append_assoc]
  refine statement_of_behindWord (by rw [hword]; rfl) ?_
  simp only [forStatement, reads_bind, reads_expect, reads_pure]
  exact ⟨left, _, ⟨rfl, hleft⟩, initial, _, hfirst, condition, _, hsecond, semicolon, _,
    ⟨rfl, hsemicolon⟩, increment, _, hthird, right, _, ⟨rfl, hright⟩, round, _, hbody, rfl, rfl⟩

/-- The tokens of a print statement are read. -/
theorem printStmt_complete {word semicolon : Token} {used : List Token} {e : Expr}
    (hword : word.kind = .printWord) (he : Expression used e)
    (hsemicolon : semicolon.kind = .semicolon) :
    CompleteForForm (.statement false) (word :: used ++ [semicolon]) (.print e) := by
  intro bound stop rest hbound _
  simp only [List.length_append, List.length_cons] at hbound
  obtain ⟨bound, rfl⟩ : ∃ b, bound = b + 1 := ⟨bound - 1, by omega⟩
  have hread := expression_complete he bound stop (semicolon :: rest) (by omega)
    (nextNot_continues (.inl hsemicolon))
  simp only [List.cons_append, List.append_assoc, List.nil_append]
  refine statement_of_behindWord (by rw [hword]; rfl) ?_
  simp only [printStatement, reads_bind, reads_expect, reads_pure]
  exact ⟨e, _, hread, semicolon, _, ⟨rfl, hsemicolon⟩, rfl, rfl⟩

/-- The tokens of a block are read, one declaration after the other up to the right brace. -/
theorem block_complete {left right : Token} {parts : List (List Token × Stmt)}
    (hleft : left.kind = .leftBrace) (hparts : ∀ p ∈ parts, DerivesStmt .nearest .declaration p.1 p.2)
    (hright : right.kind = .rightBrace) (ih : ∀ p ∈ parts, CompleteForForm .declaration p.1 p.2) :
    CompleteForForm (.statement false) (left :: parts.flatMap Prod.fst ++ [right])
      (.block (parts.map Prod.snd)) := by
  intro bound stop rest hbound _
  simp only [List.length_append, List.length_cons] at hbound
  obtain ⟨bound, rfl⟩ : ∃ b, bound = b + 1 := ⟨bound - 1, by omega⟩
  have hbrace : ∀ t ∈ (right :: rest).head?, t.kind ∈ [Kind.rightBrace] := by simp [hright]
  have hread := declarations_complete (List.Subset.refl _) hbrace bound stop bound
    (Nat.le_trans (length_parts hparts) (by omega)) (by omega) hparts ih
  simp only [List.cons_append, List.append_assoc, List.nil_append]
  refine statement_of_behindWord (by rw [hleft]; rfl) ?_
  simp only [Parser.block, reads_bind, reads_expect, reads_pure]
  exact ⟨_, _, hread, right, _, ⟨rfl, hright⟩, rfl, rfl⟩

/-- The tokens of an `if` statement without an alternative are read, if no `else` comes next. -/
theorem ifThen_complete {word left right : Token} {used body : List Token} {condition : Expr}
    {yes : Stmt} {dangling : Bool} (hword : word.kind = .ifWord) (hleft : left.kind = .leftParen)
    (hcondition : Expression used condition) (hright : right.kind = .rightParen)
    (ih : CompleteForForm (.statement dangling) body yes) :
    CompleteForForm (.statement true) (word :: left :: used ++ right :: body)
      (.ifThen condition yes) := by
  intro bound stop rest hbound hrest
  simp only [List.length_append, List.length_cons] at hbound
  obtain ⟨bound, rfl⟩ : ∃ b, bound = b + 1 := ⟨bound - 1, by omega⟩
  have hread := expression_complete hcondition bound stop (right :: (body ++ rest)) (by omega)
    (nextNot_continues (.inr hright))
  have hbody := ih bound stop rest (by omega) fun _ => hrest rfl
  simp only [List.cons_append, List.append_assoc]
  refine statement_of_behindWord (by rw [hword]; rfl) ?_
  simp only [ifStatement, reads_bind, reads_expect, reads_accept?]
  exact ⟨left, _, ⟨rfl, hleft⟩, condition, _, hread, right, _, ⟨rfl, hright⟩, yes, _, hbody, none, _,
    .inr ⟨rfl, rfl, hrest rfl⟩, reads_pure.2 ⟨rfl, rfl⟩⟩

/-- The tokens of an `if` statement with an alternative are read. What stands before the `else` must not dangle, or
it would take the `else` for itself. -/
theorem ifThenElse_complete {word left right other : Token} {used body alternative : List Token}
    {condition : Expr} {yes no : Stmt} {dangling : Bool} (hword : word.kind = .ifWord)
    (hleft : left.kind = .leftParen) (hcondition : Expression used condition)
    (hright : right.kind = .rightParen) (hother : other.kind = .elseWord)
    (ihyes : CompleteForForm (.statement false) body yes)
    (ihno : CompleteForForm (.statement dangling) alternative no) :
    CompleteForForm (.statement dangling)
      (word :: left :: used ++ right :: body ++ other :: alternative)
      (.ifThenElse condition yes no) := by
  intro bound stop rest hbound hrest
  simp only [List.length_append, List.length_cons] at hbound
  obtain ⟨bound, rfl⟩ : ∃ b, bound = b + 1 := ⟨bound - 1, by omega⟩
  have hread := expression_complete hcondition bound stop
    (right :: (body ++ other :: (alternative ++ rest))) (by omega) (nextNot_continues (.inr hright))
  have hbody := ihyes bound stop (other :: (alternative ++ rest)) (by omega) nofun
  have halternative := ihno bound stop rest (by omega) hrest
  simp only [List.cons_append, List.append_assoc]
  refine statement_of_behindWord (by rw [hword]; rfl) ?_
  simp only [ifStatement, reads_bind, reads_expect, reads_accept?]
  exact ⟨left, _, ⟨rfl, hleft⟩, condition, _, hread, right, _, ⟨rfl, hright⟩, yes, _, hbody,
    some other, _, .inl ⟨other, rfl, rfl, by simp [hother]⟩,
    reads_bind.2 ⟨no, _, halternative, reads_pure.2 ⟨rfl, rfl⟩⟩⟩

/-- The tokens of a `while` statement are read. -/
theorem whileStmt_complete {word left right : Token} {used body : List Token} {condition : Expr}
    {round : Stmt} {dangling : Bool} (hword : word.kind = .whileWord)
    (hleft : left.kind = .leftParen) (hcondition : Expression used condition)
    (hright : right.kind = .rightParen) (ih : CompleteForForm (.statement dangling) body round) :
    CompleteForForm (.statement dangling) (word :: left :: used ++ right :: body)
      (.whileLoop condition round) := by
  intro bound stop rest hbound hrest
  simp only [List.length_append, List.length_cons] at hbound
  obtain ⟨bound, rfl⟩ : ∃ b, bound = b + 1 := ⟨bound - 1, by omega⟩
  have hread := expression_complete hcondition bound stop (right :: (body ++ rest)) (by omega)
    (nextNot_continues (.inr hright))
  have hbody := ih bound stop rest (by omega) hrest
  simp only [List.cons_append, List.append_assoc]
  refine statement_of_behindWord (by rw [hword]; rfl) ?_
  simp only [whileStatement, reads_bind, reads_expect, reads_pure]
  exact ⟨left, _, ⟨rfl, hleft⟩, condition, _, hread, right, _, ⟨rfl, hright⟩, round, _, hbody, rfl,
    rfl⟩

/-- The tokens of a derivation with each `else` attached to the nearest open `if` are read. -/
theorem DerivesStmt.complete {form : Form} {used : List Token} {s : Stmt}
    (h : DerivesStmt .nearest form used s) : CompleteForForm form used s := by
  induction h with
  | varDecl h =>
    intro bound stop rest hbound _
    obtain ⟨var, used, rfl, hvar⟩ := h.exists_cons
    simp only [declaration, reads_bind, reads_peekKind?]
    refine ⟨_, _, ⟨rfl, rfl⟩, ?_⟩
    simp only [List.cons_append, List.head?_cons, Option.map_some, hvar, reads_bind, reads_skip,
      List.tail_cons]
    exact ⟨(), _, rfl, varDeclaration_complete h (Nat.le_of_succ_le hbound)⟩
  | statement h ih =>
    intro bound stop rest hbound hrest
    simp only [declaration, reads_bind, reads_peekKind?]
    refine ⟨_, _, ⟨rfl, rfl⟩, ?_⟩
    split
    · next hk => exact absurd hk h.head?_kind_ne_varWord
    · exact ih bound stop rest hbound fun _ => hrest
  | exprStmt h =>
    intro bound stop rest hbound _
    have hpos : 0 < _ := (DerivesStmt.exprStmt h : DerivesStmt .nearest _ _ _).length_pos
    obtain ⟨bound, rfl⟩ : ∃ b, bound = b + 1 := ⟨bound - 1, by omega⟩
    exact statement_of_exprStmt h hbound
  | printStmt hword he hsemicolon => exact printStmt_complete hword he hsemicolon
  | block parts hleft hparts hright ih => exact block_complete hleft hparts hright ih
  | ifThen hword hleft hcondition hright _ ih => exact ifThen_complete hword hleft hcondition hright ih
  | ifThenElse hword hleft hcondition hright _ hinner hother _ ihyes ihno =>
    have hclosed : _ = false := hinner
    rw [hclosed] at ihyes
    exact ifThenElse_complete hword hleft hcondition hright hother ihyes ihno
  | whileStmt hword hleft hcondition hright _ ih =>
    exact whileStmt_complete hword hleft hcondition hright ih
  | forStmt hword hleft hinitial hcondition hsemicolon hincrement hright _ ih =>
    rw [forTree_eq_forLoop]
    exact forStatement_complete hword hleft hinitial hcondition hsemicolon hincrement hright ih

/-! ## Whole token lists -/

/-- A row of declarations is what the parser of programs reads cleanly from it. -/
theorem reads_program_iff (stop : Token) {body : List Token} {trees : List Stmt} :
    Reads (Parser.program body.length) stop body trees [] ↔ Program .nearest body trees := by
  constructor
  · intro h
    obtain ⟨body', hbody, hprogram, _⟩ := declarations_sound (statement_sound _) _ h
    rw [List.append_nil] at hbody
    rwa [hbody]
  · rintro ⟨parts, rfl, rfl, hparts⟩
    have hend : ∀ t ∈ ([] : List Token).head?, t.kind ∈ ([] : List Kind) := nofun
    have h := declarations_complete (List.nil_subset _) hend (parts.flatMap Prod.fst).length stop _
      (length_parts hparts) (Nat.le_refl _) hparts fun p hp => (hparts p hp).complete
    rwa [List.append_nil] at h

/-- A token list is read as a program without a fault exactly if it is a row of declarations, with each
`else` attached to the nearest open `if`, and it is read as the trees of that row. -/
theorem parse_program_iff {body : List Token} {mark : Token} {trees : List Stmt}
    (hbody : ∀ t ∈ body, t.kind ≠ .eof) (hmark : mark.kind = .eof) :
    Parse.program (body ++ [mark]) = (trees, []) ↔ Program .nearest body trees := by
  rw [Parse.program, Stream.ofTokens?_append_mark hbody hmark, ← reads_program_iff mark]
  constructor
  · intro h
    obtain ⟨trees', htrees'⟩ := total_declarations []
      (declaration body.length (Parser.statement body.length)) body.length mark body
    obtain ⟨hresult, hreports⟩ := Prod.mk.inj h
    have hread : Reads (Parser.program body.length) mark body trees'
        (Parser.program body.length mark body).rest := by
      rw [Reads, ← hreports, ← htrees']
      rfl
    have htrees : trees' = trees := by
      rw [hread] at hresult
      exact hresult
    obtain ⟨_, _, _, hclosing⟩ := declarations_sound (statement_sound _) _ hread
    have hrest : (Parser.program body.length mark body).rest = [] := by
      cases hr : (Parser.program body.length mark body).rest with
      | nil => rfl
      | cons t ts =>
        rw [hr] at hclosing
        exact absurd (hclosing (Nat.le_refl _) t rfl) (List.not_mem_nil)
    rwa [hrest, htrees] at hread
  · intro h
    dsimp only
    rw [h]
    rfl

/-- A token list is read as an expression without a fault exactly if it is one, and it is read as the
tree of that expression. -/
theorem parse_expression_iff {body : List Token} {mark : Token} {e : Expr}
    (hbody : ∀ t ∈ body, t.kind ≠ .eof) (hmark : mark.kind = .eof) :
    Parse.expression (body ++ [mark]) = (some e, []) ↔ Expression body e := by
  rw [Parse.expression, Stream.ofTokens?_append_mark hbody hmark]
  have hsole : ∀ rest, Reads (soleExpression body.length) mark body e rest ↔
      rest = [] ∧ Reads (Parser.expression body.length) mark body e [] := by
    intro rest
    simp only [soleExpression, reads_bind, reads_peek?]
    constructor
    · rintro ⟨e', _, he', _, mid, ⟨rfl, rfl⟩, h⟩
      cases mid with
      | nil =>
        obtain ⟨rfl, rfl⟩ := reads_pure.1 h
        exact ⟨rfl, he'⟩
      | cons t ts => exact absurd h not_reads_fail
    · rintro ⟨rfl, h⟩
      exact ⟨e, [], h, none, [], ⟨rfl, rfl⟩, reads_pure.2 ⟨rfl, rfl⟩⟩
  constructor
  · intro h
    dsimp only at h
    split at h
    · next e' he' =>
      obtain ⟨he, hreports⟩ := Prod.mk.inj h
      cases he
      have hread : Reads (soleExpression body.length) mark body e
          (soleExpression body.length mark body).rest := by
        rw [Reads, ← hreports, ← he']
      obtain ⟨_, hexpression⟩ := (hsole _).1 hread
      obtain ⟨used, hused, hder⟩ := expression_sound _ _ _ _ _ hexpression
      rw [List.append_nil] at hused
      rwa [hused]
    · cases h
  · intro h
    have hread := expression_complete h _ mark [] (Nat.le_refl _) (nextNot_nil _)
    rw [List.append_nil] at hread
    have hread' : soleExpression body.length mark body = ⟨.ok e, [], []⟩ := (hsole []).2 ⟨rfl, hread⟩
    dsimp only
    rw [hread']

end Grammar

end LoxLang
