import LoxLang.Proofs.Parse.Grammar
import LoxLang.Proofs.Token.Newline

/-!
# The tokens in a tree

The name tokens of a tree (`Expr.names`, `Stmt.names`), those of them that are written (`Expr.targets`,
`Stmt.targets`) or that a statement declares outside of its blocks (`Stmt.declared`), and trees with other
tokens in them: `Expr.relabel` changes names in an expression, `Stmt.reline` moves the lines of all tokens.
The grammar does not look at lines (`Program.reline`): what it derives from tokens it derives, with their
lines moved, from the tokens with their lines moved.
-/

namespace LoxLang

/-- Induction over statements, with the hypothesis for a block in per-element form. -/
theorem Stmt.recData {motive : Stmt → Prop}
    (expression : ∀ e, motive (.expression e)) (print : ∀ e, motive (.print e))
    (declare : ∀ name initial, motive (.declare name initial))
    (block : ∀ body, (∀ s ∈ body, motive s) → motive (.block body))
    (ifThen : ∀ condition yes, motive yes → motive (.ifThen condition yes))
    (ifThenElse : ∀ condition yes no, motive yes → motive no →
      motive (.ifThenElse condition yes no))
    (whileLoop : ∀ condition body, motive body → motive (.whileLoop condition body)) :
    ∀ s, motive s :=
  Stmt.rec (motive_1 := motive) (motive_2 := fun body => ∀ s ∈ body, motive s)
    expression print declare block ifThen ifThenElse whileLoop nofun
    fun _ _ hs hbody => List.forall_mem_cons.2 ⟨hs, hbody⟩

/-- What holds of the parts of a `for` statement, and is kept by the nodes that are built from them, holds of the
statement. -/
theorem Stmt.forLoop_of_parts {P : Stmt → Prop} {Q : Expr → Prop}
    (hexpression : ∀ {e : Expr}, Q e → P (.expression e))
    (hblock : ∀ {body : List Stmt}, (∀ s ∈ body, P s) → P (.block body))
    (hwhileLoop : ∀ {condition : Expr} {body : Stmt}, Q condition → P body → P (.whileLoop condition body))
    (htrue : Q (.literal (.bool true))) {initial : Option Stmt} {condition increment : Option Expr}
    {body : Stmt} (hinitial : ∀ s ∈ initial, P s) (hcondition : ∀ e ∈ condition, Q e)
    (hincrement : ∀ e ∈ increment, Q e) (hbody : P body) :
    P (.forLoop initial condition increment body) := by
  have hround : P (body.withIncrement increment) := by
    cases increment with
    | none => exact hbody
    | some e =>
      refine hblock (List.forall_mem_cons.2 ⟨hbody, List.forall_mem_singleton.2 ?_⟩)
      exact hexpression (hincrement e rfl)
  have hloop : P (.whileLoop (condition.getD (.literal (.bool true))) (body.withIncrement increment)) := by
    refine hwhileLoop ?_ hround
    cases condition with
    | none => exact htrue
    | some e => exact hcondition e rfl
  cases initial with
  | none => exact hloop
  | some first => exact hblock (List.forall_mem_cons.2 ⟨hinitial first rfl, List.forall_mem_singleton.2 hloop⟩)

/-! ## Names -/

/-- The tokens of the variables that an expression reads or assigns. -/
def Expr.names : Expr → List Token
  | literal _ => []
  | grouping inner => inner.names
  | unary _ right => right.names
  | binary left _ right | logical left _ right => left.names ++ right.names
  | read name => [name]
  | assign name value => name :: value.names

/-- The tokens of the variables that an expression assigns. -/
def Expr.targets : Expr → List Token
  | literal _ | read _ => []
  | grouping inner => inner.targets
  | unary _ right => right.targets
  | binary left _ right | logical left _ right => left.targets ++ right.targets
  | assign name value => name :: value.targets

namespace Stmt

mutual

/-- The tokens of the variables that a statement reads, assigns or declares. -/
def names : Stmt → List Token
  | expression e | print e => e.names
  | declare name none => [name]
  | declare name (some e) => name :: e.names
  | block body => namesAll body
  | ifThen condition yes => condition.names ++ yes.names
  | ifThenElse condition yes no => condition.names ++ yes.names ++ no.names
  | whileLoop condition body => condition.names ++ body.names

/-- `names` over a list of statements. -/
def namesAll : List Stmt → List Token
  | [] => []
  | s :: rest => s.names ++ namesAll rest

end

/-- The name tokens of statements are those of each. -/
theorem namesAll_eq_flatMap (body : List Stmt) : namesAll body = body.flatMap names := by
  induction body with
  | nil => rfl
  | cons s rest ih => rw [namesAll, ih, List.flatMap_cons]

/-- A block has the names of each statement in it. -/
theorem names_subset_block {s : Stmt} {body : List Stmt} (h : s ∈ body) :
    s.names ⊆ (block body).names := by
  intro t ht
  rw [names, namesAll_eq_flatMap]
  exact List.mem_flatMap.2 ⟨s, h, ht⟩

mutual

/-- The tokens of the variables that a statement assigns or declares. -/
def targets : Stmt → List Token
  | expression e | print e => e.targets
  | declare name initial => name :: (initial.getD (.literal .null)).targets
  | block body => targetsAll body
  | ifThen condition yes => condition.targets ++ yes.targets
  | ifThenElse condition yes no => condition.targets ++ yes.targets ++ no.targets
  | whileLoop condition body => condition.targets ++ body.targets

/-- `targets` over a list of statements. -/
def targetsAll : List Stmt → List Token
  | [] => []
  | s :: rest => s.targets ++ targetsAll rest

end

/-- The written tokens of statements are those of each. -/
theorem targetsAll_eq_flatMap (body : List Stmt) : targetsAll body = body.flatMap targets := by
  induction body with
  | nil => rfl
  | cons s rest ih => rw [targetsAll, ih, List.flatMap_cons]

/-- The names that a statement declares outside of any block in it. -/
def declared : Stmt → List Token
  | declare name _ => [name]
  | ifThen _ yes => yes.declared
  | ifThenElse _ yes no => yes.declared ++ no.declared
  | whileLoop _ body => body.declared
  | expression _ | print _ | block _ => []

/-- A name that is declared is one of the names. -/
theorem declared_subset_names (s : Stmt) : s.declared ⊆ s.names := by
  induction s using Stmt.recData with
  | expression | print | block => exact List.nil_subset _
  | declare name initial => cases initial <;> simp [declared, names]
  | ifThen condition yes ih | whileLoop condition yes ih =>
    exact fun t ht => List.mem_append_right _ (ih ht)
  | ifThenElse condition yes no ihyes ihno =>
    intro t ht
    rcases List.mem_append.1 ht with ht | ht
    · exact List.mem_append_left _ (List.mem_append_right _ (ihyes ht))
    · exact List.mem_append_right _ (ihno ht)

end Stmt

/-! ## Other tokens in place -/

/-- The expression with the lines of its operators moved and its names changed. -/
def Expr.relabel (move : Nat → Nat) (name : Token → Token) : Expr → Expr
  | literal value => literal value
  | grouping inner => grouping (inner.relabel move name)
  | unary operator right => unary (operator.reline move) (right.relabel move name)
  | binary left operator right =>
    binary (left.relabel move name) (operator.reline move) (right.relabel move name)
  | logical left operator right =>
    logical (left.relabel move name) (operator.reline move) (right.relabel move name)
  | read t => read (name t)
  | assign t value => assign (name t) (value.relabel move name)

/-- The expression with the lines of its tokens moved. -/
def Expr.reline (move : Nat → Nat) (e : Expr) : Expr :=
  e.relabel move (Token.reline move)

/-- Lines that stay where they are. -/
theorem Expr.reline_id (e : Expr) : e.reline id = e := by
  unfold Expr.reline
  induction e with
  | literal value | read name => rfl
  | grouping inner ih => rw [Expr.relabel, ih]
  | unary operator inner ih | assign name inner ih => rw [Expr.relabel, ih]; rfl
  | binary left operator right ihleft ihright | logical left operator right ihleft ihright =>
    rw [Expr.relabel, ihleft, ihright]; rfl

namespace Stmt

mutual

/-- The statement with the lines of its tokens moved. -/
def reline (move : Nat → Nat) : Stmt → Stmt
  | expression e => expression (e.reline move)
  | print e => print (e.reline move)
  | declare name initial => declare (name.reline move) (initial.map (Expr.reline move))
  | block body => block (relineAll move body)
  | ifThen condition yes => ifThen (condition.reline move) (yes.reline move)
  | ifThenElse condition yes no =>
    ifThenElse (condition.reline move) (yes.reline move) (no.reline move)
  | whileLoop condition body => whileLoop (condition.reline move) (body.reline move)

/-- `reline` over a list of statements. -/
def relineAll (move : Nat → Nat) : List Stmt → List Stmt
  | [] => []
  | s :: rest => s.reline move :: relineAll move rest

end

/-- The lines of statements are moved in each. -/
theorem relineAll_eq_map (move : Nat → Nat) (body : List Stmt) :
    relineAll move body = body.map (reline move) := by
  induction body with
  | nil => rfl
  | cons s rest ih => rw [relineAll, ih, List.map_cons]

/-- Lines that are all moved to themselves leave the statement as it is. -/
theorem reline_id (s : Stmt) : s.reline id = s := by
  induction s using Stmt.recData with
  | expression e | print e => rw [reline, Expr.reline_id]
  | declare name initial =>
    rw [reline, show Expr.reline id = id from funext Expr.reline_id, Option.map_id]; rfl
  | block body ih => rw [reline, relineAll_eq_map, List.map_congr_left ih, List.map_id']
  | ifThen condition yes ih | whileLoop condition yes ih => rw [reline, Expr.reline_id, ih]
  | ifThenElse condition yes no ihyes ihno => rw [reline, Expr.reline_id, ihyes, ihno]

/-- Moving the lines of a `for` statement moves those of its parts. -/
theorem reline_forLoop (move : Nat → Nat) (initial : Option Stmt) (condition increment : Option Expr)
    (body : Stmt) :
    (forLoop initial condition increment body).reline move =
      forLoop (initial.map (reline move)) (condition.map (Expr.reline move))
        (increment.map (Expr.reline move)) (body.reline move) := by
  cases initial <;> cases condition <;> cases increment <;> rfl

end Stmt

/-! ## The grammar does not look at lines -/

namespace Grammar

/-- The operator and its operand with the lines of their tokens moved. -/
def Operand.reline (move : Nat → Nat) (o : Operand) : Operand :=
  ⟨o.operator.reline move, o.tokens.map (Token.reline move), o.tree.reline move⟩

/-- The tokens of moved operands are the moved tokens of the operands. -/
theorem Operand.flatMap_span_reline (move : Nat → Nat) (more : List Operand) :
    (more.map (Operand.reline move)).flatMap Operand.span =
      (more.flatMap Operand.span).map (Token.reline move) := by
  rw [List.flatMap_map, List.map_flatMap]
  rfl

/-- Joining operands to a tree from the left, and moving the lines, can be done in either order. -/
theorem Ladder.reline_foldl_join (move : Nat → Nat) (l : Ladder) (more : List Operand) (e : Expr) :
    (more.foldl (fun left o => l.join left o.operator o.tree) e).reline move =
      (more.map (Operand.reline move)).foldl (fun left o => l.join left o.operator o.tree)
        (e.reline move) := by
  induction more generalizing e with
  | nil => rfl
  | cons o more ih =>
    rw [List.foldl_cons, ih]
    cases l <;> rfl

/-- What an expression rule derives, it derives with all lines moved. -/
theorem DerivesExpr.reline {symbol : Symbol} {used : List Token} {e : Expr} (move : Nat → Nat)
    (h : DerivesExpr symbol used e) :
    DerivesExpr symbol (used.map (Token.reline move)) (e.reline move) := by
  induction h with
  | assign hname hequals _ ih => exact .assign hname hequals ih
  | noAssign _ ih => exact .noAssign ih
  | repetition l more _ hoperator _ ihfirst ihmore =>
    rw [List.map_append, ← Operand.flatMap_span_reline, Ladder.reline_foldl_join]
    exact .repetition l _ ihfirst (List.forall_mem_map.2 hoperator) (List.forall_mem_map.2 ihmore)
  | unary hoperator _ ih => exact .unary hoperator ih
  | noUnary _ ih => exact .noUnary ih
  | number h => exact .number h
  | string h => exact .string h
  | trueWord h => exact .trueWord h
  | falseWord h => exact .falseWord h
  | nullWord h => exact .nullWord h
  | read h => exact .read h
  | grouping hleft _ hright ih =>
    rw [List.map_append]
    exact .grouping hleft ih hright

/-- An expression that may be left out stays one with all lines moved. -/
theorem OptionalExpression.reline {used : List Token} {o : Option Expr} (move : Nat → Nat)
    (h : OptionalExpression used o) :
    OptionalExpression (used.map (Token.reline move)) (o.map (Expr.reline move)) := by
  cases h with
  | absent => exact .absent
  | present h => exact .present (h.reline move)

/-- A variable declaration stays one with all lines moved. -/
theorem VarDecl.reline {used : List Token} {s : Stmt} (move : Nat → Nat) (h : VarDecl used s) :
    VarDecl (used.map (Token.reline move)) (s.reline move) := by
  cases h with
  | mk hvar hname hinitial hsemicolon =>
    rw [List.map_append]
    refine .mk hvar hname ?_ hsemicolon
    cases hinitial with
    | absent => exact .absent
    | present hequals h => exact .present hequals (h.reline move)

/-- An expression statement stays one with all lines moved. -/
theorem ExprStmt.reline {used : List Token} {s : Stmt} (move : Nat → Nat) (h : ExprStmt used s) :
    ExprStmt (used.map (Token.reline move)) (s.reline move) := by
  cases h with
  | mk h hsemicolon =>
    rw [List.map_append]
    exact .mk (h.reline move) hsemicolon

/-- The first clause of a for statement stays one with all lines moved. -/
theorem ForInitial.reline {used : List Token} {o : Option Stmt} (move : Nat → Nat)
    (h : ForInitial used o) :
    ForInitial (used.map (Token.reline move)) (o.map (Stmt.reline move)) := by
  cases h with
  | absent h => exact .absent h
  | varDecl h => exact .varDecl (h.reline move)
  | exprStmt h => exact .exprStmt (h.reline move)

/-- Declarations in a row with the lines of their tokens moved. -/
def relineParts (move : Nat → Nat) (parts : List (List Token × Stmt)) : List (List Token × Stmt) :=
  parts.map fun p => (p.1.map (Token.reline move), p.2.reline move)

/-- The tokens of declarations in a row with their lines moved are their tokens, moved. -/
theorem flatMap_fst_relineParts (move : Nat → Nat) (parts : List (List Token × Stmt)) :
    (relineParts move parts).flatMap Prod.fst =
      (parts.flatMap Prod.fst).map (Token.reline move) := by
  rw [relineParts, List.flatMap_map, List.map_flatMap]

/-- The trees of declarations in a row with their lines moved are their trees, moved. -/
theorem map_snd_relineParts (move : Nat → Nat) (parts : List (List Token × Stmt)) :
    (relineParts move parts).map Prod.snd = (parts.map Prod.snd).map (Stmt.reline move) := by
  rw [relineParts, List.map_map, List.map_map]
  rfl

/-- What a statement rule derives, it derives with all lines moved. -/
theorem DerivesStmt.reline {rule : ElseRule} {form : Form} {used : List Token} {s : Stmt}
    (move : Nat → Nat) (h : DerivesStmt rule form used s) :
    DerivesStmt rule form (used.map (Token.reline move)) (s.reline move) := by
  induction h with
  | varDecl h => exact .varDecl (h.reline move)
  | statement _ ih => exact .statement ih
  | exprStmt h => exact .exprStmt (h.reline move)
  | printStmt hword h hsemicolon =>
    rw [List.map_append]
    exact .printStmt hword (h.reline move) hsemicolon
  | block parts hleft _ hright ih =>
    rw [Stmt.reline, Stmt.relineAll_eq_map, List.map_append, List.map_cons,
      ← flatMap_fst_relineParts, ← map_snd_relineParts]
    exact .block _ hleft (List.forall_mem_map.2 ih) hright
  | ifThen hword hleft hcondition hright _ ih =>
    rw [List.map_append]
    exact .ifThen hword hleft (hcondition.reline move) hright ih
  | ifThenElse hword hleft hcondition hright _ hinner hother _ ihyes ihno =>
    rw [List.map_append, List.map_append]
    exact .ifThenElse hword hleft (hcondition.reline move) hright ihyes hinner hother ihno
  | whileStmt hword hleft hcondition hright _ ih =>
    rw [List.map_append]
    exact .whileStmt hword hleft (hcondition.reline move) hright ih
  | forStmt hword hleft hinitial hcondition hsemicolon hincrement hright _ ih =>
    rw [forTree_eq_forLoop, Stmt.reline_forLoop, ← forTree_eq_forLoop, List.map_append, List.map_append,
      List.map_append]
    exact .forStmt hword hleft (hinitial.reline move) (hcondition.reline move) hsemicolon
      (hincrement.reline move) hright ih

/-- A row of declarations with the lines of its tokens moved is one, with the lines in its trees moved. -/
theorem Program.reline {rule : ElseRule} {body : List Token} {trees : List Stmt} (move : Nat → Nat)
    (h : Program rule body trees) :
    Program rule (body.map (Token.reline move)) (trees.map (Stmt.reline move)) := by
  obtain ⟨parts, rfl, rfl, hparts⟩ := h
  exact ⟨relineParts move parts, (flatMap_fst_relineParts move parts).symm,
    (map_snd_relineParts move parts).symm,
    List.forall_mem_map.2 fun p hp => (hparts p hp).reline move⟩

end Grammar

end LoxLang
