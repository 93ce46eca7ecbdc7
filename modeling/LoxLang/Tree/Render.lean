import LoxLang.Tree.Basic

/-!
# Prefix texts and JSON documents of trees

`Expr.render` and `Stmt.render` write a tree as nested lists in round brackets, operator or head word
first; `toJson` gives the document of a tree.
-/

namespace LoxLang

/-- Words between round brackets, separated by blanks. -/
def bracket (words : List String) : String :=
  "(" ++ String.intercalate " " words ++ ")"

/-- Literal numbers in trees: whole ones keep a fraction part. -/
def Expr.numberStyle : NumberStyle :=
  { Value.numberStyle with wholeSuffix := ".0" }

/-- The text of an expression. -/
def Expr.render : Expr → String
  | literal value => value.renderWith numberStyle
  | grouping inner => bracket ["group", inner.render]
  | unary operator right => bracket [operator.lexeme, right.render]
  | binary left operator right => bracket [operator.lexeme, left.render, right.render]
  | logical left operator right => bracket [operator.lexeme, left.render, right.render]
  | read name => name.lexeme
  | assign name value => bracket ["=", name.lexeme, value.render]

/-- The document of an expression. -/
def Expr.toJson : Expr → Json
  | literal value => .object [("Literal", value.toJson)]
  | grouping inner => .object [("Grouping", inner.toJson)]
  | unary operator right =>
    .object [("Unary", .object [("operator", operator.toJson), ("right", right.toJson)])]
  | binary left operator right =>
    .object [("Binary", .object
      [("left", left.toJson), ("operator", operator.toJson), ("right", right.toJson)])]
  | logical left operator right =>
    .object [("Logical", .object
      [("left", left.toJson), ("operator", operator.toJson), ("right", right.toJson)])]
  | read name => .object [("Variable", name.toJson)]
  | assign name value =>
    .object [("Assign", .object [("name", name.toJson), ("value", value.toJson)])]

namespace Stmt

mutual

/-- The text of a statement. -/
def render : Stmt → String
  | expression e => bracket ["expr", e.render]
  | print e => bracket ["print", e.render]
  | declare name none => bracket ["var", name.lexeme]
  | declare name (some e) => bracket ["var", name.lexeme, e.render]
  | block body => bracket ("block" :: renderAll body)
  | ifThen condition yes => bracket ["if", condition.render, yes.render]
  | ifThenElse condition yes no => bracket ["if", condition.render, yes.render, no.render]
  | whileLoop condition body => bracket ["while", condition.render, body.render]

/-- The texts of a list of statements. -/
def renderAll : List Stmt → List String
  | [] => []
  | s :: rest => s.render :: renderAll rest

end

/-- A list of statements is rendered one by one. -/
theorem renderAll_eq_map (body : List Stmt) : renderAll body = body.map render := by
  induction body with
  | nil => rfl
  | cons s rest ih => simp [renderAll, ih]

mutual

/-- The document of a statement; a missing alternative is null. -/
def toJson : Stmt → Json
  | expression e => .object [("Expression", e.toJson)]
  | print e => .object [("Print", e.toJson)]
  | declare name initial =>
    .object [("Var", .object
      [("name", name.toJson), ("initializer", (initial.map Expr.toJson).getD .null)])]
  | block body => .object [("Block", .array (toJsonAll body))]
  | ifThen condition yes =>
    .object [("If", .object
      [("condition", condition.toJson), ("then_branch", yes.toJson), ("else_branch", .null)])]
  | ifThenElse condition yes no =>
    .object [("If", .object
      [("condition", condition.toJson), ("then_branch", yes.toJson), ("else_branch", no.toJson)])]
  | whileLoop condition body =>
    .object [("While", .object [("condition", condition.toJson), ("body", body.toJson)])]

/-- The documents of a list of statements. -/
def toJsonAll : List Stmt → List Json
  | [] => []
  | s :: rest => s.toJson :: toJsonAll rest

end

end Stmt

end LoxLang
