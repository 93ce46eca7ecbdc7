import LoxLang.Proofs.Session.Dependence
import LoxLang.Proofs.Session.Units
import LoxLang.Proofs.Token.Joining
import LoxLang.Proofs.Tree.PrefixForm

/-!
# The printed text determines the tree

A tree is read back from its nested list (`Stmt.Legible.ofNested?_nested`), all of it but the lines, which are not
written. A word is read for what it denotes in a source, which tells numbers, reserved words
and names apart. A list is read by its head and by how many items it has: a minus with one item is a sign and with
two a difference. A name that is spelled like a head is a word, not a list, and so in no one's way.

The trees of a source without a fault are legible if there are neither strings nor infinite numbers in it
(`Grammar.DerivesStmt.legible`), and so their texts determine them
(`Source.map_render_program_eq_iff`).
-/

namespace LoxLang

open Grammar Lexical

/-! ## Reading nested lists -/

/-- The token that a word is, on no line. -/
def Token.ofWord (w : String) : Token :=
  ⟨(denoted w.toList).1, w, (denoted w.toList).2, 0⟩

namespace Expr

/-- The expression that a word is. -/
def ofWord (w : String) : Expr :=
  match denoted w.toList with
  | (.number, some (.number x)) => literal (.number x)
  | (.trueWord, _) => literal (.bool true)
  | (.falseWord, _) => literal (.bool false)
  | (.nullWord, _) => literal .null
  | _ => read (Token.ofWord w)

/-- The expression of an operator and one item; a head that is no operator groups. -/
def ofUnary (operator : Token) (inner : Expr) : Expr :=
  if operator.kind ∈ unaryKinds then unary operator inner else grouping inner

/-- The expression of an operator and two items; a head of neither sort of operator assigns. -/
def ofBinary? (operator : Token) (left right : Expr) : Option Expr :=
  if operator.kind ∈ binaryKinds then some (binary left operator right)
  else if operator.kind ∈ logicalKinds then some (logical left operator right)
  else
    match left with
    | read name => some (assign name right)
    | _ => none

/-- The expression of a list, by its head and the expressions behind it. -/
def ofParts? (head : String) : List Expr → Option Expr
  | [inner] => some (ofUnary (Token.ofWord head) inner)
  | [left, right] => ofBinary? (Token.ofWord head) left right
  | _ => none

mutual

/-- The expression of a nested list. -/
def ofNested? : Nested → Option Expr
  | .word w => some (ofWord w)
  | .list head items => (ofNestedAll? items).bind (ofParts? head)

/-- The expressions of nested lists. -/
def ofNestedAll? : List Nested → Option (List Expr)
  | [] => some []
  | n :: rest => (ofNested? n).bind fun e => (ofNestedAll? rest).map (e :: ·)

end

end Expr

namespace Stmt

mutual

/-- The statement of a nested list. -/
def ofNested? : Nested → Option Stmt
  | .list "expr" [e] => (Expr.ofNested? e).map expression
  | .list "print" [e] => (Expr.ofNested? e).map print
  | .list "var" [.word name] => some (declare (Token.ofWord name) none)
  | .list "var" [.word name, e] => (Expr.ofNested? e).map fun e => declare (Token.ofWord name) (some e)
  | .list "block" items => (ofNestedAll? items).map block
  | .list "if" (condition :: branches) =>
    match Expr.ofNested? condition, ofNestedAll? branches with
    | some condition, some [yes] => some (ifThen condition yes)
    | some condition, some [yes, no] => some (ifThenElse condition yes no)
    | _, _ => none
  | .list "while" (condition :: rounds) =>
    match Expr.ofNested? condition, ofNestedAll? rounds with
    | some condition, some [body] => some (whileLoop condition body)
    | _, _ => none
  | _ => none

/-- The statements of nested lists. -/
def ofNestedAll? : List Nested → Option (List Stmt)
  | [] => some []
  | n :: rest => (ofNested? n).bind fun s => (ofNestedAll? rest).map (s :: ·)

end

end Stmt

/-! ## Trees are read back -/

/-- A token that is known from its lexeme is read back from it, on no line. -/
theorem Token.Denoted.ofWord_lexeme {t : Token} (h : t.Denoted) : Token.ofWord t.lexeme = t.reline noLine := by
  rw [Token.ofWord, Denotes.eq_denoted h]
  rfl

/-- A legible value is read back from the word it is written as. -/
theorem Value.Legible.ofWord_renderWith {v : Value} (h : v.Legible) :
    Expr.ofWord (v.renderWith Expr.numberStyle) = .literal v := by
  cases h with
  | number h =>
    have hdenoted := (NumberStyle.denotes_render NumberStyle.readable_expr h).eq_denoted
    rw [Expr.ofWord, Value.renderWith, hdenoted]
  | bool b => cases b <;> rfl
  | null => rfl

namespace Expr

/-- A list of a head and one item is a unary expression. -/
theorem ofNested?_list_one {head : String} {n : Nested} {e : Expr} (h : ofNested? n = some e) :
    ofNested? (.list head [n]) = some (ofUnary (Token.ofWord head) e) := by
  simp [ofNested?, ofNestedAll?, h, ofParts?]

/-- A list of a head and two items is a binary expression. -/
theorem ofNested?_list_two {head : String} {n n' : Nested} {e e' : Expr} (h : ofNested? n = some e)
    (h' : ofNested? n' = some e') :
    ofNested? (.list head [n, n']) = ofBinary? (Token.ofWord head) e e' := by
  simp [ofNested?, ofNestedAll?, h, h', ofParts?]

/-- A name alone is read as the variable. -/
theorem ofNested?_name {t : Token} (hkind : t.kind = .identifier) (h : t.Denoted) :
    ofNested? (.word t.lexeme) = some (read (t.reline noLine)) := by
  have hdenoted : denoted t.lexeme.toList = (.identifier, t.literal) := hkind ▸ Denotes.eq_denoted h
  rw [ofNested?, ofWord, hdenoted, h.ofWord_lexeme]

/-- An expression is read back from its nested list, all of it but the lines. -/
theorem Legible.ofNested?_nested {e : Expr} (h : e.Legible) :
    ofNested? e.nested = some (e.reline noLine) := by
  induction h with
  | literal h => exact congrArg some h.ofWord_renderWith
  -- That the heads of groups and assignments are no operators of the other sorts is computed.
  | grouping _ ih => exact ofNested?_list_one ih
  | unary hkind hoperator _ ih =>
    rw [nested, ofNested?_list_one ih, hoperator.ofWord_lexeme]
    exact congrArg some (if_pos hkind)
  | binary hkind hoperator _ _ ihleft ihright =>
    rw [nested, ofNested?_list_two ihleft ihright, hoperator.ofWord_lexeme]
    exact if_pos hkind
  | @logical _ operator _ hkind hoperator _ _ ihleft ihright =>
    have hdisjoint : ∀ kind ∈ logicalKinds, kind ∉ binaryKinds := by decide
    rw [nested, ofNested?_list_two ihleft ihright, hoperator.ofWord_lexeme]
    exact (if_neg (hdisjoint _ hkind)).trans (if_pos hkind)
  | read hkind hname => exact ofNested?_name hkind hname
  | assign hkind hname _ ih => exact ofNested?_list_two (ofNested?_name hkind hname) ih

end Expr

namespace Stmt

/-- The nested lists of statements are read back one by one. -/
theorem ofNestedAll?_nested {body : List Stmt}
    (h : ∀ s ∈ body, ofNested? s.nested = some (s.reline noLine)) :
    ofNestedAll? (nestedAll body) = some (relineAll noLine body) := by
  induction body with
  | nil => rfl
  | cons s body ih =>
    obtain ⟨hs, hbody⟩ := List.forall_mem_cons.1 h
    rw [nestedAll, ofNestedAll?, hs, ih hbody]
    rfl

/-- A statement is read back from its nested list, all of it but the lines. -/
theorem Legible.ofNested?_nested {s : Stmt} (h : s.Legible) :
    ofNested? s.nested = some (s.reline noLine) := by
  induction h with
  | expression h | print h =>
    rw [nested, ofNested?, h.ofNested?_nested]
    rfl
  | @declare name initial hkind hname h =>
    cases initial with
    | none =>
      rw [nested, ofNested?, hname.ofWord_lexeme]
      rfl
    | some e =>
      rw [nested, ofNested?, hname.ofWord_lexeme, (h e rfl).ofNested?_nested]
      rfl
  | block _ ih =>
    rw [nested, ofNested?, ofNestedAll?_nested ih]
    rfl
  | @ifThen condition yes h _ ih =>
    have hbranches : ofNestedAll? [yes.nested] = some [yes.reline noLine] :=
      @ofNestedAll?_nested [yes] (List.forall_mem_singleton.2 ih)
    simp only [nested, ofNested?, h.ofNested?_nested, hbranches]
    rfl
  | @ifThenElse condition yes no h _ _ ihyes ihno =>
    have hbranches : ofNestedAll? [yes.nested, no.nested] = some [yes.reline noLine, no.reline noLine] :=
      @ofNestedAll?_nested [yes, no] (List.forall_mem_cons.2 ⟨ihyes, List.forall_mem_singleton.2 ihno⟩)
    simp only [nested, ofNested?, h.ofNested?_nested, hbranches]
    rfl
  | @whileLoop condition body h _ ih =>
    have hrounds : ofNestedAll? [body.nested] = some [body.reline noLine] :=
      @ofNestedAll?_nested [body] (List.forall_mem_singleton.2 ih)
    simp only [nested, ofNested?, h.ofNested?_nested, hrounds]
    rfl

/-- Legible statements have the same text exactly if they are the same but for lines. -/
theorem Legible.render_eq_iff {s s' : Stmt} (h : s.Legible) (h' : s'.Legible) :
    s.render = s'.render ↔ s.reline noLine = s'.reline noLine := by
  constructor
  · intro hrender
    have hnested := nested_eq_of_render h h' hrender
    have hread := h.ofNested?_nested
    rw [hnested, h'.ofNested?_nested] at hread
    exact (Option.some.inj hread).symm
  · intro hlines
    rw [← s.render_reline noLine, hlines, s'.render_reline noLine]

end Stmt

/-! ## The trees of a source -/

/-- A number that a lexeme denotes is what a decimal is read as. -/
theorem Lexical.Denotes.exists_decimal {w : List Char} {kind : Kind} {x : Float}
    (h : Denotes w kind (some (.number x))) : ∃ d : Decimal, x = d.toFloat := by
  cases h with
  | number _ _ => exact ⟨_, rfl⟩

/-- Whether the literal is a finite number. -/
def Literal.isFinite : Literal → Bool
  | number x => x.isFinite
  | string _ => false

/-- The token is known from its lexeme, and its literal, if it has one, is a finite number. -/
structure Token.Legible (t : Token) : Prop where
  denoted : t.Denoted
  finite : t.literal.all Literal.isFinite

/-- The value of such a token can be read from its text. -/
theorem Token.Legible.literalValue {t : Token} (h : t.Legible) : (Parser.literalValue t).Legible := by
  obtain ⟨hdenoted, hfinite⟩ := h
  rw [Token.Denoted] at hdenoted
  rw [Parser.literalValue]
  cases hliteral : t.literal with
  | none => exact .null
  | some literal =>
    rw [hliteral] at hdenoted hfinite
    cases literal with
    | number x =>
      obtain ⟨d, rfl⟩ := hdenoted.exists_decimal
      exact .number (Decimal.of_toFloat hfinite)
    | string => cases hfinite

namespace Grammar

/-- An operator of a level on legible operands is legible. -/
theorem Ladder.legible_join {l : Ladder} {left right : Expr} {operator : Token}
    (hkind : operator.kind ∈ l.operators) (hoperator : operator.Denoted) (hleft : left.Legible)
    (hright : right.Legible) : (l.join left operator right).Legible := by
  have hlogical : l.operators ⊆ logicalKinds → (Expr.logical left operator right).Legible :=
    fun hkinds => .logical (hkinds hkind) hoperator hleft hright
  have hbinary : l.operators ⊆ binaryKinds → (Expr.binary left operator right).Legible :=
    fun hkinds => .binary (hkinds hkind) hoperator hleft hright
  cases l with
  | logicOr | logicAnd => exact hlogical (by decide)
  | equality | comparison | term | factor => exact hbinary (by decide)

/-- A fold over operators on legible operands is legible. -/
theorem Ladder.legible_foldl_join {l : Ladder} {more : List Operand} {e : Expr} (he : e.Legible)
    (hkind : ∀ o ∈ more, o.operator.kind ∈ l.operators) (hoperator : ∀ o ∈ more, o.operator.Denoted)
    (hmore : ∀ o ∈ more, o.tree.Legible) :
    (more.foldl (fun left o => l.join left o.operator o.tree) e).Legible := by
  induction more generalizing e with
  | nil => exact he
  | cons o more ih =>
    obtain ⟨hkind, hkinds⟩ := List.forall_mem_cons.1 hkind
    obtain ⟨hoperator, hoperators⟩ := List.forall_mem_cons.1 hoperator
    obtain ⟨htree, hmore⟩ := List.forall_mem_cons.1 hmore
    exact ih (l.legible_join hkind hoperator he htree) hkinds hoperators hmore

/-- An expression that is derived from legible tokens is legible. -/
theorem DerivesExpr.legible {symbol : Symbol} {used : List Token} {e : Expr}
    (h : DerivesExpr symbol used e) (hused : ∀ t ∈ used, t.Legible) : e.Legible := by
  induction h with
  | assign hname _ _ ih =>
    obtain ⟨hname', hused⟩ := List.forall_mem_cons.1 hused
    exact .assign hname hname'.denoted (ih (List.forall_mem_cons.1 hused).2)
  | noAssign _ ih | noUnary _ ih => exact ih hused
  | repetition l more _ hoperator _ ihfirst ihmore =>
    obtain ⟨hfirst, hmore⟩ := List.forall_mem_append.1 hused
    have hspan : ∀ o ∈ more, ∀ t ∈ o.span, t.Legible :=
      fun o ho t ht => hmore t (List.mem_flatMap.2 ⟨o, ho, ht⟩)
    exact Ladder.legible_foldl_join (ihfirst hfirst) hoperator
      (fun o ho => (hspan o ho _ List.mem_cons_self).denoted)
      (fun o ho => ihmore o ho fun t ht => hspan o ho t (List.mem_cons_of_mem _ ht))
  | unary hoperator _ ih =>
    obtain ⟨hoperator', hused⟩ := List.forall_mem_cons.1 hused
    exact .unary hoperator hoperator'.denoted (ih hused)
  | number | string => exact .literal (hused _ List.mem_cons_self).literalValue
  | trueWord | falseWord => exact .literal (.bool _)
  | nullWord => exact .literal .null
  | read h => exact .read h (hused _ List.mem_cons_self).denoted
  | grouping _ _ _ ih => exact .grouping (ih fun t ht => hused t (by simp [ht]))

/-- An expression that may be missing is legible if its tokens are. -/
theorem OptionalExpression.legible {used : List Token} {o : Option Expr}
    (h : OptionalExpression used o) (hused : ∀ t ∈ used, t.Legible) : ∀ e ∈ o, e.Legible := by
  rintro e rfl
  cases h with
  | present h => exact h.legible hused

/-- A declaration of a variable is legible if its tokens are. -/
theorem VarDecl.legible {used : List Token} {s : Stmt} (h : VarDecl used s)
    (hused : ∀ t ∈ used, t.Legible) : s.Legible := by
  cases h with
  | mk _ hname h _ =>
    refine .declare hname (hused _ (by simp)).denoted ?_
    rintro e rfl
    cases h with
    | present _ h => exact h.legible fun t ht => hused t (by simp [ht])

/-- An expression statement is legible if its tokens are. -/
theorem ExprStmt.legible {used : List Token} {s : Stmt} (h : ExprStmt used s)
    (hused : ∀ t ∈ used, t.Legible) : s.Legible := by
  cases h with
  | mk h _ => exact .expression (h.legible (List.forall_mem_append.1 hused).1)

/-- The first clause of a `for` statement is legible if its tokens are. -/
theorem ForInitial.legible {used : List Token} {o : Option Stmt} (h : ForInitial used o)
    (hused : ∀ t ∈ used, t.Legible) : ∀ s ∈ o, s.Legible := by
  rintro s rfl
  cases h with
  | varDecl h => exact h.legible hused
  | exprStmt h => exact h.legible hused

/-- The tree of a declaration or a statement is legible if its tokens are. -/
theorem DerivesStmt.legible {rule : ElseRule} {form : Form} {used : List Token} {s : Stmt}
    (h : DerivesStmt rule form used s) (hused : ∀ t ∈ used, t.Legible) : s.Legible := by
  induction h with
  | varDecl h => exact h.legible hused
  | statement _ ih => exact ih hused
  | exprStmt h => exact h.legible hused
  | printStmt _ h _ => exact .print (h.legible fun t ht => hused t (by simp [ht]))
  | block parts _ _ _ ih =>
    refine .block (List.forall_mem_map.2 fun p hp => ih p hp fun t ht => hused t ?_)
    have hmem : t ∈ parts.flatMap Prod.fst := List.mem_flatMap.2 ⟨p, hp, ht⟩
    simp [hmem]
  | ifThen _ _ hcondition _ _ ih =>
    exact .ifThen (hcondition.legible fun t ht => hused t (by simp [ht]))
      (ih fun t ht => hused t (by simp [ht]))
  | ifThenElse _ _ hcondition _ _ _ _ _ ihyes ihno =>
    exact .ifThenElse (hcondition.legible fun t ht => hused t (by simp [ht]))
      (ihyes fun t ht => hused t (by simp [ht])) (ihno fun t ht => hused t (by simp [ht]))
  | whileStmt _ _ hcondition _ _ ih =>
    exact .whileLoop (hcondition.legible fun t ht => hused t (by simp [ht]))
      (ih fun t ht => hused t (by simp [ht]))
  | forStmt _ _ hinitial hcondition _ hincrement _ _ ih =>
    rw [forTree_eq_forLoop]
    exact Stmt.forLoop_of_parts .expression .block .whileLoop (.literal (.bool true))
      (hinitial.legible fun t ht => hused t (by simp [ht]))
      (hcondition.legible fun t ht => hused t (by simp [ht]))
      (hincrement.legible fun t ht => hused t (by simp [ht])) (ih fun t ht => hused t (by simp [ht]))

end Grammar

namespace Source

/-- The trees of a source without a fault are legible if all its literals are finite numbers. -/
theorem legible_of_mem_program {source : String} (h : (program source).2 = [])
    (hfinite : ∀ t ∈ tokens source, t.literal.all Literal.isFinite) :
    ∀ s ∈ (program source).1, s.Legible := by
  obtain ⟨-, parts, hbody, htrees, hparts⟩ := (program_eq_iff source (program source).1).1 (Prod.ext rfl h)
  rw [htrees]
  refine List.forall_mem_map.2 fun p hp => (hparts p hp).legible fun t ht => ?_
  have hmem : t ∈ body source := hbody ▸ List.mem_flatMap.2 ⟨p, hp, ht⟩
  exact ⟨denotes_of_mem_body hmem, hfinite t (tokens_eq source ▸ List.mem_append_left _ hmem)⟩

end Source

/-- Legible statements have the same texts, one by one, exactly if they are the same but for lines. -/
theorem Stmt.map_render_eq_iff {trees trees' : List Stmt} (h : ∀ s ∈ trees, s.Legible)
    (h' : ∀ s ∈ trees', s.Legible) :
    trees.map render = trees'.map render ↔ trees.map (reline noLine) = trees'.map (reline noLine) := by
  induction trees generalizing trees' with
  | nil => rw [List.map_nil, List.map_nil, List.nil_eq, List.nil_eq, List.map_eq_nil_iff, List.map_eq_nil_iff]
  | cons s trees ih =>
    cases trees' with
    | nil => exact ⟨nofun, nofun⟩
    | cons s' trees' =>
      obtain ⟨hs, htrees⟩ := List.forall_mem_cons.1 h
      obtain ⟨hs', htrees'⟩ := List.forall_mem_cons.1 h'
      simp only [List.map_cons, List.cons.injEq, hs.render_eq_iff hs', ih htrees htrees']

namespace Source

/-- The printed text determines the tree. Of two sources that are read without a fault, and in which every literal
is a finite number, so that there is neither a string in them nor a number that is too large: the trees have the
same texts, one by one, exactly if they are the same but for the lines of their tokens. -/
theorem map_render_program_eq_iff {source source' : String} (h : (program source).2 = [])
    (h' : (program source').2 = []) (hfinite : ∀ t ∈ tokens source, t.literal.all Literal.isFinite)
    (hfinite' : ∀ t ∈ tokens source', t.literal.all Literal.isFinite) :
    (program source).1.map Stmt.render = (program source').1.map Stmt.render ↔
      (program source).1.map (Stmt.reline noLine) = (program source').1.map (Stmt.reline noLine) :=
  Stmt.map_render_eq_iff (legible_of_mem_program h hfinite) (legible_of_mem_program h' hfinite')

/-- A loop without clauses, on one line. -/
def endlessFor : String :=
  "for (;;) \x7bvar group = -1; block = group - .50;\x7d"

/-- The loop that it stands for, on several lines and with other digits. -/
def endlessWhile : String :=
  "while (true)\n\x7b\nvar group = -01.0;\nblock = group - 0.5;\n\x7d"

/-- Both have one text and one tree. Of the minus signs in it one is a sign and one a difference, and two names are
spelled like heads. -/
theorem map_render_program_eq_iff_endless :
    (program endlessFor).2 = [] ∧ (program endlessWhile).2 = [] ∧
      (program endlessFor).1.map Stmt.render =
        ["(while true (block (var group (- 1.0)) (expr (= block (- group 0.5)))))"] ∧
      (program endlessFor).1.map (Stmt.reline noLine) = (program endlessWhile).1.map (Stmt.reline noLine) := by
  have hfor : (program endlessFor).2 = [] := by decide +kernel
  have hwhile : (program endlessWhile).2 = [] := by decide +kernel
  have hiff := map_render_program_eq_iff hfor hwhile (by decide +kernel) (by decide +kernel)
  exact ⟨hfor, hwhile, by decide +kernel, hiff.1 (by decide +kernel)⟩

end Source

end LoxLang
