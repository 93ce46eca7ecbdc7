import LoxLang.Proofs.Number.Text
import LoxLang.Proofs.Run.Faults
import LoxLang.Proofs.Tree.Tokens
import LoxLang.Tree.Render

/-!
# The prefix form of a tree

The text of a tree is flat: words, blanks and brackets. It is that of a nested list (`Stmt.toList_render`), and of
no other nested list (`Nested.text_inj`). Words have neither blanks nor brackets in them, so that each ends where
the next blank or bracket stands, and a list ends with the bracket that closes it; this is shown with any text
behind both (`Nested.IsSolid.told`), so that a list can be taken apart item by item.

The words of a tree are such words if the tree is *legible*: its operators and names are tokens that are known
from their lexemes, and its literals are no strings, nor numbers that are infinite or have a sign.
-/

namespace LoxLang

open Lexical Piece

/-! ## Nested lists of words -/

/-- A word, or a list of which the first item is a word. -/
inductive Nested where
  | word (w : String)
  | list (head : String) (items : List Nested)

/-- The characters at which a word ends. -/
def delimiters : List Char := [' ', '(', ')']

/-- A word with characters in it, none of which ends it. -/
def Solid (w : String) : Prop :=
  w.toList ≠ [] ∧ w.toList.all (· ∉ delimiters)

/-- Words are finite, so it can be checked that one is solid. -/
instance (w : String) : Decidable (Solid w) :=
  inferInstanceAs (Decidable (_ ∧ _))

/-- The text is over, or a blank or a closing bracket follows. -/
def Ends (rest : List Char) : Prop :=
  ∀ c ∈ rest.head?, c = ' ' ∨ c = ')'

namespace Nested

mutual

/-- The text of a nested list. -/
def text : Nested → List Char
  | word w => w.toList
  | list head items => '(' :: (head.toList ++ (textAll items ++ [')']))

/-- The texts of items, a blank in front of each. -/
def textAll : List Nested → List Char
  | [] => []
  | n :: rest => ' ' :: (n.text ++ textAll rest)

end

/-- All words are solid. -/
inductive IsSolid : Nested → Prop where
  | word {w : String} (h : Solid w) : IsSolid (.word w)
  | list {head : String} {items : List Nested} (hhead : Solid head)
      (hitems : ∀ n ∈ items, IsSolid n) : IsSolid (.list head items)

/-- What follows a word is not part of it. -/
theorem takeWhile_append {w : String} (hw : Solid w) {rest : List Char} (hrest : Ends rest) :
    (w.toList ++ rest).takeWhile (· ∉ delimiters) = w.toList := by
  rw [List.takeWhile_append_of_pos (List.all_eq_true.1 hw.2)]
  cases rest with
  | nil => simp
  | cons c rest =>
    have hc : c ∈ delimiters := by
      rcases hrest c rfl with rfl | rfl <;> decide
    simp [hc]

/-- A word and what follows it can be told from the text of both. -/
theorem solid_append_inj {w w' : String} (hw : Solid w) (hw' : Solid w') {rest rest' : List Char}
    (hrest : Ends rest) (hrest' : Ends rest') (h : w.toList ++ rest = w'.toList ++ rest') :
    w = w' ∧ rest = rest' := by
  have hwords : w.toList = w'.toList := by
    rw [← takeWhile_append hw hrest, h, takeWhile_append hw' hrest']
  rw [hwords] at h
  exact ⟨String.toList_inj.1 hwords, List.append_cancel_left h⟩

/-- A word does not begin with a bracket. -/
theorem solid_append_ne {w : String} (hw : Solid w) (rest text : List Char) :
    w.toList ++ rest ≠ '(' :: text := by
  obtain ⟨hne, hall⟩ := hw
  cases hcs : w.toList with
  | nil => exact absurd hcs hne
  | cons c cs =>
    rintro ⟨⟩
    rw [hcs] at hall
    cases hall

/-- Behind the head of a list stands a blank or its closing bracket, so the head is over there. -/
theorem ends_textAll (items : List Nested) (rest : List Char) : Ends (textAll items ++ ')' :: rest) := by
  cases items with
  | nil =>
    rintro _ ⟨⟩
    exact .inr rfl
  | cons n items =>
    rintro _ ⟨⟩
    exact .inl rfl

/-- The nested list and what follows it can be told from the text of both. -/
def Told (n : Nested) : Prop :=
  ∀ {n' : Nested} {rest rest' : List Char}, n'.IsSolid → Ends rest → Ends rest' →
    n.text ++ rest = n'.text ++ rest' → n = n' ∧ rest = rest'

/-- So can the items of a list and what follows its bracket, if each item can. -/
theorem textAll_append_inj {items items' : List Nested} (hitems : ∀ n ∈ items, n.Told)
    (hitems' : ∀ n ∈ items', n.IsSolid) {rest rest' : List Char}
    (h : textAll items ++ ')' :: rest = textAll items' ++ ')' :: rest') : items = items' ∧ rest = rest' := by
  induction items generalizing items' with
  | nil =>
    cases items' with
    | nil => exact ⟨rfl, (List.cons.inj h).2⟩
    | cons n' items' => cases h
  | cons n items ih =>
    cases items' with
    | nil => cases h
    | cons n' items' =>
      obtain ⟨hn, hothers⟩ := List.forall_mem_cons.1 hitems
      obtain ⟨hn', hothers'⟩ := List.forall_mem_cons.1 hitems'
      simp only [textAll, List.cons_append, List.append_assoc, List.cons.injEq, true_and] at h
      obtain ⟨rfl, hbehind⟩ := hn hn' (ends_textAll items rest) (ends_textAll items' rest') h
      obtain ⟨rfl, hrest⟩ := ih hothers hothers' hbehind
      exact ⟨rfl, hrest⟩

/-- A word ends where a blank or a bracket stands, and a list ends with the bracket that closes it. -/
theorem IsSolid.told {n : Nested} (hn : n.IsSolid) : n.Told := by
  induction hn with
  | word hw =>
    intro n' rest rest' hn' hrest hrest' h
    cases hn' with
    | word hw' =>
      obtain ⟨rfl, hrest⟩ := solid_append_inj hw hw' hrest hrest' h
      exact ⟨rfl, hrest⟩
    | list => exact absurd h (solid_append_ne hw _ _)
  | list hhead _ ih =>
    -- What stands behind the closing bracket may be anything: the bracket ends the last item.
    intro n' rest rest' hn' _ _ h
    cases hn' with
    | word hw' => exact absurd h.symm (solid_append_ne hw' _ _)
    | list hhead' hitems' =>
      simp only [text, List.cons_append, List.append_assoc, List.nil_append, List.cons.injEq, true_and] at h
      obtain ⟨rfl, hbehind⟩ := solid_append_inj hhead hhead' (ends_textAll _ _) (ends_textAll _ _) h
      obtain ⟨rfl, hrest⟩ := textAll_append_inj ih hitems' hbehind
      exact ⟨rfl, hrest⟩

/-- A text is that of at most one nested list. -/
theorem text_inj {n n' : Nested} (hn : n.IsSolid) (hn' : n'.IsSolid) (h : n.text = n'.text) : n = n' := by
  have hend : Ends [] := by intro c hc; cases hc
  exact (hn.told hn' hend hend (congrArg (· ++ []) h)).1

end Nested

/-! ## Trees as nested lists -/

/-- The nested list of an expression. -/
def Expr.nested : Expr → Nested
  | literal value => .word (value.renderWith numberStyle)
  | grouping inner => .list "group" [inner.nested]
  | unary operator right => .list operator.lexeme [right.nested]
  | binary left operator right | logical left operator right =>
    .list operator.lexeme [left.nested, right.nested]
  | read name => .word name.lexeme
  | assign name value => .list "=" [.word name.lexeme, value.nested]

namespace Stmt

mutual

/-- The nested list of a statement. -/
def nested : Stmt → Nested
  | expression e => .list "expr" [e.nested]
  | print e => .list "print" [e.nested]
  | declare name none => .list "var" [.word name.lexeme]
  | declare name (some e) => .list "var" [.word name.lexeme, e.nested]
  | block body => .list "block" (nestedAll body)
  | ifThen condition yes => .list "if" [condition.nested, yes.nested]
  | ifThenElse condition yes no => .list "if" [condition.nested, yes.nested, no.nested]
  | whileLoop condition body => .list "while" [condition.nested, body.nested]

/-- `nested` over a list of statements. -/
def nestedAll : List Stmt → List Nested
  | [] => []
  | s :: rest => s.nested :: nestedAll rest

end

/-- The nested lists of a block are those of its statements. -/
theorem nestedAll_eq_map (body : List Stmt) : nestedAll body = body.map nested := by
  induction body with
  | nil => rfl
  | cons s rest ih => rw [nestedAll, ih, List.map_cons]

end Stmt

/-- Items behind a first word, apart by blanks. -/
theorem Nested.intercalate_text (first : List Char) (items : List Nested) :
    [' '].intercalate (first :: items.map text) = first ++ textAll items := by
  induction items generalizing first with
  | nil => simp [textAll]
  | cons n items ih =>
    rw [List.map_cons, List.intercalate_cons_cons, ih, textAll, List.append_assoc, List.singleton_append]

/-- Words between brackets are the text of a list if each is the text of an item. -/
theorem toList_bracket (head : String) {words : List String} {items : List Nested}
    (h : words.map String.toList = items.map Nested.text) :
    (bracket (head :: words)).toList = (Nested.list head items).text := by
  have hwords : (" ".intercalate (head :: words)).toList = head.toList ++ Nested.textAll items := by
    rw [String.toList_intercalate, List.map_cons, h]
    exact Nested.intercalate_text head.toList items
  rw [bracket, String.toList_append, String.toList_append, hwords, List.append_assoc, List.append_assoc]
  rfl

/-- The prefix text of an expression is the text of its nested list. -/
theorem Expr.toList_render (e : Expr) : e.render.toList = e.nested.text := by
  induction e with
  | literal | read => rfl
  | grouping _ ih | unary _ _ ih => exact toList_bracket _ (by simp [ih])
  | binary _ _ _ ihleft ihright | logical _ _ _ ihleft ihright => exact toList_bracket _ (by simp [ihleft, ihright])
  | assign _ _ ih => exact toList_bracket _ (by simp [ih, Nested.text])

/-- The prefix text of a statement is the text of its nested list. -/
theorem Stmt.toList_render (s : Stmt) : s.render.toList = s.nested.text := by
  induction s using Stmt.recData with
  | expression e | print e => exact toList_bracket _ (by simp [e.toList_render])
  | declare name initial =>
    cases initial with
    | none => exact toList_bracket _ rfl
    | some e => exact toList_bracket _ (by simp [e.toList_render, Nested.text])
  | block body ih =>
    refine toList_bracket _ ?_
    rw [renderAll_eq_map, nestedAll_eq_map, List.map_map, List.map_map]
    exact List.map_congr_left ih
  | ifThen condition yes ih | whileLoop condition yes ih =>
    exact toList_bracket _ (by simp [condition.toList_render, ih])
  | ifThenElse condition yes no ihyes ihno =>
    exact toList_bracket _ (by simp [condition.toList_render, ihyes, ihno])

/-! Lines are not written. -/

/-- Moved lines do not show in the prefix text of an expression. -/
theorem Expr.render_reline (move : Nat → Nat) (e : Expr) : (e.reline move).render = e.render := by
  unfold Expr.reline
  induction e with
  | literal | read => rfl
  | grouping _ ih | unary _ _ ih | assign _ _ ih => simp only [relabel, render, ih, Token.reline]
  | binary _ _ _ ihleft ihright | logical _ _ _ ihleft ihright =>
    simp only [relabel, render, ihleft, ihright, Token.reline]

/-- Moved lines do not show in the prefix text of a statement. -/
theorem Stmt.render_reline (move : Nat → Nat) (s : Stmt) : (s.reline move).render = s.render := by
  induction s using Stmt.recData with
  | expression e | print e => rw [reline, render, e.render_reline, render]
  | declare name initial =>
    cases initial with
    | none => rfl
    | some e => rw [reline, Option.map_some, render, e.render_reline, render]; rfl
  | block body ih =>
    rw [reline, render, render, renderAll_eq_map, relineAll_eq_map, renderAll_eq_map, List.map_map]
    exact congrArg (bracket ∘ List.cons "block") (List.map_congr_left ih)
  | ifThen condition yes ih | whileLoop condition yes ih =>
    rw [reline, render, condition.render_reline, ih, render]
  | ifThenElse condition yes no ihyes ihno =>
    rw [reline, render, condition.render_reline, ihyes, ihno, render]

/-! ## Legible trees -/

/-- The token is known from its lexeme. -/
def Token.Denoted (t : Token) : Prop :=
  Denotes t.lexeme.toList t.kind t.literal

/-- The literals that have a text of their own: finite numbers without a sign, truth values and null. -/
inductive Value.Legible : Value → Prop where
  | number {x : Float} {rank : Nat} (h : NumberClass.of x = .finite false rank) : Legible (.number x)
  | bool (b : Bool) : Legible (.bool b)
  | null : Legible .null

/-- Operators and names are known from their lexemes, and literals have texts of their own. -/
inductive Expr.Legible : Expr → Prop where
  | literal {value : Value} (h : value.Legible) : Legible (.literal value)
  | grouping {inner : Expr} (h : Legible inner) : Legible (.grouping inner)
  | unary {operator : Token} {right : Expr} (hkind : operator.kind ∈ unaryKinds)
      (hoperator : operator.Denoted) (h : Legible right) : Legible (.unary operator right)
  | binary {left : Expr} {operator : Token} {right : Expr} (hkind : operator.kind ∈ binaryKinds)
      (hoperator : operator.Denoted) (hleft : Legible left) (hright : Legible right) :
      Legible (.binary left operator right)
  | logical {left : Expr} {operator : Token} {right : Expr} (hkind : operator.kind ∈ logicalKinds)
      (hoperator : operator.Denoted) (hleft : Legible left) (hright : Legible right) :
      Legible (.logical left operator right)
  | read {name : Token} (hkind : name.kind = .identifier) (hname : name.Denoted) : Legible (.read name)
  | assign {name : Token} {value : Expr} (hkind : name.kind = .identifier) (hname : name.Denoted)
      (h : Legible value) : Legible (.assign name value)

/-- Expressions are legible, and names are known from their lexemes. -/
inductive Stmt.Legible : Stmt → Prop where
  | expression {e : Expr} (h : e.Legible) : Legible (.expression e)
  | print {e : Expr} (h : e.Legible) : Legible (.print e)
  | declare {name : Token} {initial : Option Expr} (hkind : name.kind = .identifier)
      (hname : name.Denoted) (h : ∀ e ∈ initial, e.Legible) : Legible (.declare name initial)
  | block {body : List Stmt} (h : ∀ s ∈ body, Legible s) : Legible (.block body)
  | ifThen {condition : Expr} {yes : Stmt} (h : condition.Legible) (hyes : Legible yes) :
      Legible (.ifThen condition yes)
  | ifThenElse {condition : Expr} {yes no : Stmt} (h : condition.Legible) (hyes : Legible yes)
      (hno : Legible no) : Legible (.ifThenElse condition yes no)
  | whileLoop {condition : Expr} {body : Stmt} (h : condition.Legible) (hbody : Legible body) :
      Legible (.whileLoop condition body)

/-- A lexeme is solid if its characters are of a class that no delimiter is in. -/
theorem Lexical.IsLexeme.solid {w : String} (h : IsLexeme w.toList) {p : Char → Bool}
    (hp : delimiters.all (!p ·)) (hall : ∀ c ∈ w.toList, p c) : Solid w := by
  obtain ⟨c, tail, htail, -⟩ := h.exists_tail
  refine ⟨htail ▸ List.cons_ne_nil c tail, List.all_eq_true.2 fun d hd => decide_eq_true fun hmem => ?_⟩
  have hnone := List.all_eq_true.1 hp d hmem
  rw [hall d hd] at hnone
  cases hnone

/-- A word of the language has only letters, digits and underscores in it. -/
theorem Lexical.IsWord.forall_mem {w : List Char} (h : IsWord w) : ∀ c ∈ w, isWordPart c := by
  cases h with
  | mk hc hrest =>
    refine List.forall_mem_cons.2 ⟨?_, hrest⟩
    rw [isWordStart, Bool.or_eq_true] at hc
    rw [isWordPart, Char.isAlphanum, Bool.or_eq_true, Bool.or_eq_true]
    exact hc.imp .inl id

/-- A lexeme that is neither a string nor a bracket is solid. -/
theorem Lexical.Denotes.solid {w : String} {kind : Kind} {literal : Option Literal}
    (h : Denotes w.toList kind literal) (hkind : kind ∉ [.string, .leftParen, .rightParen]) : Solid w := by
  have hlexeme := h.isLexeme
  generalize hw : w.toList = cs at h
  cases h with
  | symbol hmem =>
    have hsymbols : ∀ p ∈ symbols, p.2 ∉ [Kind.string, .leftParen, .rightParen] →
        p.1.all (· ∉ delimiters) := by decide +kernel
    have hall := List.all_eq_true.1 (hsymbols _ hmem hkind)
    exact hlexeme.solid (by decide) (hw ▸ hall)
  | number hnumber _ => exact hlexeme.solid (by decide) (hw ▸ hnumber.forall_mem)
  | string => exact absurd List.mem_cons_self hkind
  | reserved hword _ | identifier hword _ => exact hlexeme.solid (by decide) (hw ▸ hword.forall_mem)

/-- The text of a legible value is a solid word. -/
theorem Value.Legible.solid {v : Value} (h : v.Legible) : Solid (v.renderWith Expr.numberStyle) := by
  cases h with
  | number h => exact (NumberStyle.denotes_render NumberStyle.readable_expr h).solid (by decide)
  | bool b => cases b <;> decide
  | null => decide

/-- Operators and names are solid. -/
theorem Token.Denoted.solid {t : Token} (h : t.Denoted)
    (hkind : t.kind ∈ .identifier :: (unaryKinds ++ binaryKinds ++ logicalKinds)) : Solid t.lexeme := by
  have hkinds : ∀ kind ∈ .identifier :: (unaryKinds ++ binaryKinds ++ logicalKinds),
      kind ∉ [.string, .leftParen, .rightParen] := by decide
  exact Denotes.solid h (hkinds _ hkind)

/-- The nested list of a legible expression has solid words only. -/
theorem Expr.Legible.isSolid {e : Expr} (h : e.Legible) : e.nested.IsSolid := by
  induction h with
  | literal h => exact .word h.solid
  | grouping _ ih => exact .list (by decide) (List.forall_mem_singleton.2 ih)
  | unary hkind hoperator _ ih =>
    exact .list (hoperator.solid (by simp [hkind])) (List.forall_mem_singleton.2 ih)
  | binary hkind hoperator _ _ ihleft ihright | logical hkind hoperator _ _ ihleft ihright =>
    exact .list (hoperator.solid (by simp [hkind]))
      (List.forall_mem_cons.2 ⟨ihleft, List.forall_mem_singleton.2 ihright⟩)
  | read hkind hname => exact .word (hname.solid (by simp [hkind]))
  | assign hkind hname _ ih =>
    exact .list (by decide)
      (List.forall_mem_cons.2 ⟨.word (hname.solid (by simp [hkind])), List.forall_mem_singleton.2 ih⟩)

/-- The nested list of a legible statement has solid words only. -/
theorem Stmt.Legible.isSolid {s : Stmt} (h : s.Legible) : s.nested.IsSolid := by
  induction h with
  | expression h | print h => exact .list (by decide) (List.forall_mem_singleton.2 h.isSolid)
  | @declare name initial hkind hname h =>
    have hword : (Nested.word name.lexeme).IsSolid := .word (hname.solid (by simp [hkind]))
    cases initial with
    | none => exact .list (by decide) (List.forall_mem_singleton.2 hword)
    | some e =>
      exact .list (by decide) (List.forall_mem_cons.2 ⟨hword, List.forall_mem_singleton.2 (h e rfl).isSolid⟩)
  | block _ ih =>
    refine .list (by decide) ?_
    rw [nestedAll_eq_map]
    exact List.forall_mem_map.2 ih
  | ifThen h _ ih | whileLoop h _ ih =>
    exact .list (by decide) (List.forall_mem_cons.2 ⟨h.isSolid, List.forall_mem_singleton.2 ih⟩)
  | ifThenElse h _ _ ihyes ihno =>
    exact .list (by decide)
      (List.forall_mem_cons.2 ⟨h.isSolid, List.forall_mem_cons.2 ⟨ihyes, List.forall_mem_singleton.2 ihno⟩⟩)

/-- Legible statements of one text are the same nested list. -/
theorem Stmt.nested_eq_of_render {s s' : Stmt} (h : s.Legible) (h' : s'.Legible)
    (hrender : s.render = s'.render) : s.nested = s'.nested := by
  refine Nested.text_inj h.isSolid h'.isSolid ?_
  rw [← s.toList_render, ← s'.toList_render, hrender]

end LoxLang
