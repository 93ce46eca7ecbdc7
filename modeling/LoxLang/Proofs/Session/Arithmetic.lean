import LoxLang.Proofs.Session.Exchanges
import LoxLang.Proofs.Token.Layout

/-!
# Arithmetic

What arithmetic means does not need a parser: `Arithmetic.Tree` is an expression over numbers as a tree,
and `Tree.value` computes it node by node. `Spelled` says how a tree is written: an operator stands bare
where its level is at least the one that is asked for, which is that of the operator for its left operand
and one more for its right operand, and anything can be put in brackets. `Tree.terse` puts only those
brackets that have to be there.

A spelling is a list of lexemes. Any two neighbours stop each other (`Spelled.spaced`), so the lexemes can
be laid out in a text with any gaps or none, and the tokens of the text are derived as a tree of the
language that has the same value (`Spelled.derives`). `evaluate_spelled` puts it together: a session
evaluates the text to the value of the tree it was written for.
-/

namespace LoxLang

namespace Arithmetic

open Grammar Lexical Piece

/-! ## Trees -/

/-- Digits before and behind a point. There is some digit, and no point if there are none behind it. -/
structure Numeral where
  whole : List Char
  fraction : List Char
  digits : Digits (whole ++ fraction)

namespace Numeral

/-- The numeral as it is written: `12`, `12.5` or `.5`. -/
def text (n : Numeral) : List Char :=
  if n.fraction = [] then n.whole else n.whole ++ '.' :: n.fraction

/-- The number that the numeral is read as. -/
def value (n : Numeral) : Float :=
  Decimal.toFloat ⟨Nat.ofDigitChars 10 (n.whole ++ n.fraction) 0, -(n.fraction.length : Int)⟩

end Numeral

/-- The infix operators on numbers. -/
inductive Operator where
  | add | subtract | multiply | divide
  deriving DecidableEq, Repr

namespace Operator

/-- The operator as it is written. -/
def sign : Operator → Char
  | add => '+'
  | subtract => '-'
  | multiply => '*'
  | divide => '/'

/-- How strongly the operator binds. -/
def level : Operator → Nat
  | add | subtract => 0
  | multiply | divide => 1

/-- What the operator computes. -/
def compute : Operator → Float → Float → Float
  | add, x, y => x + y
  | subtract, x, y => x - y
  | multiply, x, y => x * y
  | divide, x, y => x / y

/-- The kind of the operator's token. -/
def kind : Operator → Kind
  | add => .plus
  | subtract => .minus
  | multiply => .star
  | divide => .slash

end Operator

/-- An expression over numbers. -/
inductive Tree where
  | numeral (n : Numeral)
  | negate (operand : Tree)
  | binary (op : Operator) (left right : Tree)

/-- The number that a tree stands for. -/
def Tree.value : Tree → Float
  | numeral n => n.value
  | negate operand => -operand.value
  | binary op left right => op.compute left.value right.value

/-! ## Spellings -/

/-- The lexemes of a tree where an operator of at least the given level can stand bare. A sign binds more
strongly than any operator, which are of the levels 0 and 1, and operators of one level are grouped to the
left. -/
inductive Spelled : Nat → Tree → List (List Char) → Prop where
  | numeral (least : Nat) (n : Numeral) : Spelled least (.numeral n) [n.text]
  | negate (least : Nat) {operand : Tree} {ws : List (List Char)} (h : Spelled 2 operand ws) :
      Spelled least (.negate operand) (['-'] :: ws)
  | binary (op : Operator) {least : Nat} {left right : Tree} {ws ws' : List (List Char)}
      (hleast : least ≤ op.level) (hleft : Spelled op.level left ws)
      (hright : Spelled (op.level + 1) right ws') :
      Spelled least (.binary op left right) (ws ++ [op.sign] :: ws')
  | brackets (least : Nat) {a : Tree} {ws : List (List Char)} (h : Spelled 0 a ws) :
      Spelled least a (['('] :: ws ++ [[')']])

/-- The spelling of a tree with brackets only around an operator that cannot stand bare. -/
def Tree.terse : Nat → Tree → List (List Char)
  | _, numeral n => [n.text]
  | _, negate operand => ['-'] :: operand.terse 2
  | least, binary op left right =>
    let bare := left.terse op.level ++ [op.sign] :: right.terse (op.level + 1)
    if least ≤ op.level then bare else ['('] :: bare ++ [[')']]

/-- The terse spelling is a spelling. -/
theorem spelled_terse (least : Nat) (a : Tree) : Spelled least a (a.terse least) := by
  induction a generalizing least with
  | numeral n => exact .numeral least n
  | negate operand ih => exact .negate least (ih 2)
  | binary op left right ihleft ihright =>
    rw [Tree.terse]
    split
    · next hleast => exact .binary op hleast (ihleft _) (ihright _)
    · exact .brackets least (.binary op (Nat.zero_le _) (ihleft _) (ihright _))

/-! ## The lexemes of a spelling -/

/-- A numeral is a number of the lexical grammar, with the value it has as one. -/
theorem Numeral.denotes (n : Numeral) : Denotes n.text .number (some (.number n.value)) := by
  obtain ⟨whole, fraction, hne, hdigits⟩ := n
  obtain ⟨hwhole, hfraction⟩ := List.forall_mem_append.1 hdigits
  by_cases hnone : fraction = []
  · subst hnone
    rw [List.append_nil] at hne
    have hd := decimal?_whole ⟨hne, hwhole⟩
    simpa [text, value] using Denotes.number (.whole ⟨hne, hwhole⟩) hd
  · have hd := decimal?_mixed hwhole ⟨hnone, hfraction⟩
    have hnumber : IsNumber (whole ++ '.' :: fraction) := by
      by_cases hempty : whole = []
      · subst hempty
        exact .fraction ⟨hnone, hfraction⟩
      · exact .mixed ⟨hempty, hwhole⟩ ⟨hnone, hfraction⟩
    simpa [text, value, hnone] using Denotes.number hnumber hd

/-- The sign of an operator is a lexeme of its kind. -/
theorem Operator.denotes (op : Operator) : Denotes [op.sign] op.kind none := by
  cases op <;> exact .symbol (by decide)

/-- No numeral begins with a slash. -/
theorem Numeral.head?_text (n : Numeral) : '/' ∉ n.text.head? := by
  obtain ⟨whole, fraction, hne, hdigits⟩ := n
  intro hslash
  have hmem := List.mem_of_mem_head? hslash
  have hnot : '/' ∉ whole ++ fraction := fun hin => Bool.false_ne_true (hdigits _ hin)
  rw [text] at hmem
  split at hmem <;> simp_all

/-- Whatever is behind one of these signs does not go on with it, except a second slash. -/
theorem apart_of_opening {c : Char} {w : List Char} (hc : c ∈ ['(', '+', '-', '*', '/'])
    (hw : '/' ∉ w.head?) : Apart [c] w := by
  have hclass : ∀ c ∈ ['(', '+', '-', '*', '/'],
      classOf c = .slash ∨ ∃ kind, classOf c = .punctuation kind := by
    simp [classOf, isBlank, punctuation?, operator?]
  rintro _ ⟨⟩ d hd
  rcases hclass c hc with hslash | ⟨kind, hkind⟩
  · rw [hslash]
    rintro rfl
    exact hw hd
  · rw [hkind]
    trivial

/-- One of these signs goes on with nothing that is before it, except a slash with a slash. -/
theorem apart_of_closing {w : List Char} {d : Char} (hw : '/' ∉ w.head?)
    (hd : d ∈ [')', '+', '-', '*', '/']) : Apart w [d] := by
  have hsigns : ∀ d ∈ [')', '+', '-', '*', '/'],
      d ≠ '=' ∧ d.isDigit = false ∧ d ≠ '.' ∧ isWordPart d = false := by
    simp [isWordPart]
  obtain ⟨hequal, hdigit, hpoint, hword⟩ := hsigns d hd
  rintro c hc _ ⟨⟩
  have hhas := classOf_has c
  cases hclass : classOf c with
  | operator => exact hequal
  | point | digit => exact ⟨hdigit, hpoint⟩
  | slash =>
    rw [hclass] at hhas
    cases hhas
    exact absurd hc hw
  | word => exact hword
  | blank | punctuation | quote | other => trivial

/-- Brackets and the minus sign are lexemes. -/
theorem exists_denotes_sign {c : Char} (hc : c ∈ ['(', ')', '-']) :
    ∃ kind literal, Denotes [c] kind literal := by
  have hsigns : ∀ c ∈ ['(', ')', '-'], (symbols.lookup [c]).isSome := by simp [symbols]
  obtain ⟨kind, hkind⟩ := Option.isSome_iff_exists.1 (hsigns c hc)
  exact ⟨kind, none, .symbol (mem_symbols_iff.2 hkind)⟩

/-- Lexemes that can be laid out without gaps, and before and behind which any sign can stand. A slash must
not come next to one, since the two would begin a comment. -/
structure Spaced (ws : List (List Char)) : Prop where
  ne_nil : ws ≠ []
  denotes : ∀ w ∈ ws, ∃ kind literal, Denotes w kind literal
  apart : ws.IsChain Apart
  first : ∀ w ∈ ws.head?, '/' ∉ w.head?
  last : ∀ w ∈ ws.getLast?, '/' ∉ w.head?

namespace Spaced

/-- A numeral alone is laid out as it is. -/
theorem numeral (n : Numeral) : Spaced [n.text] where
  ne_nil := nofun
  denotes := List.forall_mem_singleton.2 ⟨_, _, n.denotes⟩
  apart := .singleton _
  first := by
    rintro _ ⟨⟩
    exact n.head?_text
  last := by
    rintro _ ⟨⟩
    exact n.head?_text

/-- A sign, or an opening bracket, can stand before lexemes that are laid out. -/
theorem signed {c : Char} {ws : List (List Char)} (hc : c ∈ ['(', '-']) (h : Spaced ws) :
    Spaced ([c] :: ws) where
  ne_nil := nofun
  denotes := by
    have hsigns : ['(', '-'] ⊆ ['(', ')', '-'] := by decide
    exact List.forall_mem_cons.2 ⟨exists_denotes_sign (hsigns hc), h.denotes⟩
  apart := by
    have hsigns : ['(', '-'] ⊆ ['(', '+', '-', '*', '/'] := by decide
    refine List.isChain_cons.2 ⟨fun w hw => ?_, h.apart⟩
    exact apart_of_opening (hsigns hc) (h.first w hw)
  first := by
    have hsigns : ∀ c ∈ ['(', '-'], '/' ∉ [c].head? := by simp
    rintro _ ⟨⟩
    exact hsigns c hc
  last := by
    rw [List.getLast?_cons_of_ne_nil h.ne_nil]
    exact h.last

/-- A closing bracket can stand behind lexemes that are laid out. -/
theorem closed {ws : List (List Char)} (h : Spaced ws) : Spaced (ws ++ [[')']]) where
  ne_nil := List.append_ne_nil_of_left_ne_nil h.ne_nil _
  denotes :=
    List.forall_mem_append.2 ⟨h.denotes, List.forall_mem_singleton.2 (exists_denotes_sign (by decide))⟩
  apart := by
    refine List.isChain_append.2 ⟨h.apart, .singleton _, fun w hw => ?_⟩
    rintro _ ⟨⟩
    exact apart_of_closing (h.last w hw) (by decide)
  first := by
    rw [List.head?_append_of_ne_nil _ h.ne_nil]
    exact h.first
  last := by
    rw [List.getLast?_concat]
    rintro _ ⟨⟩
    decide

/-- An operator can stand between lexemes that are laid out. -/
theorem join (op : Operator) {ws ws' : List (List Char)} (h : Spaced ws) (h' : Spaced ws') :
    Spaced (ws ++ [op.sign] :: ws') where
  ne_nil := List.append_ne_nil_of_left_ne_nil h.ne_nil _
  denotes :=
    List.forall_mem_append.2 ⟨h.denotes, List.forall_mem_cons.2 ⟨⟨_, _, op.denotes⟩, h'.denotes⟩⟩
  apart := by
    have hopening : [op.sign] :: ws' |>.IsChain Apart := by
      refine List.isChain_cons.2 ⟨fun w hw => ?_, h'.apart⟩
      exact apart_of_opening (by cases op <;> decide) (h'.first w hw)
    refine List.isChain_append.2 ⟨h.apart, hopening, fun w hw => ?_⟩
    rintro _ ⟨⟩
    exact apart_of_closing (h.last w hw) (by cases op <;> decide)
  first := by
    rw [List.head?_append_of_ne_nil _ h.ne_nil]
    exact h.first
  last := by
    rw [List.getLast?_append_of_ne_nil _ (List.cons_ne_nil _ _), List.getLast?_cons_of_ne_nil h'.ne_nil]
    exact h'.last

end Spaced

/-- The lexemes of a spelling can be laid out without gaps. -/
theorem Spelled.spaced {least : Nat} {a : Tree} {ws : List (List Char)} (h : Spelled least a ws) :
    Spaced ws := by
  induction h with
  | numeral _ n => exact .numeral n
  | negate _ _ ih => exact ih.signed (by decide)
  | binary op _ _ _ ihleft ihright => exact .join op ihleft ihright
  | brackets _ _ ih => exact (ih.signed (by decide)).closed

/-! ## The tokens of a spelling -/

/-- The symbol that derives the trees of at least the given level. -/
def symbolOf : Nat → Symbol
  | 0 => .level .term
  | 1 => .level .factor
  | _ => .unary

/-- A list that is related to two in a row is two in a row. -/
theorem exists_append_of_forall₂ {α β : Type} {R : α → β → Prop} {l l' : List α} {m : List β}
    (h : List.Forall₂ R (l ++ l') m) :
    ∃ n n', m = n ++ n' ∧ List.Forall₂ R l n ∧ List.Forall₂ R l' n' := by
  refine ⟨m.take l.length, m.drop l.length, (List.take_append_drop _ m).symm, ?_, ?_⟩
  · simpa using List.forall₂_take l.length h
  · simpa using List.forall₂_drop l.length h

/-- A sum is an expression: each looser level repeats a single operand, and nothing is assigned. -/
theorem expression_of_term {used : List Token} {e : Expr} (h : DerivesExpr (.level .term) used e) :
    Expression used e := by
  have hcomparison : DerivesExpr (.level .comparison) used e := .single h
  have hequality : DerivesExpr (.level .equality) used e := .single hcomparison
  have hand : DerivesExpr (.level .logicAnd) used e := .single hequality
  exact .noAssign (.single hand)

/-- What one level derives the looser ones derive. -/
theorem derives_of_le {least level : Nat} (hle : least ≤ level) {used : List Token} {e : Expr}
    (h : DerivesExpr (symbolOf level) used e) : DerivesExpr (symbolOf least) used e := by
  induction hle with
  | refl => exact h
  | @step level _ ih =>
    refine ih ?_
    -- Above the levels of operators the symbol is the same for all.
    match level with
    | 0 | 1 => exact .single h
    | _ + 2 => exact h

/-- An operator of a level joins a left operand of the level and a right one of the next. -/
theorem derives_binary (op : Operator) {used used' : List Token} {left right : Expr} {t : Token}
    (hleft : DerivesExpr (symbolOf op.level) used left) (ht : t.kind = op.kind)
    (hright : DerivesExpr (symbolOf (op.level + 1)) used' right) :
    DerivesExpr (symbolOf op.level) (used ++ t :: used') (.binary left t right) := by
  cases op with
  | add | subtract => exact hleft.snoc (l := .term) (ht ▸ by decide) hright
  | multiply | divide => exact hleft.snoc (l := .factor) (ht ▸ by decide) hright

/-- An infix operator on numbers computes what its sign stands for. -/
theorem applyBinary_number (op : Operator) {t : Token} (ht : t.kind = op.kind) (x y : Float) :
    applyBinary t (.number x) (.number y) = .ok (.number (op.compute x y)) := by
  cases op <;> rw [applyBinary, ht] <;> rfl

/-- A minus sign before a number negates it. -/
theorem applyUnary_number {t : Token} (ht : t.kind = .minus) (x : Float) :
    applyUnary t (.number x) = .ok (.number (-x)) := by
  rw [applyUnary, ht]

/-- A unary is an operand of every level. -/
theorem derives_of_unary (least : Nat) {used : List Token} {e : Expr} (h : DerivesExpr .unary used e) :
    DerivesExpr (symbolOf least) used e :=
  derives_of_le (Nat.le_add_right least 2) h

/-- The tokens of a spelling are an expression whose value is that of the tree, in every chain of scopes. -/
theorem Spelled.derives {least : Nat} {a : Tree} {ws : List (List Char)} (h : Spelled least a ws)
    {ts : List Token} (hts : List.Forall₂ Spells ws ts) :
    ∃ e, DerivesExpr (symbolOf least) ts e ∧ ∀ c, e.eval c = (.ok (.number a.value), c) := by
  induction h generalizing ts with
  | numeral least n =>
    obtain ⟨t, _, ht, hnil, rfl⟩ := List.forall₂_cons_left_iff.1 hts
    obtain rfl := List.forall₂_nil_left_iff.1 hnil
    obtain ⟨hkind, hliteral⟩ := ht.eq_of_denotes n.denotes
    refine ⟨_, derives_of_unary least (.noUnary (.number hkind)), fun c => ?_⟩
    rw [Expr.eval, Parser.literalValue, hliteral]
    rfl
  | negate least _ ih =>
    obtain ⟨t, ts, ht, hoperand, rfl⟩ := List.forall₂_cons_left_iff.1 hts
    obtain ⟨e, he, heval⟩ := ih hoperand
    have hkind : t.kind = .minus := (ht.eq_of_denotes (.symbol (by decide))).1
    have hsign : t.kind ∈ [.bang, .minus] := hkind ▸ List.mem_cons_of_mem _ List.mem_cons_self
    refine ⟨_, derives_of_unary least (.unary hsign he), fun c => ?_⟩
    rw [Expr.eval_unary, heval, Evaluated.andThen, applyUnary_number hkind]
    rfl
  | binary op hleast _ _ ihleft ihright =>
    obtain ⟨ts, _, rfl, hleft, hrest⟩ := exists_append_of_forall₂ hts
    obtain ⟨t, ts', ht, hright, rfl⟩ := List.forall₂_cons_left_iff.1 hrest
    obtain ⟨left, hderives, heval⟩ := ihleft hleft
    obtain ⟨right, hderives', heval'⟩ := ihright hright
    have hkind : t.kind = op.kind := (ht.eq_of_denotes op.denotes).1
    refine ⟨_, derives_of_le hleast (derives_binary op hderives hkind hderives'), fun c => ?_⟩
    simp only [Expr.eval_binary, heval, heval', Evaluated.andThen, applyBinary_number op hkind, Tree.value]
  | brackets least _ ih =>
    obtain ⟨_, _, rfl, hrest, hclosing⟩ := exists_append_of_forall₂ hts
    obtain ⟨t, ts, ht, hinner, rfl⟩ := List.forall₂_cons_left_iff.1 hrest
    obtain ⟨t', _, ht', hnil, rfl⟩ := List.forall₂_cons_left_iff.1 hclosing
    obtain rfl := List.forall₂_nil_left_iff.1 hnil
    obtain ⟨e, he, heval⟩ := ih hinner
    have hkind : t.kind = .leftParen := (ht.eq_of_denotes (.symbol (by decide))).1
    have hkind' : t'.kind = .rightParen := (ht'.eq_of_denotes (.symbol (by decide))).1
    refine ⟨_, derives_of_unary least (.noUnary (.grouping hkind (expression_of_term he) hkind')), ?_⟩
    exact heval

end Arithmetic

/-! ## Evaluating a spelling -/

/-- Arithmetic means what its tree means. Every tree can be spelled with brackets only where its operators
need them; and however it is spelled, and however its lexemes are laid out in a text, a session evaluates
the text without diagnostics to the number that is computed from the tree, and stays as it is. -/
theorem Session.evaluate_spelled (a : Arithmetic.Tree) (s : Session) :
    Arithmetic.Spelled 0 a (a.terse 0) ∧
      ∀ ws text, Arithmetic.Spelled 0 a ws → Lexical.Laid ws text →
        s.evaluate (String.ofList text) = (some (.number a.value), [], s) := by
  refine ⟨Arithmetic.spelled_terse 0 a, fun ws text hspelled hlaid => ?_⟩
  have hspaced := hspelled.spaced
  obtain ⟨hfaults, hbody⟩ := hlaid.source hspaced.denotes hspaced.apart
  obtain ⟨e, he, heval⟩ := hspelled.derives hbody
  have hevaluable := evaluable?_eq_some_iff.2 ⟨hfaults, Arithmetic.expression_of_term he⟩
  have hmachine : s.machine.eval e = (.ok (.number a.value), s.machine) := by
    rw [Machine.eval, machine]
    dsimp only
    rw [heval]
  rw [evaluate_of_evaluable?_eq_some hevaluable, hmachine]
  rfl

/-- A difference of differences, with a product and two signs in a row. -/
def Arithmetic.difference : Arithmetic.Tree :=
  .binary .subtract
    (.binary .subtract (.numeral ⟨['8'], [], by simp [Lexical.Digits]⟩)
      (.numeral ⟨[], ['5'], by simp [Lexical.Digits]⟩))
    (.binary .divide
      (.binary .multiply (.negate (.negate (.numeral ⟨['2'], ['5'], by simp [Lexical.Digits]⟩)))
        (.numeral ⟨['3'], [], by simp [Lexical.Digits]⟩))
      (.numeral ⟨['4'], [], by simp [Lexical.Digits]⟩))

/-- Its lexemes, with brackets that could be left out. -/
def Arithmetic.differenceWords : List (List Char) :=
  [['8'], ['-'], ['.', '5'], ['-'], ['('], ['-'], ['-'], ['2', '.', '5'], [')'], ['*'], ['3'], ['/'], ['4']]

/-- Brackets that could be left out, a comment and a line break do not change the difference. -/
theorem Session.evaluate_spelled_difference :
    Arithmetic.Spelled 0 Arithmetic.difference Arithmetic.differenceWords ∧
      Lexical.Laid Arithmetic.differenceWords "8-.5 // half\n-(--2.5)*3 / 4".toList ∧
      (start .unlimited).evaluate "8-.5 // half\n-(--2.5)*3 / 4" =
        (some (.number (Decimal.toFloat ⟨8, 0⟩ - Decimal.toFloat ⟨5, -1⟩ -
          - -Decimal.toFloat ⟨25, -1⟩ * Decimal.toFloat ⟨3, 0⟩ / Decimal.toFloat ⟨4, 0⟩)), [],
          start .unlimited) := by
  have hspelled : Arithmetic.Spelled 0 Arithmetic.difference Arithmetic.differenceWords :=
    .binary .subtract (by decide) (.binary .subtract (by decide) (.numeral 0 _) (.numeral 1 _))
      (.binary .divide (by decide)
        (.binary .multiply (by decide) (.brackets 1 (.negate 0 (.negate 2 (.numeral 2 _))))
          (.numeral 2 _))
        (.numeral 2 _))
  have hcomment : Lexical.IsGap (' ' :: '/' :: '/' :: (" half".toList ++ ['\n'])) :=
    .comment (by decide) (by decide) (.blank (by decide) .nil)
  have hblank : Lexical.IsGap [' '] := .blank (by decide) .nil
  have hlaid : Lexical.Laid Arithmetic.differenceWords "8-.5 // half\n-(--2.5)*3 / 4".toList :=
    .cons .nil (.cons .nil (.cons .nil (.cons hcomment (.cons .nil (.cons .nil (.cons .nil (.cons .nil
      (.cons .nil (.cons .nil (.cons .nil (.cons hblank (.cons hblank (.nil .nil)))))))))))))
  have hvalue := (evaluate_spelled Arithmetic.difference (start .unlimited)).2 _ _ hspelled hlaid
  rw [String.ofList_toList] at hvalue
  exact ⟨hspelled, hlaid, hvalue⟩

end LoxLang
