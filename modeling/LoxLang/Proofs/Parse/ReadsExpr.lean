import LoxLang.Proofs.Parse.Grammar
import LoxLang.Proofs.Parse.Reads

/-!
# Clean readings of expressions are derivations

`Symbol.parser` gives the parser of each symbol of the grammar of expressions. Soundness
(`expression_sound`): what is read cleanly is a derivation of the tokens that were taken, whatever the
bound. Completeness (`expression_complete`): the tokens of a derivation are read, and the derivation's tree
with them, if the bound reaches their number and the next token cannot go on with the expression.

The one parser that is not shaped like its production is that of assignments, which reads the target as
an `or` expression. Soundness holds because the only derivation of a tree `.read name` is the token
`name` (`DerivesExpr.eq_of_read`), completeness because an equals sign is no infix operator.
-/

namespace LoxLang

open LoxLang.Parser

namespace Grammar

/-! ## The parser of a symbol -/

/-- The entry of a level in the table of the parser. -/
def Ladder.level (l : Ladder) : Level :=
  ⟨l.operators, l.join⟩

/-- A level and the tighter ones. -/
def Ladder.below : Ladder → List Ladder
  | logicOr => [logicOr, logicAnd, equality, comparison, term, factor]
  | logicAnd => [logicAnd, equality, comparison, term, factor]
  | equality => [equality, comparison, term, factor]
  | comparison => [comparison, term, factor]
  | term => [term, factor]
  | factor => [factor]

/-- The kinds of tokens that can go on with a phrase of a symbol. -/
def Symbol.continues : Symbol → List Kind
  | assignment => .equal :: Ladder.logicOr.below.flatMap Ladder.operators
  | level l => l.below.flatMap Ladder.operators
  | unary | primary => []

/-- The parser of a symbol, for expressions in brackets of at most `bound` tokens; at most `depth` unary
operators in a row. -/
def Symbol.parser (bound depth : Nat) : Symbol → Parser Expr
  | assignment => Parser.expression (bound + 1)
  | level l => infixes (bound + 1)
      (Parser.unary (Parser.primary (Parser.expression bound)) (bound + 1))
      (l.below.map Ladder.level)
  | unary => Parser.unary (Parser.primary (Parser.expression bound)) depth
  | primary => Parser.primary (Parser.expression bound)

/-- An assignment is read through its target. -/
theorem Symbol.parser_assignment (bound depth : Nat) :
    Symbol.assignment.parser bound depth =
      Parser.assignment ((Symbol.level .logicOr).parser bound (bound + 1))
        (Parser.expression bound) :=
  rfl

/-- A level is read as a chain of its operands. -/
theorem Symbol.parser_level (bound depth : Nat) (l : Ladder) :
    (Symbol.level l).parser bound depth = (do
      let left ← l.operand.parser bound (bound + 1)
      chain l.level (l.operand.parser bound (bound + 1)) (bound + 1) left) := by
  cases l <;> rfl

/-- What goes on with a level is an operator of it or goes on with its operands. -/
theorem Symbol.continues_level (l : Ladder) :
    (Symbol.level l).continues = l.operators ++ l.operand.continues := by
  cases l <;> rfl

/-- An operator of a level does not go on with its operands. -/
theorem Ladder.not_continues_of_mem_operators {l : Ladder} {kind : Kind} (h : kind ∈ l.operators) :
    kind ∉ l.operand.continues := by
  cases l <;> cases kind <;> revert h <;> decide

/-! ## Soundness -/

/-- What a parser reads cleanly, a symbol derives from the tokens that were taken. -/
def SoundFor (symbol : Symbol) (p : Parser Expr) : Prop :=
  ∀ (stop : Token) (tokens rest : List Token) (e : Expr), Reads p stop tokens e rest →
    ∃ used, tokens = used ++ rest ∧ DerivesExpr symbol used e

/-- A level of infix operators never builds the node of a name. -/
theorem Ladder.foldl_join_eq_read {l : Ladder} {more : List Operand} {e : Expr} {name : Token}
    (h : more.foldl (fun left o => l.join left o.operator o.tree) e = .read name) :
    more = [] ∧ e = .read name := by
  rcases List.eq_nil_or_concat more with rfl | ⟨init, last, rfl⟩
  · exact ⟨rfl, h⟩
  · rw [List.concat_eq_append, List.foldl_append] at h
    cases l <;> cases h

/-- The node of a name is derived from the name alone. -/
theorem DerivesExpr.eq_of_read {symbol : Symbol} {used : List Token} {name : Token}
    (h : DerivesExpr symbol used (.read name)) : used = [name] ∧ name.kind = .identifier := by
  generalize he : Expr.read name = e at h
  induction h with
  | assign | unary | number | string | trueWord | falseWord | nullWord | grouping => cases he
  | noAssign _ ih | noUnary _ ih => exact ih he
  | repetition l more _ _ _ ih _ =>
    obtain ⟨rfl, rfl⟩ := Ladder.foldl_join_eq_read he.symm
    simpa using ih rfl
  | read h => cases he; exact ⟨rfl, h⟩

/-- What a primary parser reads is derived as a primary, if the parser in its brackets reads expressions. -/
theorem primary_sound {inner : Parser Expr} (hinner : SoundFor .assignment inner) :
    SoundFor .primary (Parser.primary inner) := by
  intro stop _ rest e h
  simp only [Parser.primary, reads_bind, reads_peek?] at h
  obtain ⟨_, tokens, ⟨rfl, rfl⟩, h⟩ := h
  cases tokens with
  | nil => exact absurd h not_reads_fail
  | cons t ts =>
    simp only [List.head?_cons] at h
    split at h
    · next hk =>
      obtain ⟨rfl, rfl⟩ := reads_skip_pure.1 h
      exact ⟨[t], rfl, .falseWord hk⟩
    · next hk =>
      obtain ⟨rfl, rfl⟩ := reads_skip_pure.1 h
      exact ⟨[t], rfl, .trueWord hk⟩
    · next hk =>
      obtain ⟨rfl, rfl⟩ := reads_skip_pure.1 h
      exact ⟨[t], rfl, .nullWord hk⟩
    · next hk =>
      obtain ⟨rfl, rfl⟩ := reads_skip_pure.1 h
      exact ⟨[t], rfl, .number hk⟩
    · next hk =>
      obtain ⟨rfl, rfl⟩ := reads_skip_pure.1 h
      exact ⟨[t], rfl, .string hk⟩
    · next hk =>
      obtain ⟨rfl, rfl⟩ := reads_skip_pure.1 h
      exact ⟨[t], rfl, .read hk⟩
    · next hk =>
      simp only [reads_bind, reads_skip, reads_pure, reads_expect, List.tail_cons] at h
      obtain ⟨_, _, rfl, e', mid, he', right, _, ⟨rfl, hright⟩, rfl, rfl⟩ := h
      obtain ⟨used, rfl, hused⟩ := hinner _ _ _ _ he'
      exact ⟨t :: used ++ [right], by simp, .grouping hk hused hright⟩
    · exact absurd h not_reads_fail

/-- What is read as a row of unary operators and an operand is derived so. The induction is on the number of
operators allowed. -/
theorem unary_sound {inner : Parser Expr} (hinner : SoundFor .primary inner) (depth : Nat) :
    SoundFor .unary (Parser.unary inner depth) := by
  induction depth with
  | zero =>
    intro stop tokens rest e h
    obtain ⟨used, rfl, hused⟩ := hinner _ _ _ _ h
    exact ⟨used, rfl, .noUnary hused⟩
  | succ depth ih =>
    intro stop tokens rest e h
    simp only [Parser.unary, reads_bind, reads_accept?] at h
    obtain ⟨_, _, ⟨operator, rfl, rfl, hk⟩ | ⟨rfl, rfl, _⟩, h⟩ := h
    · simp only [reads_bind, reads_pure] at h
      obtain ⟨right, _, hright, rfl, rfl⟩ := h
      obtain ⟨used, rfl, hused⟩ := ih _ _ _ _ hright
      exact ⟨operator :: used, rfl, .unary hk hused⟩
    · obtain ⟨used, rfl, hused⟩ := hinner _ _ _ _ h
      exact ⟨used, rfl, .noUnary hused⟩

/-- A chain that is read cleanly is a list of operators with their operands, folded to the left. -/
theorem chain_sound {l : Ladder} {operand : Parser Expr} (hoperand : SoundFor l.operand operand)
    {stop : Token} {rest : List Token} {e : Expr} (bound : Nat) :
    ∀ {tokens : List Token} {left : Expr},
      Reads (chain l.level operand bound left) stop tokens e rest →
      ∃ more : List Operand, tokens = more.flatMap Operand.span ++ rest ∧
        e = more.foldl (fun left o => l.join left o.operator o.tree) left ∧
        (∀ o ∈ more, o.operator.kind ∈ l.operators) ∧
        ∀ o ∈ more, DerivesExpr l.operand o.tokens o.tree := by
  induction bound with
  | zero =>
    intro tokens left h
    obtain ⟨rfl, rfl⟩ := reads_pure.1 h
    exact ⟨[], rfl, rfl, nofun, nofun⟩
  | succ bound ih =>
    intro tokens left h
    simp only [chain, reads_bind, reads_accept?] at h
    obtain ⟨_, _, ⟨operator, rfl, rfl, hk⟩ | ⟨rfl, rfl, _⟩, h⟩ := h
    · simp only [reads_bind] at h
      obtain ⟨right, mid, hright, h⟩ := h
      obtain ⟨used, rfl, hused⟩ := hoperand _ _ _ _ hright
      obtain ⟨more, rfl, rfl, hoperator, hmore⟩ := ih h
      refine ⟨⟨operator, used, right⟩ :: more, ?_, rfl, ?_, ?_⟩
      · simp [Operand.span]
      · exact List.forall_mem_cons.2 ⟨hk, hoperator⟩
      · exact List.forall_mem_cons.2 ⟨hused, hmore⟩
    · obtain ⟨rfl, rfl⟩ := reads_pure.1 h
      exact ⟨[], rfl, rfl, nofun, nofun⟩

/-- What is read as a level is derived as one, if its operands are: the chain behind the first operand adds one
operator at a time. -/
theorem level_sound {bound : Nat} {l : Ladder}
    (hoperand : SoundFor l.operand (l.operand.parser bound (bound + 1))) (depth : Nat) :
    SoundFor (.level l) ((Symbol.level l).parser bound depth) := by
  intro stop tokens rest e h
  rw [Symbol.parser_level, reads_bind] at h
  obtain ⟨left, mid, hleft, h⟩ := h
  obtain ⟨first, rfl, hfirst⟩ := hoperand _ _ _ _ hleft
  obtain ⟨more, rfl, rfl, hoperator, hmore⟩ := chain_sound hoperand _ h
  exact ⟨first ++ more.flatMap Operand.span, by simp, .repetition l more hfirst hoperator hmore⟩

/-- What an assignment parser reads is derived as an assignment. An equals sign is gone on with only if the target
was a name, which has one derivation. -/
theorem assignment_sound {target inner : Parser Expr} (htarget : SoundFor (.level .logicOr) target)
    (hinner : SoundFor .assignment inner) :
    SoundFor .assignment (Parser.assignment target inner) := by
  intro stop tokens rest e h
  simp only [Parser.assignment, reads_bind, reads_accept?] at h
  obtain ⟨left, mid, hleft, _, _, ⟨equals, rfl, rfl, hk⟩ | ⟨rfl, rfl, _⟩, h⟩ := h
  · obtain ⟨used, rfl, hused⟩ := htarget _ _ _ _ hleft
    simp only [reads_bind] at h
    obtain ⟨value, mid, hvalue, h⟩ := h
    obtain ⟨used', rfl, hused'⟩ := hinner _ _ _ _ hvalue
    split at h
    · next name =>
      obtain ⟨rfl, rfl⟩ := reads_pure.1 h
      obtain ⟨rfl, hname⟩ := hused.eq_of_read
      exact ⟨name :: equals :: used', rfl, .assign hname (List.mem_singleton.1 hk) hused'⟩
    · simp only [reads_bind] at h
      obtain ⟨_, _, h, _⟩ := h
      exact absurd h not_reads_report
  · obtain ⟨rfl, rfl⟩ := reads_pure.1 h
    obtain ⟨used, rfl, hused⟩ := htarget _ _ _ _ hleft
    exact ⟨used, rfl, .noAssign hused⟩

/-- What is read cleanly as an expression is one. -/
theorem expression_sound (bound : Nat) : SoundFor .assignment (Parser.expression bound) := by
  induction bound with
  | zero => exact fun _ _ _ _ h => absurd h not_reads_fail
  | succ bound ih =>
    have hunary : SoundFor .unary (Symbol.unary.parser bound (bound + 1)) :=
      unary_sound (primary_sound ih) _
    have hfactor := level_sound (l := .factor) hunary (bound + 1)
    have hterm := level_sound (l := .term) hfactor (bound + 1)
    have hcomparison := level_sound (l := .comparison) hterm (bound + 1)
    have hequality := level_sound (l := .equality) hcomparison (bound + 1)
    have hand := level_sound (l := .logicAnd) hequality (bound + 1)
    have hor := level_sound (l := .logicOr) hand (bound + 1)
    exact assignment_sound hor ih

/-! ## Completeness -/

/-- The parser of a symbol reads a tree from its tokens, whatever follows them that cannot go on with
it. -/
def CompleteFor (bound : Nat) (symbol : Symbol) (used : List Token) (e : Expr) : Prop :=
  ∀ (depth : Nat) (stop : Token) (rest : List Token), used.length ≤ depth →
    NextNot symbol.continues rest → Reads (symbol.parser bound depth) stop (used ++ rest) e rest

/-- A token that is a primary expression by itself is read as one. -/
theorem primary_complete_single {bound : Nat} {t : Token} {e : Expr}
    (h : DerivesExpr .primary [t] e) : CompleteFor bound .primary [t] e := by
  intro depth stop rest _ _
  simp only [Symbol.parser, Parser.primary, reads_bind, reads_peek?]
  refine ⟨some t, t :: rest, ⟨rfl, rfl⟩, ?_⟩
  generalize hused : [t] = used at h
  cases h with
  | number hk | string hk | trueWord hk | falseWord hk | nullWord hk | read hk =>
    cases hused
    simp only [hk]
    exact reads_skip_pure.2 ⟨rfl, rfl⟩
  | grouping => simp at hused

/-- An expression in brackets is read as a primary. -/
theorem grouping_complete {bound : Nat} {left right : Token} {used : List Token} {e : Expr}
    (hleft : left.kind = .leftParen) (hright : right.kind = .rightParen)
    (hinner : ∀ stop rest, NextNot Symbol.assignment.continues rest →
      Reads (Parser.expression bound) stop (used ++ rest) e rest) :
    CompleteFor bound .primary (left :: used ++ [right]) (.grouping e) := by
  intro depth stop rest _ _
  simp only [Symbol.parser, Parser.primary, reads_bind, reads_peek?]
  refine ⟨some left, left :: used ++ right :: rest, ⟨rfl, by simp⟩, ?_⟩
  simp only [hleft, reads_bind, reads_skip, reads_expect, reads_pure]
  have hnext : NextNot Symbol.assignment.continues (right :: rest) := by
    rw [nextNot_cons, hright]
    decide
  exact ⟨(), used ++ right :: rest, rfl, e, right :: rest, hinner stop _ hnext, right, rest,
    ⟨rfl, hright⟩, rfl, rfl⟩

/-- A unary operator before what is read as a unary is read as one. -/
theorem unary_complete {bound : Nat} {operator : Token} {used : List Token} {right : Expr}
    (hoperator : operator.kind ∈ [.bang, .minus]) (h : CompleteFor bound .unary used right) :
    CompleteFor bound .unary (operator :: used) (.unary operator right) := by
  intro depth stop rest hdepth hrest
  cases depth with
  | zero => exact absurd hdepth (by simp)
  | succ depth =>
    simp only [Symbol.parser, Parser.unary, reads_bind, reads_accept?]
    refine ⟨some operator, used ++ rest, .inl ⟨operator, rfl, rfl, hoperator⟩, ?_⟩
    simp only [reads_bind, reads_pure]
    exact ⟨right, rest, h depth stop rest (Nat.le_of_succ_le_succ hdepth) hrest, rfl, rfl⟩

/-- A primary is read as a unary, since it does not begin with a unary operator. -/
theorem noUnary_complete {bound : Nat} {used : List Token} {e : Expr}
    (hder : DerivesExpr .primary used e) (h : CompleteFor bound .primary used e) :
    CompleteFor bound .unary used e := by
  intro depth stop rest hdepth hrest
  cases depth with
  | zero => exact h 0 stop rest hdepth hrest
  | succ depth =>
    simp only [Symbol.parser, Parser.unary, reads_bind, reads_accept?]
    refine ⟨none, used ++ rest, .inr ⟨rfl, rfl, ?_⟩, h depth.succ stop rest hdepth hrest⟩
    cases hder with
    | number hk | string hk | trueWord hk | falseWord hk | nullWord hk | read hk => simp [hk]
    | grouping hk _ _ => simp [hk]

/-- What follows the first operand of a level cannot go on with the operand. -/
theorem nextNot_operands {l : Ladder} {more : List Operand} {rest : List Token}
    (hoperator : ∀ o ∈ more, o.operator.kind ∈ l.operators)
    (hrest : NextNot l.operand.continues rest) :
    NextNot l.operand.continues (more.flatMap Operand.span ++ rest) := by
  cases more with
  | nil => exact hrest
  | cons o more =>
    simp only [List.flatMap_cons, Operand.span, List.cons_append, nextNot_cons]
    exact Ladder.not_continues_of_mem_operators (hoperator o (by simp))

/-- A list of operators with their operands is read as a chain, folded to the left. -/
theorem chain_complete {bound : Nat} {l : Ladder} (stop : Token) {rest : List Token}
    (hrest : NextNot (Symbol.level l).continues rest) :
    ∀ {more : List Operand} (rounds : Nat) (left : Expr), more.length ≤ rounds →
      (∀ o ∈ more, o.operator.kind ∈ l.operators) →
      (∀ o ∈ more, o.tokens.length ≤ bound + 1 ∧ CompleteFor bound l.operand o.tokens o.tree) →
      Reads (chain l.level (l.operand.parser bound (bound + 1)) rounds left) stop
        (more.flatMap Operand.span ++ rest)
        (more.foldl (fun left o => l.join left o.operator o.tree) left) rest := by
  rw [Symbol.continues_level] at hrest
  have hoperators : NextNot l.operators rest := hrest.mono (List.subset_append_left _ _)
  have hoperand : NextNot l.operand.continues rest := hrest.mono (List.subset_append_right _ _)
  intro more
  induction more with
  | nil =>
    intro rounds left _ _ _
    cases rounds with
    | zero => exact reads_pure.2 ⟨rfl, rfl⟩
    | succ rounds =>
      simp only [chain, reads_bind, reads_accept?]
      exact ⟨none, rest, .inr ⟨rfl, rfl, hoperators⟩, reads_pure.2 ⟨rfl, rfl⟩⟩
  | cons o more ih =>
    intro rounds left hrounds hoperator hmore
    cases rounds with
    | zero => exact absurd hrounds (by simp)
    | succ rounds =>
      obtain ⟨hlength, ho⟩ := hmore o (by simp)
      have hoperator' : ∀ o ∈ more, o.operator.kind ∈ l.operators :=
        fun o' ho' => hoperator o' (by simp [ho'])
      have hright := ho (bound + 1) stop _ hlength (nextNot_operands hoperator' hoperand)
      have hchain := ih rounds (l.join left o.operator o.tree) (Nat.le_of_succ_le_succ hrounds)
        hoperator' fun o' ho' => hmore o' (by simp [ho'])
      simp only [chain, reads_bind, reads_accept?]
      refine ⟨some o.operator, o.tokens ++ (more.flatMap Operand.span ++ rest),
        .inl ⟨_, rfl, by simp [Operand.span], hoperator o (by simp)⟩, ?_⟩
      exact reads_bind.2 ⟨o.tree, _, hright, hchain⟩

/-- The operands behind the first one are not longer than all of them together, nor more of them than
tokens. -/
theorem length_operands (more : List Operand) :
    more.length ≤ (more.flatMap Operand.span).length ∧
      ∀ o ∈ more, o.tokens.length ≤ (more.flatMap Operand.span).length := by
  induction more with
  | nil => simp
  | cons o more ih =>
    simp only [List.flatMap_cons, List.length_append, List.length_cons, Operand.span,
      List.forall_mem_cons]
    refine ⟨by omega, by omega, fun o' ho' => ?_⟩
    have := ih.2 o' ho'
    omega

/-- A repetition is read as its level: the first operand by the operand's parser, and the pairs behind it by the
chain. -/
theorem level_complete {bound : Nat} {l : Ladder} {first : List Token} {e : Expr}
    (more : List Operand) (hlength : (first ++ more.flatMap Operand.span).length ≤ bound + 1)
    (hfirst : CompleteFor bound l.operand first e)
    (hoperator : ∀ o ∈ more, o.operator.kind ∈ l.operators)
    (hmore : ∀ o ∈ more, CompleteFor bound l.operand o.tokens o.tree) :
    CompleteFor bound (.level l) (first ++ more.flatMap Operand.span)
      (more.foldl (fun left o => l.join left o.operator o.tree) e) := by
  intro depth stop rest _ hrest
  have hoperand : NextNot l.operand.continues rest := by
    rw [Symbol.continues_level] at hrest
    exact hrest.mono (List.subset_append_right _ _)
  obtain ⟨hcount, hlengths⟩ := length_operands more
  rw [List.length_append] at hlength
  have hleft := hfirst (bound + 1) stop _ (by omega) (nextNot_operands hoperator hoperand)
  have hchain := chain_complete stop hrest (bound + 1) e (by omega) hoperator
    fun o ho => ⟨Nat.le_trans (hlengths o ho) (by omega), hmore o ho⟩
  rw [Symbol.parser_level, List.append_assoc]
  exact reads_bind.2 ⟨e, _, hleft, hchain⟩

/-- A name by itself is read at every level. -/
theorem name_complete {bound : Nat} {name : Token} (hname : name.kind = .identifier) :
    CompleteFor bound (.level .logicOr) [name] (.read name) := by
  have hprimary : DerivesExpr .primary [name] (.read name) := .read hname
  have hunary : CompleteFor bound .unary [name] (.read name) :=
    noUnary_complete hprimary (primary_complete_single hprimary)
  have step : ∀ l : Ladder, CompleteFor bound l.operand [name] (.read name) →
      CompleteFor bound (.level l) [name] (.read name) :=
    fun l h => level_complete [] (by simp) h nofun nofun
  exact step .logicOr (step .logicAnd (step .equality (step .comparison (step .term
    (step .factor hunary)))))

/-- An assignment to a name is read as an assignment, with the name as its target. -/
theorem assign_complete {bound : Nat} {name equals : Token} {used : List Token} {value : Expr}
    (hname : name.kind = .identifier) (hequals : equals.kind = .equal)
    (hvalue : ∀ stop rest, NextNot Symbol.assignment.continues rest →
      Reads (Parser.expression bound) stop (used ++ rest) value rest) :
    CompleteFor bound .assignment (name :: equals :: used) (.assign name value) := by
  intro depth stop rest _ hrest
  have hnext : NextNot (Symbol.level .logicOr).continues (equals :: (used ++ rest)) := by
    rw [nextNot_cons, hequals]
    decide
  simp only [Symbol.parser_assignment, Parser.assignment, reads_bind, reads_accept?]
  refine ⟨.read name, equals :: (used ++ rest), ?_, some equals, used ++ rest,
    .inl ⟨equals, rfl, rfl, by simp [hequals]⟩, ?_⟩
  · exact name_complete hname (bound + 1) stop _ (by simp) hnext
  · exact reads_bind.2 ⟨value, rest, hvalue stop rest hrest, reads_pure.2 ⟨rfl, rfl⟩⟩

/-- An expression without an equals sign behind it is read as an assignment that is none. -/
theorem noAssign_complete {bound : Nat} {used : List Token} {e : Expr}
    (hlength : used.length ≤ bound + 1) (h : CompleteFor bound (.level .logicOr) used e) :
    CompleteFor bound .assignment used e := by
  intro depth stop rest _ hrest
  have hequal : NextNot [.equal] rest := hrest.mono (by simp [Symbol.continues])
  have hlevel : NextNot (Symbol.level .logicOr).continues rest :=
    hrest.mono (List.subset_cons_self _ _)
  simp only [Symbol.parser_assignment, Parser.assignment, reads_bind, reads_accept?]
  exact ⟨e, rest, h (bound + 1) stop rest hlength hlevel, none, rest, .inr ⟨rfl, rfl, hequal⟩,
    reads_pure.2 ⟨rfl, rfl⟩⟩

/-- The tokens of a derivation are read by the parser of its symbol. -/
theorem DerivesExpr.complete {symbol : Symbol} {used : List Token} {e : Expr}
    (h : DerivesExpr symbol used e) :
    ∀ bound, used.length ≤ bound + 1 → CompleteFor bound symbol used e := by
  -- A bound for the tokens inside brackets or behind an equals sign is one more than another bound.
  have inner : ∀ {used : List Token} {e : Expr} {bound : Nat}, used.length < bound →
      (∀ bound, used.length ≤ bound + 1 → CompleteFor bound .assignment used e) →
      ∀ stop rest, NextNot Symbol.assignment.continues rest →
        Reads (Parser.expression bound) stop (used ++ rest) e rest := by
    intro used e bound hlt ih stop rest hrest
    obtain ⟨bound, rfl⟩ : ∃ b, bound = b + 1 := ⟨bound - 1, by omega⟩
    exact ih bound (by omega) used.length stop rest (Nat.le_refl _) hrest
  induction h with
  | assign hname hequals _ ih =>
    intro bound hlength
    simp only [List.length_cons] at hlength
    exact assign_complete hname hequals (inner (by omega) ih)
  | noAssign _ ih => exact fun bound hlength => noAssign_complete hlength (ih bound hlength)
  | repetition l more _ hoperator _ ihfirst ihmore =>
    intro bound hlength
    have hlengths := (length_operands more).2
    have htotal := hlength
    rw [List.length_append] at htotal
    exact level_complete more hlength (ihfirst bound (by omega)) hoperator
      fun o ho => ihmore o ho bound (Nat.le_trans (hlengths o ho) (by omega))
  | unary hoperator _ ih =>
    intro bound hlength
    exact unary_complete hoperator (ih bound (Nat.le_of_succ_le hlength))
  | noUnary h ih => exact fun bound hlength => noUnary_complete h (ih bound hlength)
  | number h => exact fun _ _ => primary_complete_single (.number h)
  | string h => exact fun _ _ => primary_complete_single (.string h)
  | trueWord h => exact fun _ _ => primary_complete_single (.trueWord h)
  | falseWord h => exact fun _ _ => primary_complete_single (.falseWord h)
  | nullWord h => exact fun _ _ => primary_complete_single (.nullWord h)
  | read h => exact fun _ _ => primary_complete_single (.read h)
  | grouping hleft _ hright ih =>
    intro bound hlength
    simp only [List.length_append, List.length_cons, List.length_nil] at hlength
    exact grouping_complete hleft hright (inner (by omega) ih)

/-- The kinds of tokens that can go on with an expression. -/
abbrev expressionContinues : List Kind :=
  Symbol.assignment.continues

/-- An expression is read, if the bound reaches the number of its tokens and the next token cannot go on
with it. -/
theorem expression_complete {used : List Token} {e : Expr} (h : Expression used e) (bound : Nat)
    (stop : Token) (rest : List Token) (hbound : used.length ≤ bound)
    (hrest : NextNot expressionContinues rest) :
    Reads (Parser.expression bound) stop (used ++ rest) e rest := by
  have hpos := h.length_pos
  obtain ⟨bound, rfl⟩ : ∃ b, bound = b + 1 := ⟨bound - 1, by omega⟩
  exact h.complete bound hbound used.length stop rest (Nat.le_refl _) hrest

end Grammar

end LoxLang
