import LoxLang.Proofs.Parse.Rows

/-!
# Words and the nodes they make

The words `var`, `for`, `if`, `while` and `print` each begin a declaration or a statement, and each makes one
node of the tree that is read. A reading without a fault has as many such nodes as there are words
(`DerivesStmt.wordNodes_eq`, by induction on the derivation). A reading with faults may have fewer, since
recovery drops words, but never more: `Weighs` is the calculus for that, with one rule for each combinator.
A parser is given a credit and may return a tree that is worth no more than the credit and the words it has
taken; a word that is dropped before a parser is called adds to that parser's credit.
-/

namespace LoxLang

open LoxLang.Parser

/-! ## Nodes that a word begins -/

/-- The words that begin a declaration or a statement of their own. -/
def statementWords : List Kind :=
  [.varWord, .forWord, .ifWord, .whileWord, .printWord]

/-- How many tokens are such words. -/
def wordCount (tokens : List Token) : Nat :=
  tokens.countP (·.kind ∈ statementWords)

@[simp] theorem wordCount_nil : wordCount [] = 0 :=
  rfl

/-- Words are counted in both parts. -/
@[simp] theorem wordCount_append (tokens more : List Token) :
    wordCount (tokens ++ more) = wordCount tokens + wordCount more :=
  List.countP_append

/-- The first token counts if it is such a word. -/
theorem wordCount_cons (t : Token) (rest : List Token) :
    wordCount (t :: rest) = wordCount rest + if t.kind ∈ statementWords then 1 else 0 := by
  simp [wordCount, List.countP_cons]

/-- Such a word before other tokens counts one. -/
theorem wordCount_cons_of_mem {t : Token} (h : t.kind ∈ statementWords) (rest : List Token) :
    wordCount (t :: rest) = wordCount rest + 1 := by
  rw [wordCount_cons, if_pos h]

/-- A token of another kind before other tokens counts nothing. -/
theorem wordCount_cons_of_kind {t : Token} {kind : Kind} (ht : t.kind = kind)
    (hkind : kind ∉ statementWords) (rest : List Token) :
    wordCount (t :: rest) = wordCount rest := by
  rw [wordCount_cons, if_neg (ht ▸ hkind), Nat.add_zero]

/-- An end of a list has no more words than the list. -/
theorem wordCount_le_of_suffix {tokens rest : List Token} (h : rest <:+ tokens) :
    wordCount rest ≤ wordCount tokens :=
  h.sublist.countP_le

/-- Parts without words have none together. -/
theorem wordCount_flatMap_eq_zero {α : Type} {parts : List α} {tokens : α → List Token}
    (h : ∀ a ∈ parts, wordCount (tokens a) = 0) : wordCount (parts.flatMap tokens) = 0 := by
  induction parts with
  | nil => rfl
  | cons a parts ih =>
    obtain ⟨ha, hparts⟩ := List.forall_mem_cons.1 h
    rw [List.flatMap_cons, wordCount_append, ha, ih hparts]

namespace Stmt

mutual

/-- How many nodes of a statement are read behind a word. -/
def wordNodes : Stmt → Nat
  | expression _ => 0
  | print _ | declare _ _ => 1
  | block body => wordNodesAll body
  | ifThen _ yes => yes.wordNodes + 1
  | ifThenElse _ yes no => yes.wordNodes + no.wordNodes + 1
  | whileLoop _ body => body.wordNodes + 1

/-- `wordNodes` over a list of statements. -/
def wordNodesAll : List Stmt → Nat
  | [] => 0
  | s :: rest => s.wordNodes + wordNodesAll rest

end

/-- Two lists of statements in a row have the nodes of both. -/
theorem wordNodesAll_append (body more : List Stmt) :
    wordNodesAll (body ++ more) = wordNodesAll body + wordNodesAll more := by
  induction body with
  | nil => simp [wordNodesAll]
  | cons s rest ih => rw [List.cons_append, wordNodesAll, wordNodesAll, ih, Nat.add_assoc]

/-- The statement that a `for` stands for has the node of its loop and those of its parts. -/
theorem wordNodes_forLoop (initial : Option Stmt) (condition increment : Option Expr) (body : Stmt) :
    (forLoop initial condition increment body).wordNodes =
      wordNodesAll initial.toList + body.wordNodes + 1 := by
  cases initial <;> cases increment <;>
    simp [forLoop, withInitial, withIncrement, wordNodes, wordNodesAll, Nat.add_assoc]

end Stmt

namespace Grammar

/-- No word that begins a statement stands in an expression. -/
theorem DerivesExpr.wordCount_eq_zero {symbol : Symbol} {used : List Token} {e : Expr}
    (h : DerivesExpr symbol used e) : wordCount used = 0 := by
  induction h with
  | assign hname hequals _ ih =>
    rw [wordCount_cons_of_kind hname (by decide), wordCount_cons_of_kind hequals (by decide), ih]
  | noAssign _ ih | noUnary _ ih => exact ih
  | repetition l more _ hoperator _ ih ihmore =>
    have hwords : ∀ l : Ladder, ∀ kind ∈ l.operators, kind ∉ statementWords := by
      rintro (_ | _ | _ | _ | _ | _) <;> decide
    have hmore : wordCount (more.flatMap Operand.span) = 0 := by
      refine wordCount_flatMap_eq_zero fun o ho => ?_
      rw [Operand.span, wordCount_cons_of_kind rfl (hwords l _ (hoperator o ho)), ihmore o ho]
    rw [wordCount_append, ih, hmore]
  | unary hoperator _ ih =>
    have hwords : ∀ kind ∈ [Kind.bang, .minus], kind ∉ statementWords := by decide
    rw [wordCount_cons_of_kind rfl (hwords _ hoperator), ih]
  | number h | string h | trueWord h | falseWord h | nullWord h | read h =>
    exact wordCount_cons_of_kind h (by decide) []
  | grouping hleft _ hright ih =>
    rw [wordCount_append, wordCount_cons_of_kind hleft (by decide), ih,
      wordCount_cons_of_kind hright (by decide)]
    rfl

/-- An expression that may be missing has no words, since none of them stands in expressions. -/
theorem OptionalExpression.wordCount_eq_zero {used : List Token} {o : Option Expr}
    (h : OptionalExpression used o) : wordCount used = 0 := by
  cases h with
  | absent => rfl
  | present he => exact he.wordCount_eq_zero

/-- A declaration of a variable has the one node of its `var`. -/
theorem VarDecl.wordNodes_eq {used : List Token} {s : Stmt} (h : VarDecl used s) :
    s.wordNodes = wordCount used := by
  cases h with
  | mk hvar hname hinitial hsemicolon =>
    cases hinitial with
    | absent => simp [Stmt.wordNodes, wordCount_cons, statementWords, hvar, hname, hsemicolon]
    | present hequals he =>
      simp [Stmt.wordNodes, wordCount_cons, statementWords, hvar, hname, hequals, hsemicolon,
        he.wordCount_eq_zero]

/-- An expression statement has neither words nor nodes behind words. -/
theorem ExprStmt.wordNodes_eq {used : List Token} {s : Stmt} (h : ExprStmt used s) :
    s.wordNodes = wordCount used := by
  cases h with
  | mk he hsemicolon =>
    simp [Stmt.wordNodes, wordCount_cons, statementWords, he.wordCount_eq_zero, hsemicolon]

/-- The first clause of a `for` statement has a node for each of its words, as the statement that it is. -/
theorem ForInitial.wordNodes_eq {used : List Token} {o : Option Stmt} (h : ForInitial used o) :
    Stmt.wordNodesAll o.toList = wordCount used := by
  cases h with
  | absent hk => simp [Stmt.wordNodesAll, wordCount_cons, statementWords, hk]
  | varDecl h => simp [Stmt.wordNodesAll, h.wordNodes_eq]
  | exprStmt h => simp [Stmt.wordNodesAll, h.wordNodes_eq]

/-- Declarations in a row have the nodes of their words if each of them has. -/
theorem wordNodesAll_parts {parts : List (List Token × Stmt)}
    (h : ∀ p ∈ parts, p.2.wordNodes = wordCount p.1) :
    Stmt.wordNodesAll (parts.map Prod.snd) = wordCount (parts.flatMap Prod.fst) := by
  induction parts with
  | nil => rfl
  | cons p parts ih =>
    obtain ⟨hp, hparts⟩ := List.forall_mem_cons.1 h
    rw [List.map_cons, List.flatMap_cons, Stmt.wordNodesAll, wordCount_append, hp, ih hparts]

/-- In a derivation each word makes one node. -/
theorem DerivesStmt.wordNodes_eq {rule : ElseRule} {form : Form} {used : List Token} {s : Stmt}
    (h : DerivesStmt rule form used s) : s.wordNodes = wordCount used := by
  induction h with
  | varDecl h => exact h.wordNodes_eq
  | statement _ ih => exact ih
  | exprStmt h => exact h.wordNodes_eq
  | printStmt hword he hsemicolon =>
    simp [Stmt.wordNodes, wordCount_cons, statementWords, hword, he.wordCount_eq_zero, hsemicolon]
  | block parts hleft _ hright ih =>
    simp [Stmt.wordNodes, wordCount_cons, statementWords, hleft, hright, wordNodesAll_parts ih]
  | ifThen hword hleft hcondition hright _ ih | whileStmt hword hleft hcondition hright _ ih =>
    simp [Stmt.wordNodes, wordCount_cons, statementWords, hword, hleft, hright, ih,
      hcondition.wordCount_eq_zero]
  | ifThenElse hword hleft hcondition hright _ _ hother _ ihyes ihno =>
    simp [Stmt.wordNodes, wordCount_cons, statementWords, hword, hleft, hright, hother, ihyes, ihno,
      hcondition.wordCount_eq_zero]
  | forStmt hword hleft hinitial hcondition hsemicolon hincrement hright _ ih =>
    rw [forTree_eq_forLoop, Stmt.wordNodes_forLoop, hinitial.wordNodes_eq, ih]
    simp [wordCount_cons, statementWords, hword, hleft, hsemicolon, hright,
      hcondition.wordCount_eq_zero, hincrement.wordCount_eq_zero]

end Grammar

/-! ## No reading makes more nodes than there are words -/

namespace Parser

section
variable {α β : Type} {size credit : Nat} {value : α → Nat} {value' : β → Nat}

/-- From the given tokens, the parser leaves an end of them, and what it returns has no more value than the
credit and the words that are gone. -/
structure WeighsAt (credit : Nat) (p : Parser α) (value : α → Nat) (tokens : List Token) : Prop where
  suffix : ∀ stop, (p stop tokens).rest <:+ tokens
  le : ∀ stop a, (p stop tokens).result = .ok a →
    value a + wordCount (p stop tokens).rest ≤ credit + wordCount tokens

/-- The same from all token lists of at most `size` tokens. -/
def Weighs (size credit : Nat) (p : Parser α) (value : α → Nat) : Prop :=
  ∀ tokens, tokens.length ≤ size → WeighsAt credit p value tokens

/-- A result of no more value than the credit is within it. -/
theorem weighs_pure {a : α} (h : value a ≤ credit) : Weighs size credit (pure a) value := by
  intro tokens _
  refine ⟨fun _ => List.suffix_rfl, fun stop => ?_⟩
  rintro _ ⟨⟩
  exact Nat.add_le_add_right h _

/-- A parser that fails returns nothing of value. -/
theorem weighs_fail (cause : ParseCause) : Weighs size credit (fail cause) value :=
  fun _ _ => ⟨fun _ => List.suffix_rfl, fun _ _ h => nomatch h⟩

/-- A parser that only takes tokens keeps the credit. -/
theorem Local.weighs {P : Token → Prop} {least : Nat} {p q : Parser α} (h : Local P least size p q)
    (credit : Nat) : Weighs size credit p fun _ => credit := by
  intro tokens htokens
  have hsuffix : ∀ stop, (p stop tokens).rest <:+ tokens := by
    intro stop
    obtain ⟨used, hused, -⟩ := (h tokens htokens).taken stop
    exact ⟨used, hused.symm⟩
  exact ⟨hsuffix, fun stop _ _ => Nat.add_le_add_left (wordCount_le_of_suffix (hsuffix stop)) _⟩

/-- The rule for two parsers in a row: what the first one returns is the credit of the second. -/
theorem Weighs.bind {p : Parser α} {f : α → Parser β} (hp : Weighs size credit p value)
    (hf : ∀ a, Weighs size (value a) (f a) value') : Weighs size credit (p >>= f) value' := by
  intro tokens htokens
  obtain ⟨hrest, hvalue⟩ := hp tokens htokens
  constructor
  · intro stop
    have hrest := hrest stop
    rcases hfirst : p stop tokens with ⟨fault | a, reports, rest⟩ <;> rw [hfirst] at hrest
    · rw [bind_of_error hfirst]
      exact hrest
    · rw [bind_of_ok hfirst]
      exact ((hf a rest (Nat.le_trans hrest.length_le htokens)).suffix stop).trans hrest
  · intro stop b hb
    have hrest := hrest stop
    have hvalue := hvalue stop
    rcases hfirst : p stop tokens with ⟨fault | a, reports, rest⟩ <;> rw [hfirst] at hrest hvalue
    · rw [bind_of_error hfirst] at hb
      cases hb
    · rw [bind_of_ok hfirst] at hb ⊢
      have hsecond := hf a rest (Nat.le_trans hrest.length_le htokens)
      exact Nat.le_trans (hsecond.le stop b hb) (hvalue a rfl)

/-- The rule for a parser that looks at the kind of the next token. -/
theorem weighs_peekKind? {f : Option Kind → Parser α}
    (h : ∀ tokens, tokens.length ≤ size →
      WeighsAt credit (f (tokens.head?.map Token.kind)) value tokens) :
    Weighs size credit (peekKind? >>= f) value :=
  fun tokens htokens => ⟨(h tokens htokens).suffix, (h tokens htokens).le⟩

/-- A word that is dropped adds to the credit of the parser behind it. -/
theorem Weighs.behindWord {p : Parser α} (h : Weighs size (credit + 1) p value) {word : Token}
    {rest : List Token} (hword : word.kind ∈ statementWords) (hrest : rest.length ≤ size) :
    WeighsAt credit (do skip; p) value (word :: rest) := by
  obtain ⟨hsuffix, hle⟩ := h rest hrest
  refine ⟨fun stop => (hsuffix stop).trans (List.suffix_cons word rest), fun stop a ha => ?_⟩
  have hle := hle stop a ha
  rw [wordCount_cons_of_mem hword]
  show value a + wordCount (p stop rest).rest ≤ _
  omega

/-- Another token that is dropped adds nothing. -/
theorem Weighs.behindSkip {p : Parser α} (h : Weighs size credit p value) {t : Token}
    {rest : List Token} (hrest : rest.length ≤ size) :
    WeighsAt credit (do skip; p) value (t :: rest) := by
  obtain ⟨hsuffix, hle⟩ := h rest hrest
  refine ⟨fun stop => (hsuffix stop).trans (List.suffix_cons t rest), fun stop a ha => ?_⟩
  have hwords := wordCount_le_of_suffix (List.suffix_cons t rest)
  exact Nat.le_trans (hle stop a ha) (Nat.add_le_add_left hwords credit)

end

/-- With every credit, the statement that is returned has no more nodes that a word begins than words
are gone. -/
def WeighsStmt (size : Nat) (p : Parser Stmt) : Prop :=
  ∀ credit, Weighs size credit p fun s => credit + s.wordNodes

section
variable {size bound : Nat} {inner : Parser Stmt}

/-- An expression statement is worth nothing, so every credit suffices. -/
theorem expressionStatement_weighs (hbound : size ≤ bound) :
    WeighsStmt size (expressionStatement bound) := fun credit =>
  ((expression_local hbound hbound).weighs credit).bind fun _ =>
    ((expect_local _ _).weighs credit).bind fun _ => weighs_pure (Nat.le_refl credit)

/-- A print statement is worth one, which the word before it is the credit for. -/
theorem printStatement_weighs (hbound : size ≤ bound) (credit : Nat) :
    Weighs size (credit + 1) (printStatement bound) fun s => credit + s.wordNodes :=
  ((expression_local hbound hbound).weighs _).bind fun _ =>
    ((expect_local _ _).weighs _).bind fun _ => weighs_pure (Nat.le_refl _)

/-- A declaration of a variable is worth one, which its `var` is the credit for. -/
theorem varDeclaration_weighs (hbound : size ≤ bound) (credit : Nat) :
    Weighs size (credit + 1) (varDeclaration bound) fun s => credit + s.wordNodes :=
  ((expect_local _ _).weighs _).bind fun _ =>
    ((initializer?_local hbound hbound).weighs _).bind fun _ =>
      ((expect_local _ _).weighs _).bind fun _ => weighs_pure (Nat.le_refl _)

/-- The first clause of a `for` statement is worth no more than its words: its own `var` pays for a declaration. -/
theorem forInitial_weighs (hbound : size ≤ bound) (credit : Nat) :
    Weighs size credit (forInitial bound) fun o => credit + Stmt.wordNodesAll o.toList := by
  refine weighs_peekKind? fun tokens htokens => ?_
  split
  · next hk =>
    obtain ⟨t, rest, rfl, -⟩ := head?_kind_eq_some_iff.1 hk
    exact (weighs_pure (Nat.le_refl credit)).behindSkip (Nat.le_of_succ_le htokens)
  · next hk =>
    obtain ⟨t, rest, rfl, hvar⟩ := head?_kind_eq_some_iff.1 hk
    refine Weighs.behindWord ?_ (by rw [hvar]; decide) (Nat.le_of_succ_le htokens)
    exact (varDeclaration_weighs hbound credit).bind fun s => weighs_pure (Nat.le_refl _)
  · refine Weighs.bind (expressionStatement_weighs hbound credit) (fun s => ?_) tokens htokens
    exact weighs_pure (Nat.le_refl _)

/-- A `for` statement is worth one more than its clauses and its body, which the word before it is the credit for.
-/
theorem forStatement_weighs (hbound : size ≤ bound) (h : WeighsStmt size inner) (credit : Nat) :
    Weighs size (credit + 1) (forStatement bound inner) fun s => credit + s.wordNodes := by
  refine ((expect_local _ _).weighs _).bind fun _ => (forInitial_weighs hbound _).bind fun initial => ?_
  refine ((optionalExpression_local _ hbound hbound).weighs _).bind fun condition => ?_
  refine ((expect_local _ _).weighs _).bind fun _ => ?_
  refine ((optionalExpression_local _ hbound hbound).weighs _).bind fun increment => ?_
  refine ((expect_local _ _).weighs _).bind fun _ => (h _).bind fun body => weighs_pure ?_
  rw [Stmt.wordNodes_forLoop]
  omega

/-- An `if` statement is worth one more than its branches, which the word before it is the credit for. -/
theorem ifStatement_weighs (hbound : size ≤ bound) (h : WeighsStmt size inner) (credit : Nat) :
    Weighs size (credit + 1) (ifStatement bound inner) fun s => credit + s.wordNodes := by
  refine ((expect_local _ _).weighs _).bind fun _ => ?_
  refine ((expression_local hbound hbound).weighs _).bind fun condition => ?_
  refine ((expect_local _ _).weighs _).bind fun _ => (h _).bind fun yes => ?_
  refine ((accept?_local [.elseWord]).weighs _).bind fun other => ?_
  cases other with
  | none =>
    refine weighs_pure ?_
    rw [Stmt.wordNodes]
    omega
  | some _ =>
    refine (h _).bind fun no => weighs_pure ?_
    rw [Stmt.wordNodes]
    omega

/-- A `while` statement is worth one more than its body, which the word before it is the credit for. -/
theorem whileStatement_weighs (hbound : size ≤ bound) (h : WeighsStmt size inner) (credit : Nat) :
    Weighs size (credit + 1) (whileStatement bound inner) fun s => credit + s.wordNodes := by
  refine ((expect_local _ _).weighs _).bind fun _ => ?_
  refine ((expression_local hbound hbound).weighs _).bind fun condition => ?_
  refine ((expect_local _ _).weighs _).bind fun _ => (h _).bind fun body => weighs_pure ?_
  rw [Stmt.wordNodes]
  omega

/-- A declaration is worth no more than its words if the statements in it are. -/
theorem declaration_weighs (hbound : size ≤ bound) (h : WeighsStmt size inner) :
    WeighsStmt size (declaration bound inner) := by
  intro credit
  refine weighs_peekKind? fun tokens htokens => ?_
  split
  · next hk =>
    obtain ⟨t, rest, rfl, hvar⟩ := head?_kind_eq_some_iff.1 hk
    exact (varDeclaration_weighs hbound credit).behindWord (by rw [hvar]; decide)
      (Nat.le_of_succ_le htokens)
  · exact h credit tokens htokens

/-- What recovery drops adds nothing. -/
theorem WeighsStmt.recovering {one : Parser Stmt} (h : WeighsStmt size one) (credit : Nat) :
    Weighs size credit (recovering one) fun o => credit + Stmt.wordNodesAll o.toList := by
  intro tokens htokens
  obtain ⟨hrest, hle⟩ := h credit tokens htokens
  have hsuffix : ∀ stop, (Parser.recovering one stop tokens).rest <:+ tokens := by
    intro stop
    have hrest := hrest stop
    rcases hfirst : one stop tokens with ⟨fault | s, reports, rest⟩ <;> rw [hfirst] at hrest
    · rw [recovering_of_error hfirst]
      obtain ⟨used, hused, -⟩ := synchronize_suffix rest
      exact List.IsSuffix.trans ⟨used, hused.symm⟩ hrest
    · rw [recovering_of_ok hfirst]
      exact hrest
  refine ⟨hsuffix, fun stop o ho => ?_⟩
  have hwords := wordCount_le_of_suffix (hsuffix stop)
  have hle := hle stop
  rcases hfirst : one stop tokens with ⟨fault | s, reports, rest⟩ <;> rw [hfirst] at hle
  · rw [recovering_of_error hfirst] at ho hwords ⊢
    cases ho
    exact Nat.add_le_add_left hwords credit
  · rw [recovering_of_ok hfirst] at ho ⊢
    cases ho
    exact hle s rfl

/-- A row of declarations is worth no more than the words of those that were read. What recovery drops only lowers
what is owed. -/
theorem declarations_weighs (closing : List Kind) {one : Parser Stmt} (h : WeighsStmt size one)
    (bound credit : Nat) : Weighs size credit (declarations closing one bound)
      fun trees => credit + Stmt.wordNodesAll trees := by
  induction bound generalizing credit with
  | zero => exact weighs_pure (Nat.le_refl credit)
  | succ bound ih =>
    refine weighs_peekKind? fun tokens htokens => ?_
    cases tokens with
    | nil => exact weighs_pure (Nat.le_refl credit) [] htokens
    | cons t rest =>
      dsimp only [List.head?_cons, Option.map_some]
      split
      · exact weighs_pure (Nat.le_refl credit) (t :: rest) htokens
      · refine ((h.recovering credit).bind fun first => (ih _).bind fun others => ?_) _ htokens
        refine weighs_pure (Nat.le_of_eq ?_)
        rw [Stmt.wordNodesAll_append, Nat.add_assoc]

/-- A block is worth what stands in it. -/
theorem block_weighs (hbound : size ≤ bound) (h : WeighsStmt size inner) :
    WeighsStmt size (block bound inner) := by
  intro credit
  refine (declarations_weighs _ (declaration_weighs hbound h) bound credit).bind fun body => ?_
  exact ((expect_local _ _).weighs _).bind fun _ => weighs_pure (Nat.le_refl _)

/-- A statement has no more nodes that a word begins than words are gone from the tokens. -/
theorem statement_weighs (bound : Nat) : WeighsStmt bound (statement bound) := by
  induction bound with
  | zero => exact fun credit => weighs_fail _
  | succ bound ih =>
    intro credit
    refine weighs_peekKind? fun tokens htokens => ?_
    split
    case h_6 => exact expressionStatement_weighs (Nat.le_refl _) credit tokens htokens
    all_goals
      rename_i hk
      obtain ⟨word, rest, rfl, hword⟩ := head?_kind_eq_some_iff.1 hk
      have hrest : rest.length ≤ bound := Nat.le_of_succ_le_succ htokens
    · exact (forStatement_weighs (Nat.le_refl _) ih credit).behindWord (by rw [hword]; decide) hrest
    · exact (ifStatement_weighs (Nat.le_refl _) ih credit).behindWord (by rw [hword]; decide) hrest
    · exact (whileStatement_weighs (Nat.le_refl _) ih credit).behindWord (by rw [hword]; decide) hrest
    · exact (block_weighs (Nat.le_refl _) ih credit).behindSkip hrest
    · exact (printStatement_weighs (Nat.le_refl _) credit).behindWord (by rw [hword]; decide) hrest

end

end Parser

/-- What is read of a list with an end mark behind it has none in it, and stops at one. -/
theorem Stream.no_mark_of_ofTokens? {tokens : List Token} {mark : Token} {stream : Stream}
    (hmark : mark.kind = .eof) (h : Stream.ofTokens? (tokens ++ [mark]) = some stream) :
    (∀ t ∈ stream.body, t.kind ≠ .eof) ∧ stream.stop.kind = .eof := by
  obtain ⟨last, -, rfl⟩ := Option.map_eq_some_iff.1 h
  refine ⟨fun t ht => ?_, ?_⟩
  · simpa using List.all_eq_true.1 List.all_takeWhile t ht
  · obtain ⟨t, ht⟩ : ∃ t, (tokens ++ [mark]).find? (·.kind = .eof) = some t := by
      refine Option.isSome_iff_exists.1 (List.find?_isSome.2 ⟨mark, by simp, ?_⟩)
      simpa using hmark
    rw [ht]
    simpa using List.find?_some ht

namespace Parse

/-! ## Words in programs -/

/-- In a program that is read without a fault each word makes one node. -/
theorem wordNodesAll_program_of_clean {tokens : List Token} {mark : Token} {stream : Stream}
    (hmark : mark.kind = .eof) (h : Stream.ofTokens? (tokens ++ [mark]) = some stream)
    (hclean : (program (tokens ++ [mark])).2 = []) :
    Stmt.wordNodesAll (program (tokens ++ [mark])).1 = wordCount stream.body := by
  obtain ⟨hbody, hstop⟩ := Stream.no_mark_of_ofTokens? hmark h
  have hcut : program (tokens ++ [mark]) = program (stream.body ++ [stream.stop]) := by
    rw [program, program, h, Stream.ofTokens?_append_mark hbody hstop]
  rw [hcut] at hclean ⊢
  obtain ⟨parts, hparts, htrees, hder⟩ :=
    (Grammar.parse_program_iff hbody hstop).1 (Prod.ext rfl hclean)
  have htrees : (program (stream.body ++ [stream.stop])).1 = parts.map Prod.snd := htrees
  rw [htrees, hparts]
  exact Grammar.wordNodesAll_parts fun p hp => (hder p hp).wordNodes_eq

/-- A row has no more nodes that a word begins than there are words. -/
theorem wordNodesAll_le_of_row {size : Nat} {stop : Token} {tokens : List Token} {trees : List Stmt}
    {reports : List ParseFault} (hsize : tokens.length ≤ size)
    (h : Row size stop tokens trees reports) : Stmt.wordNodesAll trees ≤ wordCount tokens := by
  obtain ⟨rest, hrest⟩ := h tokens.length (Nat.le_refl _)
  have hone := declaration_weighs (Nat.le_refl size) (statement_weighs size)
  have hle := (declarations_weighs [] hone tokens.length 0 tokens hsize).le stop trees
  rw [hrest] at hle
  have hle := hle rfl
  omega

end Parse

end LoxLang
