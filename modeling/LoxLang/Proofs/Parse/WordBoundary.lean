import LoxLang.Proofs.Parse.Recovery
import LoxLang.Proofs.Parse.Words

/-!
# Recovery before a word that begins a statement

Tokens with no semicolon and no such word among them (`Plain`) are given up before a program that a word
begins. `program_append_word_iff` says when the program behind them is read as if it stood alone: exactly if
the tokens, read alone, are blamed at one of their own and not at their end. Where only the end is missed, as
behind an expression without its semicolon, it is the word that is blamed, and recovery drops it.

Two facts carry this. A token that stands in no expression is to the parser of an expression what the end
is (`Sealed`), so plain tokens are read before a word as they are read alone. And no reading has more nodes
that a word begins than there are words left (`wordNodesAll_le_of_row`), so a reading that has dropped a word
is never that of all tokens.
-/

namespace LoxLang

open LoxLang.Parser

/-- The outcome of a reading that sees a token in place of the end. -/
def Outcome.sealed {α : Type} (o : Outcome α) (word : Token) (more : List Token) : Outcome α :=
  ⟨o.result.mapError fun fault => ⟨fault.cause, o.rest.headD word⟩, o.reports, o.rest ++ word :: more⟩

namespace Parser

variable {α β : Type} {kinds : List Kind} {tokens : List Token}

/-! ## The end of an expression -/

/-- From the given tokens, the parser blames the next one if it stops, and a token that is not of the given
kinds is to it what the end is. -/
structure SealedAt (kinds : List Kind) (p : Parser α) (tokens : List Token) : Prop where
  blames : ∀ stop fault, (p stop tokens).result = .error fault →
    fault.token = (p stop tokens).rest.headD stop
  same : ∀ stop stop' word more, word.kind ∉ kinds →
    p stop' (tokens ++ word :: more) = (p stop tokens).sealed word more

/-- The same from all token lists. -/
def Sealed (kinds : List Kind) (p : Parser α) : Prop :=
  ∀ tokens, SealedAt kinds p tokens

/-- A result of its own does not look at the end. -/
theorem sealed_pure (a : α) : Sealed kinds (pure a) :=
  fun _ => ⟨fun _ _ h => (nomatch h), fun _ _ _ _ _ => rfl⟩

/-- A report does not look at the end. -/
theorem sealed_report (cause : ParseCause) (t : Token) : Sealed kinds (report cause t) :=
  fun _ => ⟨fun _ _ h => (nomatch h), fun _ _ _ _ _ => rfl⟩

/-- A fault blames the next token, which is the sealing one where there is no other. -/
theorem sealed_fail (cause : ParseCause) : Sealed kinds (fail (α := α) cause) := by
  intro tokens
  constructor
  · rintro stop _ ⟨⟩
    rfl
  · intro stop stop' word more _
    cases tokens <;> rfl

/-- The rule for two parsers in a row. -/
theorem Sealed.bind {p : Parser α} {f : α → Parser β} (hp : Sealed kinds p)
    (hf : ∀ a, Sealed kinds (f a)) : Sealed kinds (p >>= f) := by
  intro tokens
  have hsame := (hp tokens).same
  constructor
  · intro stop fault hfault
    rcases hfirst : p stop tokens with ⟨fault' | a, reports, rest⟩
    · have hblames := (hp tokens).blames stop
      rw [hfirst] at hblames
      rw [bind_of_error hfirst] at hfault ⊢
      cases hfault
      exact hblames fault rfl
    · rw [bind_of_ok hfirst] at hfault ⊢
      exact (hf a rest).blames stop fault hfault
  · intro stop stop' word more hword
    have hlong := hsame stop stop' word more hword
    rcases hfirst : p stop tokens with ⟨fault | a, reports, rest⟩ <;> rw [hfirst] at hlong
    · rw [bind_of_error hfirst]
      exact bind_of_error hlong
    · rw [bind_of_ok hfirst, bind_of_ok hlong, (hf a rest).same stop stop' word more hword]
      rfl

/-- A token of another kind is no more accepted than the end is. -/
theorem sealed_accept? {taken : List Kind} (htaken : taken ⊆ kinds) : Sealed kinds (accept? taken) := by
  intro tokens
  cases tokens with
  | nil =>
    refine ⟨fun stop fault => ?_, fun stop stop' word more hword => ?_⟩
    · rintro ⟨⟩
    · show accept? taken stop' (word :: more) = ⟨.ok none, [], word :: more⟩
      rw [accept?, if_neg fun h => hword (htaken h)]
  | cons t rest =>
    refine ⟨fun stop fault => ?_, fun stop stop' word more _ => ?_⟩
    · rw [accept?]
      split <;> rintro ⟨⟩
    · rw [List.cons_append, accept?, accept?]
      split <;> rfl

/-- A token of another kind is no more expected than the end is. If it is blamed for that, then in place of the
end. -/
theorem sealed_expect {kind : Kind} (hkind : kind ∈ kinds) (cause : ParseCause) :
    Sealed kinds (expect kind cause) := by
  intro tokens
  cases tokens with
  | nil =>
    refine ⟨fun stop fault => ?_, fun stop stop' word more hword => ?_⟩
    · rintro ⟨⟩
      rfl
    · have hne : word.kind ≠ kind := fun h => hword (h ▸ hkind)
      show expect kind cause stop' (word :: more) = ⟨.error ⟨cause, word⟩, [], word :: more⟩
      rw [expect, if_neg hne]
  | cons t rest =>
    refine ⟨fun stop fault => ?_, fun stop stop' word more _ => ?_⟩
    · rw [expect]
      split
      · rintro ⟨⟩
      · rintro ⟨⟩
        rfl
    · rw [List.cons_append, expect, expect]
      split <;> rfl

/-- To look at the next token is to choose a parser by it; a token of no given kind has to make the choice
that the end makes. -/
theorem sealed_peek? {f : Option Token → Parser α}
    (hsome : ∀ t rest, SealedAt kinds (f (some t)) (t :: rest)) (hnone : SealedAt kinds (f none) [])
    (hword : ∀ word : Token, word.kind ∉ kinds → f (some word) = f none) :
    Sealed kinds (peek? >>= f) := by
  intro tokens
  cases tokens with
  | nil =>
    refine ⟨hnone.blames, fun stop stop' word more hkind => ?_⟩
    show f (some word) stop' (word :: more) = _
    rw [hword word hkind]
    exact hnone.same stop stop' word more hkind
  | cons t rest => exact ⟨(hsome t rest).blames, (hsome t rest).same⟩

/-- A token that is there is dropped. -/
theorem Sealed.behindSkip {p : Parser α} (h : Sealed kinds p) (t : Token) (rest : List Token) :
    SealedAt kinds (do skip; p) (t :: rest) :=
  ⟨(h rest).blames, (h rest).same⟩

/-- A token that is of none of some kinds is of none of fewer. -/
theorem Sealed.mono {kinds' : List Kind} {p : Parser α} (h : Sealed kinds p)
    (hkinds : kinds ⊆ kinds') : Sealed kinds' p :=
  fun tokens => ⟨(h tokens).blames, fun stop stop' word more hword =>
    (h tokens).same stop stop' word more fun hk => hword (hkinds hk)⟩

/-- A primary is sealed by a token that stands in no expression if the expression in its brackets is. -/
theorem primary_sealed {inner : Parser Expr} (h : Sealed expressionKinds inner) :
    Sealed expressionKinds (primary inner) := by
  refine sealed_peek? (fun t rest => ?_) (sealed_fail _ []) fun word hword => ?_
  · dsimp only
    split
    case h_7 =>
      have hright : Sealed expressionKinds (expect .rightParen .parenAfterExpression) :=
        sealed_expect (by decide) _
      exact (h.bind fun e => hright.bind fun _ => sealed_pure _).behindSkip t rest
    case h_8 => exact sealed_fail _ _
    all_goals exact (sealed_pure _).behindSkip t rest
  · -- No token of another kind is a primary expression or begins one.
    dsimp only
    split
    case h_8 => rfl
    all_goals
      next hk =>
      rw [hk] at hword
      exact absurd (by decide) hword

/-- A row of unary operators is sealed by such a token if its operand is. -/
theorem unary_sealed {primary : Parser Expr} (h : Sealed expressionKinds primary) (bound : Nat) :
    Sealed expressionKinds (unary primary bound) := by
  induction bound with
  | zero => exact h
  | succ bound ih =>
    refine (sealed_accept? (by decide)).bind fun operator? => ?_
    cases operator? with
    | none => exact h
    | some operator => exact ih.bind fun right => sealed_pure _

/-- A chain of operators of one level is sealed by such a token if its operands are. -/
theorem chain_sealed {level : Level} (hlevel : level.operators ⊆ expressionKinds)
    {operand : Parser Expr} (h : Sealed expressionKinds operand) (bound : Nat) (left : Expr) :
    Sealed expressionKinds (chain level operand bound left) := by
  induction bound generalizing left with
  | zero => exact sealed_pure left
  | succ bound ih =>
    refine (sealed_accept? hlevel).bind fun operator? => ?_
    cases operator? with
    | none => exact sealed_pure left
    | some operator => exact h.bind fun right => ih _

/-- The levels of infix operators are sealed by such a token if the tightest operand is. -/
theorem infixes_sealed (bound : Nat) {tightest : Parser Expr} (h : Sealed expressionKinds tightest)
    {ls : List Level} (hls : ∀ level ∈ ls, level.operators ⊆ expressionKinds) :
    Sealed expressionKinds (infixes bound tightest ls) := by
  induction ls with
  | nil => exact h
  | cons level tighter ih =>
    obtain ⟨hlevel, htighter⟩ := List.forall_mem_cons.1 hls
    exact (ih htighter).bind fun left => chain_sealed hlevel (ih htighter) bound left

/-- An assignment is sealed by such a token if its target and its value are. -/
theorem assignment_sealed {target inner : Parser Expr} (htarget : Sealed expressionKinds target)
    (hinner : Sealed expressionKinds inner) : Sealed expressionKinds (assignment target inner) := by
  refine htarget.bind fun left => (sealed_accept? (by decide)).bind fun equals? => ?_
  cases equals? with
  | none => exact sealed_pure left
  | some equals =>
    refine hinner.bind fun value => ?_
    cases left with
    | read name => exact sealed_pure _
    | _ => exact (sealed_report _ _).bind fun _ => sealed_pure value

/-- An expression is sealed by a token that stands in no expression. -/
theorem expression_sealed (bound : Nat) : Sealed expressionKinds (expression bound) := by
  induction bound with
  | zero => exact sealed_fail _
  | succ bound ih =>
    have hunary := unary_sealed (primary_sealed ih) (bound + 1)
    exact assignment_sealed (infixes_sealed (bound + 1) hunary levels_subset_expressionKinds) ih

/-- An expression statement ends before a token of no expression, as at the end. -/
theorem expressionStatement_sealed (bound : Nat) :
    Sealed (.semicolon :: expressionKinds) (expressionStatement bound) := by
  have hexpression := (expression_sealed bound).mono (List.subset_cons_self .semicolon _)
  exact hexpression.bind fun _ => (sealed_expect (by decide) _).bind fun _ => sealed_pure _

end Parser

namespace Parse

/-! ## Plain tokens -/

/-- A token that neither ends a statement nor begins one by a word, and is no brace. -/
def Plain (t : Token) : Prop :=
  t.kind ∉ [.semicolon, .leftBrace, .rightBrace, .elseWord, .eof] ∧ beginsStatement t = false

/-- Whether a token is plain can be decided by its kind. -/
instance : DecidablePred Plain :=
  fun _ => inferInstanceAs (Decidable (_ ∧ _))

/-- A word that makes a node of its own begins a statement. -/
theorem beginsStatement_of_mem {t : Token} (h : t.kind ∈ statementWords) : beginsStatement t := by
  have hwords : ∀ kind ∈ statementWords, kind ∈ [Kind.classWord, .funWord, .varWord, .forWord, .ifWord,
    .whileWord, .printWord, .returnWord] := by decide
  exact decide_eq_true (hwords _ h)

/-- A plain token is of none of the kinds that end statements and blocks. -/
theorem Plain.kind_ne {t : Token} (h : Plain t) (kind : Kind)
    (hkind : kind ∈ [Kind.semicolon, .leftBrace, .rightBrace, .elseWord, .eof]) : t.kind ≠ kind :=
  fun heq => h.1 (heq ▸ hkind)

section
variable {size : Nat} {tokens more : List Token}

/-- Plain tokens are read as an expression statement. -/
theorem declaration_eq_expressionStatement (size : Nat) (stop : Token) (more : List Token)
    (hne : tokens ≠ []) (hplain : ∀ t ∈ tokens, Plain t) :
    declaration (size + 1) (statement (size + 1)) stop (tokens ++ more) =
      expressionStatement (size + 1) stop (tokens ++ more) := by
  obtain ⟨t, rest, rfl⟩ := List.exists_cons_of_ne_nil hne
  obtain ⟨ht, -⟩ := List.forall_mem_cons.1 hplain
  have hword : t.kind ∉ .varWord :: openings := by
    have hbrace := ht.kind_ne .leftBrace (by decide)
    have hbegins := ht.2
    simp only [beginsStatement, List.mem_cons, List.not_mem_nil, or_false] at hbegins
    simp only [openings, List.mem_cons, List.not_mem_nil, or_false]
    grind
  rw [List.mem_cons, not_or] at hword
  rw [List.cons_append, declaration_eq_statement (nextNot_cons.2 (by simpa using hword.1)),
    statement_eq_expressionStatement size stop (nextNot_cons.2 hword.2)]

/-- Without a semicolon there is no expression statement. -/
theorem expressionStatement_of_plain (stop : Token) (hsize : tokens.length ≤ size)
    (hplain : ∀ t ∈ tokens, Plain t) :
    ∃ fault reports rest, expressionStatement size stop tokens = ⟨.error fault, reports, rest⟩ ∧
      rest <:+ tokens := by
  obtain ⟨used, hused, -⟩ := (expression_local hsize hsize tokens (Nat.le_refl _)).taken stop
  have hsuffix : (Parser.expression size stop tokens).rest <:+ tokens := ⟨used, hused.symm⟩
  rcases hfirst : Parser.expression size stop tokens with ⟨fault | e, reports, rest⟩ <;>
    rw [hfirst] at hsuffix
  · exact ⟨fault, reports, rest, bind_of_error hfirst, hsuffix⟩
  · have hmissing : ∃ fault, expect .semicolon .semicolonAfterExpression stop rest =
        ⟨.error fault, [], rest⟩ := by
      cases rest with
      | nil => exact ⟨_, rfl⟩
      | cons t rest =>
        have ht := hplain t (hsuffix.subset List.mem_cons_self)
        rw [expect, if_neg (ht.kind_ne .semicolon (by decide))]
        exact ⟨_, rfl⟩
    obtain ⟨fault, hfault⟩ := hmissing
    refine ⟨fault, reports, rest, ?_, hsuffix⟩
    rw [expressionStatement, bind_of_ok hfirst, bind_of_error hfault, List.append_nil]

/-- Recovery drops plain tokens up to the end or a word that begins a statement. -/
theorem skipStatement_of_plain {previous : Token} (hprevious : Plain previous)
    (hplain : ∀ t ∈ tokens, Plain t) (hmore : ∀ t ∈ more.head?, beginsStatement t) :
    skipStatement previous (tokens ++ more) = more := by
  induction tokens generalizing previous with
  | nil =>
    cases more with
    | nil => rfl
    | cons word more => exact if_pos (.inr (hmore word rfl))
  | cons t tokens ih =>
    obtain ⟨ht, htokens⟩ := List.forall_mem_cons.1 hplain
    have hsemicolon := hprevious.kind_ne .semicolon (by decide)
    rw [List.cons_append, skipStatement, if_neg (by simp [hsemicolon, ht.2])]
    exact ih ht htokens

/-- Recovery gives up plain tokens as far as they go, up to a token that begins a statement. -/
theorem synchronize_of_plain (more : List Token) (hne : tokens ≠ []) (hplain : ∀ t ∈ tokens, Plain t)
    (hmore : ∀ t ∈ more.head?, beginsStatement t) : synchronize (tokens ++ more) = more := by
  obtain ⟨t, rest, rfl⟩ := List.exists_cons_of_ne_nil hne
  obtain ⟨ht, hrest⟩ := List.forall_mem_cons.1 hplain
  exact skipStatement_of_plain ht hrest hmore

end

/-! ## Plain tokens are given up -/

section
variable {mark : Token} {tokens rest : List Token} {fault : ParseFault} {reports : List ParseFault}
  {bound : Nat}

/-- The parser of plain tokens that stand alone stops at a token of theirs or at their end. -/
theorem declaration_of_plain (hne : tokens ≠ []) (hplain : ∀ t ∈ tokens, Plain t)
    (hfault : expressionStatement tokens.length mark tokens = ⟨.error fault, reports, rest⟩)
    (hbound : tokens.length ≤ bound) :
    declaration bound (statement bound) mark tokens = ⟨.error fault, reports, rest⟩ := by
  have hpos := List.length_pos_iff.2 hne
  obtain ⟨bound, rfl⟩ : ∃ b, bound = b + 1 := ⟨bound - 1, by omega⟩
  have hdeclaration := declaration_eq_expressionStatement bound mark [] hne hplain
  rw [List.append_nil] at hdeclaration
  have hlocal := expressionStatement_local (Nat.le_refl tokens.length) hbound
  rw [hdeclaration, hlocal.eq (Nat.le_refl _) mark, hfault]

/-- Before a word it stops there as well, and the word is to it what the end is. -/
theorem declaration_of_plain_append_word (hne : tokens ≠ []) (hplain : ∀ t ∈ tokens, Plain t)
    (hfault : expressionStatement tokens.length mark tokens = ⟨.error fault, reports, rest⟩)
    {word : Token} (hword : beginsStatement word) (stop : Token) (more : List Token)
    (hbound : tokens.length ≤ bound) :
    declaration bound (statement bound) stop (tokens ++ word :: more) =
      ⟨.error ⟨fault.cause, rest.headD word⟩, reports, rest ++ word :: more⟩ := by
  have hpos := List.length_pos_iff.2 hne
  obtain ⟨bound, rfl⟩ : ∃ b, bound = b + 1 := ⟨bound - 1, by omega⟩
  have hkinds : ∀ kind ∈ Kind.semicolon :: expressionKinds, kind ∉ [Kind.classWord, .funWord,
    .varWord, .forWord, .ifWord, .whileWord, .printWord, .returnWord] := by decide
  have hkind : word.kind ∉ .semicolon :: expressionKinds :=
    fun hk => hkinds _ hk (by simpa [beginsStatement] using hword)
  have hlocal := expressionStatement_local (Nat.le_refl tokens.length) hbound
  rw [declaration_eq_expressionStatement bound stop _ hne hplain,
    (expressionStatement_sealed (bound + 1) tokens).same mark stop word more hkind,
    hlocal.eq (Nat.le_refl _) mark, hfault]
  rfl

/-- Plain tokens that stand alone are blamed once, behind what is reported in them. -/
theorem program_of_plain (hmark : mark.kind = .eof) (hne : tokens ≠ [])
    (hplain : ∀ t ∈ tokens, Plain t) (hrest : rest <:+ tokens)
    (hfault : expressionStatement tokens.length mark tokens = ⟨.error fault, reports, rest⟩) :
    program (tokens ++ [mark]) = ([], reports ++ [fault]) := by
  have hbody : ∀ t ∈ tokens, t.kind ≠ .eof := fun t ht => (hplain t ht).kind_ne .eof (by decide)
  have hsync : synchronize rest = [] := by
    cases rest with
    | nil => rfl
    | cons t rest =>
      have hall : ∀ u ∈ t :: rest, Plain u := fun u hu => hplain u (hrest.subset hu)
      have h := synchronize_of_plain [] (List.cons_ne_nil t rest) hall nofun
      rwa [List.append_nil] at h
  have hfirst := recovering_of_error (declaration_of_plain hne hplain hfault (Nat.le_refl _))
  rw [hsync] at hfirst
  have hpos : ([] : List Token).length < tokens.length := List.length_pos_iff.2 hne
  have hrow := Row.cons hpos hfirst (row_nil tokens.length mark)
  simp only [List.append_nil, Option.toList_none] at hrow
  exact program_eq_of_row (Stream.ofTokens?_append_mark hbody hmark) (Nat.le_refl _) hrow

/-- If they are blamed at a token of theirs, recovery stops before the word, and what it begins is read. -/
theorem row_append_word (hne : tokens ≠ []) (hplain : ∀ t ∈ tokens, Plain t)
    (hrest : rest <:+ tokens) (hrest' : rest ≠ [])
    (hfault : expressionStatement tokens.length mark tokens = ⟨.error fault, reports, rest⟩)
    {word : Token} (hword : beginsStatement word) {stop : Token} {more : List Token}
    {trees : List Stmt} {others : List ParseFault} (hbound : tokens.length ≤ bound)
    (hmore : Row bound stop (word :: more) trees others) :
    Row bound stop (tokens ++ word :: more) trees
      (reports ++ [⟨fault.cause, rest.headD word⟩] ++ others) := by
  have hfirst := recovering_of_error
    (declaration_of_plain_append_word hne hplain hfault hword stop more hbound)
  have hall : ∀ u ∈ rest, Plain u := fun u hu => hplain u (hrest.subset hu)
  rw [synchronize_of_plain _ hrest' hall (by simpa using hword)] at hfirst
  refine Row.cons ?_ hfirst hmore
  have hpos := List.length_pos_iff.2 hne
  rw [List.length_append]
  omega

/-- If they are blamed at their end, recovery drops the word, so at least one node is missing. -/
theorem exists_row_append_word_lt (hne : tokens ≠ []) (hplain : ∀ t ∈ tokens, Plain t)
    (hfault : expressionStatement tokens.length mark tokens = ⟨.error fault, reports, []⟩)
    {word : Token} (hword : word.kind ∈ statementWords) (stop : Token) {more : List Token}
    (hbound : (tokens ++ word :: more).length ≤ bound) :
    ∃ trees others, Row bound stop (tokens ++ word :: more) trees (reports ++ [⟨fault.cause, word⟩] ++
      others) ∧ Stmt.wordNodesAll trees < wordCount (word :: more) := by
  rw [List.length_append, List.length_cons] at hbound
  have hlength : tokens.length ≤ bound := by omega
  have hfirst := recovering_of_error (declaration_of_plain_append_word hne hplain hfault
    (beginsStatement_of_mem hword) stop more hlength)
  have hsync : synchronize ([] ++ word :: more) = skipStatement word more := rfl
  rw [hsync] at hfirst
  obtain ⟨used, hused⟩ := skipStatement_suffix word more
  have hsuffix : skipStatement word more <:+ more := ⟨used, hused.symm⟩
  have hleft := hsuffix.length_le
  have hsize : (skipStatement word more).length ≤ bound := by omega
  obtain ⟨trees, others, hrow⟩ := exists_row stop hsize
  refine ⟨trees, others, Row.cons ?_ hfirst hrow, ?_⟩
  · rw [List.length_append, List.length_cons]
    omega
  · have hle := wordNodesAll_le_of_row hsize hrow
    have hwords := wordCount_le_of_suffix hsuffix
    rw [wordCount_cons_of_mem hword]
    omega

end

/-- Read alone, the tokens are given up at one of their own and not at their end. -/
def BlamedInside (mark : Token) (tokens : List Token) : Prop :=
  ∃ fault, (program (tokens ++ [mark])).2.getLast? = some fault ∧ fault.token ∈ tokens

/-- Before a program that a word begins, plain tokens are given up with a report. What the word begins is
read as if it stood alone exactly if the tokens are blamed at one of their own; the reports are then those
of the tokens alone. Otherwise the word is blamed, and what it begins is lost. -/
theorem program_append_word_iff {mark word : Token} {tokens more : List Token}
    (hmark : mark.kind = .eof) (hne : tokens ≠ []) (hplain : ∀ t ∈ tokens, Plain t)
    (hword : word.kind ∈ statementWords) (hclean : (program (word :: more ++ [mark])).2 = []) :
    (program (tokens ++ word :: more ++ [mark])).2 ≠ [] ∧
      ((program (tokens ++ word :: more ++ [mark])).1 = (program (word :: more ++ [mark])).1 ↔
        BlamedInside mark tokens) ∧
      (BlamedInside mark tokens →
        (program (tokens ++ word :: more ++ [mark])).2 = (program (tokens ++ [mark])).2) := by
  obtain ⟨fault, reports, rest, hfault, hrest⟩ :=
    expressionStatement_of_plain mark (Nat.le_refl tokens.length) hplain
  have halone := program_of_plain hmark hne hplain hrest hfault
  have hblames := (expressionStatement_sealed tokens.length tokens).blames mark fault
  rw [hfault] at hblames
  have hblames : fault.token = rest.headD mark := hblames rfl
  have hbody : ∀ t ∈ tokens, t.kind ≠ .eof := fun t ht => (hplain t ht).kind_ne .eof (by decide)
  have hinside : BlamedInside mark tokens ↔ rest ≠ [] := by
    rw [BlamedInside, halone]
    simp only [List.getLast?_concat, Option.some.injEq, exists_eq_left', hblames]
    cases rest with
    | nil => simpa using fun h => hbody mark h hmark
    | cons t rest => simpa using hrest.subset List.mem_cons_self
  -- The program behind the tokens is cut at its first end mark, which is not the word.
  obtain ⟨stream, hstream⟩ : ∃ stream, Stream.ofTokens? (more ++ [mark]) = some stream := by
    simp [Stream.ofTokens?]
  have hwordKind : ∀ t ∈ [word], t.kind ≠ .eof := by
    have hwords : ∀ kind ∈ statementWords, kind ≠ .eof := by decide
    simpa using hwords _ hword
  have hbehind : Stream.ofTokens? (word :: more ++ [mark]) = some ⟨word :: stream.body, stream.stop⟩ :=
    Stream.ofTokens?_append hstream hwordKind
  have hall : Stream.ofTokens? (tokens ++ word :: more ++ [mark]) =
      some ⟨tokens ++ word :: stream.body, stream.stop⟩ := by
    rw [List.append_assoc]
    exact Stream.ofTokens?_append hbehind hbody
  have hsize : (word :: stream.body).length ≤ (tokens ++ word :: stream.body).length := by simp
  rw [hinside]
  by_cases hend : rest = []
  · subst hend
    obtain ⟨trees, others, hrow, hlt⟩ := exists_row_append_word_lt hne hplain hfault hword stream.stop
      (Nat.le_refl (tokens ++ word :: stream.body).length)
    rw [program_eq_of_row hall (Nat.le_refl _) hrow]
    refine ⟨by simp, ⟨fun heq => ?_, fun h => absurd rfl h⟩, fun h => absurd rfl h⟩
    have hcount := wordNodesAll_program_of_clean hmark hbehind hclean
    rw [← heq] at hcount
    exact absurd hcount (Nat.ne_of_lt hlt)
  · have hlength : tokens.length ≤ (tokens ++ word :: stream.body).length := by simp
    have hrow := row_append_word hne hplain hrest hend hfault (beginsStatement_of_mem hword) hlength
      (row_program hbehind hsize)
    rw [program_eq_of_row hall (Nat.le_refl _) hrow, halone]
    have hsame : rest.headD word = rest.headD mark := by
      cases rest with
      | nil => exact absurd rfl hend
      | cons t rest => rfl
    refine ⟨by simp, ⟨fun _ => hend, fun _ => rfl⟩, fun _ => ?_⟩
    rw [hclean, hsame, ← hblames, List.append_nil]

/-- The tokens of `1 + + 2`. -/
def doubledPlus : List Token :=
  [onLineOne .number "1", onLineOne .plus "+", onLineOne .plus "+", onLineOne .number "2"]

/-- The second sign of `1 + + 2` is blamed, so `print c;` behind it is read. -/
theorem program_append_word_doubledPlus :
    BlamedInside (Item.endMark 1) doubledPlus ∧
      program (doubledPlus ++ printName ++ [Item.endMark 1]) =
        ([.print (.read (onLineOne .identifier "c"))], [⟨.expression, onLineOne .plus "+"⟩]) := by
  have hinside : BlamedInside (Item.endMark 1) doubledPlus := ⟨_, rfl, by decide⟩
  have hplain : ∀ t ∈ doubledPlus, Plain t := by decide
  have hword : (onLineOne .printWord "print").kind ∈ statementWords := by decide
  have hclean : (program (onLineOne .printWord "print" :: printName.tail ++ [Item.endMark 1])).2 = [] :=
    rfl
  obtain ⟨-, htrees, hreports⟩ := program_append_word_iff rfl (by decide) hplain hword hclean
  exact ⟨hinside, Prod.ext (htrees.2 hinside) (hreports hinside)⟩

/-- Behind `c` without its semicolon the word of `print c;` is blamed, and the statement is lost. -/
theorem program_append_word_missingSemicolon :
    ¬ ∀ (mark word : Token) (tokens more : List Token), mark.kind = .eof → tokens ≠ [] →
      (∀ t ∈ tokens, Plain t) → word.kind ∈ statementWords →
      (program (word :: more ++ [mark])).2 = [] →
      (program (tokens ++ word :: more ++ [mark])).2 ≠ [] ∧
        (program (tokens ++ word :: more ++ [mark])).1 = (program (word :: more ++ [mark])).1 := by
  intro h
  obtain ⟨-, htrees⟩ := h (Item.endMark 1) (onLineOne .printWord "print")
    [onLineOne .identifier "c"] printName.tail rfl (by decide) (by decide) (by decide) rfl
  exact absurd (congrArg List.length htrees) (by decide)

end Parse

end LoxLang
