import LoxLang.Proofs.Parse.Rows

/-!
# Recovery is local to the malformed statement

A statement that cannot be read costs the statements around it nothing: `program_append_malformed` reads
the statements before it and behind it as if each part stood alone, and reports the faults of each part in
turn.

A malformed statement (`Malformed`) ends in its only semicolon and has no word in it that begins another
statement, so there is one place where recovery can stop. Two facts make it stop there. The parser of the
statement cannot get past the semicolon before it stops (`declaration_settles`): it takes one only as the
last token of what it reads. And behind a fault, recovery goes on to the semicolon and no further
(`synchronize_of_endsStatement`). What the parser has seen until then is part of the statement, so it does
the same whatever stands behind (`statement_local`).
-/

namespace LoxLang

open LoxLang.Parser

namespace Parser

variable {α β : Type} {kinds : List Kind} {size : Nat} {tokens : List Token}

/-! ## Tokens up to a semicolon -/

/-- At most `size` tokens, the last of which is the only semicolon; the others are not of the given
kinds. -/
def EndsStatement (kinds : List Kind) (size : Nat) (tokens : List Token) : Prop :=
  tokens.length ≤ size ∧ ∃ init last, tokens = init ++ [last] ∧ last.kind = .semicolon ∧
    ∀ t ∈ init, t.kind ≠ .semicolon ∧ t.kind ∉ kinds

/-- Tokens that end in a semicolon are some tokens. -/
theorem EndsStatement.ne_nil (h : EndsStatement kinds size tokens) : tokens ≠ [] := by
  obtain ⟨-, init, last, rfl, -⟩ := h
  simp

/-- The semicolon is still there as long as a token is left. -/
theorem EndsStatement.of_append {used rest : List Token}
    (h : EndsStatement kinds size (used ++ rest)) (hrest : rest ≠ []) :
    EndsStatement kinds size rest := by
  obtain ⟨hsize, init, last, heq, hlast, hinit⟩ := h
  rw [List.length_append] at hsize
  obtain rfl | ⟨rest, last', rfl⟩ := List.eq_nil_or_concat rest
  · exact absurd rfl hrest
  · rw [List.concat_eq_append] at heq hsize ⊢
    rw [← List.append_assoc] at heq
    obtain ⟨rfl, hlasts⟩ := List.append_inj' heq rfl
    cases hlasts
    exact ⟨by omega, rest, last, rfl, hlast, fun t ht => hinit t (by simp [ht])⟩

/-- A token is left as long as the semicolon has not been taken. -/
theorem EndsStatement.ne_nil_of_append {used rest : List Token}
    (h : EndsStatement kinds size (used ++ rest)) (hused : ∀ t ∈ used, t.kind ≠ .semicolon) :
    rest ≠ [] := by
  rintro rfl
  obtain ⟨-, init, last, heq, hlast, -⟩ := h
  rw [List.append_nil] at heq
  exact hused last (by simp [heq]) hlast

/-- The first token is the semicolon, or the others still end in it. -/
theorem EndsStatement.cons_cases {t : Token} {rest : List Token}
    (h : EndsStatement kinds size (t :: rest)) :
    t.kind = .semicolon ∧ rest = [] ∨
      t.kind ≠ .semicolon ∧ t.kind ∉ kinds ∧ EndsStatement kinds size rest := by
  obtain ⟨hsize, init, last, heq, hlast, hinit⟩ := id h
  cases init with
  | nil =>
    cases heq
    exact .inl ⟨hlast, rfl⟩
  | cons t' init =>
    cases heq
    obtain ⟨hsemicolon, hkinds⟩ := hinit t (by simp)
    have hrest : EndsStatement kinds size ([t] ++ (init ++ [last])) := h
    exact .inr ⟨hsemicolon, hkinds, hrest.of_append (by simp)⟩

/-! ## Parsers before the semicolon -/

/-- The parser takes no semicolon. -/
def Keeps (size : Nat) (p : Parser α) : Prop :=
  ∀ kinds stop tokens, EndsStatement kinds size tokens →
    EndsStatement kinds size (p stop tokens).rest

/-- The parser answers when it has read all tokens, or it stops before the last one. -/
def Settles (p : Parser α) (tokens : List Token) : Prop :=
  ∀ stop, (∀ a, (p stop tokens).result = .ok a → (p stop tokens).rest = []) ∧
    ∀ fault, (p stop tokens).result = .error fault → (p stop tokens).rest ≠ []

/-- A parser that takes only tokens which are no semicolons takes no semicolon. -/
theorem Local.keeps {P : Token → Prop} {least : Nat} {p q : Parser α} (h : Local P least size p q)
    (hP : ∀ t, P t → t.kind ≠ .semicolon) : Keeps size p := by
  intro kinds stop tokens htokens
  obtain ⟨used, hused, hkinds, -⟩ := (h tokens htokens.1).taken stop
  rw [hused] at htokens
  exact htokens.of_append (htokens.ne_nil_of_append fun t ht => hP t (hkinds t ht))

/-- An expression takes no semicolon. -/
theorem expression_keeps {bound : Nat} (hbound : size ≤ bound) : Keeps size (expression bound) := by
  refine (expression_local hbound hbound).keeps fun t ht hk => ?_
  rw [InExpression, hk] at ht
  exact absurd ht (by decide)

/-- An initial value that may be missing takes no semicolon. -/
theorem initializer?_keeps {bound : Nat} (hbound : size ≤ bound) :
    Keeps size (initializer? bound) := by
  refine (initializer?_local hbound hbound).keeps fun t ht hk => ?_
  rw [InExpression, hk] at ht
  exact absurd ht (by decide)

/-- Expecting another kind takes no semicolon. -/
theorem expect_keeps {kind : Kind} (cause : ParseCause) (hkind : kind ≠ .semicolon) :
    Keeps size (expect kind cause) := by
  refine (local_expect (P := fun t => t.kind = kind) fun _ h => h).keeps fun t ht => ?_
  rw [ht]
  exact hkind

/-- The rule for two parsers in a row, the first of which takes no semicolon. -/
theorem Keeps.bind {p : Parser α} {f : α → Parser β} (hp : Keeps size p)
    (hf : ∀ a rest, EndsStatement kinds size rest → Settles (f a) rest)
    (h : EndsStatement kinds size tokens) : Settles (p >>= f) tokens := by
  intro stop
  have hrest := hp kinds stop tokens h
  rcases hfirst : p stop tokens with ⟨fault | a, reports, rest⟩ <;> rw [hfirst] at hrest
  · rw [bind_of_error hfirst]
    exact ⟨fun _ h => (by cases h), fun _ _ => hrest.ne_nil⟩
  · rw [bind_of_ok hfirst]
    exact hf a rest hrest stop

/-- What is done behind the last token does not stop. -/
theorem Settles.bind {p : Parser α} {f : α → Parser β} (hp : Settles p tokens)
    (hf : ∀ a stop, ∃ b, f a stop [] = ⟨.ok b, [], []⟩) : Settles (p >>= f) tokens := by
  intro stop
  obtain ⟨hok, herror⟩ := hp stop
  rcases hfirst : p stop tokens with ⟨fault | a, reports, rest⟩ <;> rw [hfirst] at hok herror
  · rw [bind_of_error hfirst]
    exact ⟨fun _ h => (by cases h), fun _ _ => herror fault rfl⟩
  · obtain rfl : rest = [] := hok a rfl
    obtain ⟨b, hb⟩ := hf a stop
    rw [bind_of_ok hfirst, hb]
    exact ⟨fun _ _ => rfl, fun _ h => by cases h⟩

/-- The semicolon is the last token. -/
theorem semicolon_settles (cause : ParseCause) (h : EndsStatement kinds size tokens) :
    Settles (expect .semicolon cause) tokens := by
  intro stop
  cases tokens with
  | nil => exact absurd rfl h.ne_nil
  | cons t rest =>
    rw [expect]
    rcases h.cons_cases with ⟨hk, rfl⟩ | ⟨hk, -, -⟩
    · rw [if_pos hk]
      exact ⟨fun _ _ => rfl, fun _ h => by cases h⟩
    · rw [if_neg hk]
      exact ⟨fun _ h => (by cases h), fun _ _ => List.cons_ne_nil t rest⟩

/-! ## Statements -/

section
variable {bound : Nat}

/-- An expression statement takes the semicolon last or not at all. -/
theorem expressionStatement_settles (hbound : size ≤ bound) (h : EndsStatement kinds size tokens) :
    Settles (expressionStatement bound) tokens :=
  (expression_keeps hbound).bind (fun _ _ hrest => (semicolon_settles _ hrest).bind fun _ _ =>
    ⟨_, rfl⟩) h

/-- A print statement takes the semicolon last or not at all. -/
theorem printStatement_settles (hbound : size ≤ bound) (h : EndsStatement kinds size tokens) :
    Settles (printStatement bound) tokens :=
  (expression_keeps hbound).bind (fun _ _ hrest => (semicolon_settles _ hrest).bind fun _ _ =>
    ⟨_, rfl⟩) h

/-- A declaration of a variable takes the semicolon last or not at all. -/
theorem varDeclaration_settles (hbound : size ≤ bound) (h : EndsStatement kinds size tokens) :
    Settles (varDeclaration bound) tokens :=
  (expect_keeps _ (by decide)).bind (fun _ _ hrest => (initializer?_keeps hbound).bind
    (fun _ _ hrest => (semicolon_settles _ hrest).bind fun _ _ => ⟨_, rfl⟩) hrest) h

/-- The kinds of tokens that begin a statement with a parser of its own. -/
def openings : List Kind :=
  [.forWord, .ifWord, .whileWord, .leftBrace, .printWord]

/-- Where none of its words comes first, a statement is an expression statement. -/
theorem statement_eq_expressionStatement (bound : Nat) (stop : Token)
    (h : NextNot openings tokens) :
    statement (bound + 1) stop tokens = expressionStatement (bound + 1) stop tokens := by
  rw [statement, peekKind?_bind]
  refine congrFun (congrFun ?_ stop) tokens
  split
  case h_6 => rfl
  all_goals
    next hk =>
    obtain ⟨t, rest, rfl, hword⟩ := head?_kind_eq_some_iff.1 hk
    rw [nextNot_cons, hword] at h
    exact absurd (by decide) h

/-- A body without words that begin a statement is an expression statement. -/
theorem statement_settles (hbound : size ≤ bound) (h : EndsStatement openings size tokens) :
    Settles (statement bound) tokens := by
  have hpos : 0 < tokens.length := List.length_pos_iff.2 h.ne_nil
  obtain ⟨bound, rfl⟩ : ∃ b, bound = b + 1 := ⟨bound - 1, by have := h.1; omega⟩
  have hnext : NextNot openings tokens := by
    cases tokens with
    | nil => exact nextNot_nil _
    | cons t rest =>
      rw [nextNot_cons]
      rcases h.cons_cases with ⟨hk, -⟩ | ⟨-, hk, -⟩
      · rw [hk]
        decide
      · exact hk
  intro stop
  rw [statement_eq_expressionStatement bound stop hnext]
  exact expressionStatement_settles hbound h stop

/-- An `if` statement with nothing in it that begins another parser takes the semicolon last or not at all. -/
theorem ifStatement_settles (hbound : size ≤ bound) (h : EndsStatement openings size tokens) :
    Settles (ifStatement bound (statement bound)) tokens := by
  refine (expect_keeps .parenAfterIf (by decide)).bind (fun _ _ hrest => ?_) h
  refine (expression_keeps hbound).bind (fun _ _ hrest => ?_) hrest
  refine (expect_keeps .parenAfterIfCondition (by decide)).bind (fun _ _ hrest => ?_) hrest
  -- Behind the branch there is no token that could be an `else`.
  exact (statement_settles hbound hrest).bind fun _ _ => ⟨_, rfl⟩

/-- A `while` statement with nothing in it that begins another parser takes the semicolon last or not at all. -/
theorem whileStatement_settles (hbound : size ≤ bound) (h : EndsStatement openings size tokens) :
    Settles (whileStatement bound (statement bound)) tokens := by
  refine (expect_keeps .parenAfterWhile (by decide)).bind (fun _ _ hrest => ?_) h
  refine (expression_keeps hbound).bind (fun _ _ hrest => ?_) hrest
  refine (expect_keeps .parenAfterCondition (by decide)).bind (fun _ _ hrest => ?_) hrest
  exact (statement_settles hbound hrest).bind fun _ _ => ⟨_, rfl⟩

/-- A statement that a word begins is read behind the word. -/
theorem statement_eq_behindWord {word : Token} {p : Parser Stmt}
    (hp : Grammar.behindWord bound word.kind = some p) (stop : Token) (tokens : List Token) :
    statement (bound + 1) stop (word :: tokens) = p stop tokens := by
  rw [statement, peekKind?_bind]
  simp only [List.head?_cons, Option.map_some]
  unfold Grammar.behindWord at hp
  split at hp <;> cases hp
  all_goals
    next hk =>
    simp only [hk]
    rfl

/-- Only a `for` statement and a block take a semicolon before their last token. -/
theorem statement_settles_cons {t : Token} {rest : List Token} (hbound : rest.length ≤ bound)
    (h : EndsStatement [] (rest.length + 1) (t :: rest))
    (hrest : t.kind ≠ .semicolon → EndsStatement openings rest.length rest)
    (ht : t.kind ∉ [.forWord, .leftBrace]) : Settles (statement (bound + 1)) (t :: rest) := by
  intro stop
  by_cases hopen : t.kind ∈ openings
  · have hbehind := hrest fun hk => absurd (hk ▸ hopen) (by decide)
    simp only [openings, List.mem_cons, List.not_mem_nil, or_false, not_or] at hopen ht
    rcases hopen with hk | hk | hk | hk | hk
    · exact absurd hk ht.1
    · rw [statement_eq_behindWord (by rw [hk]; rfl)]
      exact ifStatement_settles hbound hbehind stop
    · rw [statement_eq_behindWord (by rw [hk]; rfl)]
      exact whileStatement_settles hbound hbehind stop
    · exact absurd hk ht.2
    · rw [statement_eq_behindWord (by rw [hk]; rfl)]
      exact printStatement_settles hbound hbehind stop
  · rw [statement_eq_expressionStatement bound stop (nextNot_cons.2 hopen)]
    exact expressionStatement_settles (Nat.succ_le_succ hbound) h stop

/-- A declaration that does not begin with `var` is a statement. -/
theorem declaration_eq_statement {inner : Parser Stmt} {stop : Token}
    (h : NextNot [.varWord] tokens) :
    declaration bound inner stop tokens = inner stop tokens := by
  rw [declaration, peekKind?_bind]
  refine congrFun (congrFun ?_ stop) tokens
  split
  · next hk =>
    obtain ⟨t, rest, rfl, hvar⟩ := head?_kind_eq_some_iff.1 hk
    rw [nextNot_cons, hvar] at h
    exact absurd (by decide) h
  · rfl

/-- The declaration that a malformed statement begins takes the semicolon last or not at all. -/
theorem declaration_settles {t : Token} {rest : List Token} (hbound : rest.length ≤ bound)
    (h : EndsStatement [] (rest.length + 1) (t :: rest)) (hrest : ∀ u ∈ rest, u.kind ∉ openings)
    (ht : t.kind ∉ [.forWord, .leftBrace]) :
    Settles (declaration (bound + 1) (statement (bound + 1))) (t :: rest) := by
  -- Behind a first token that is not the semicolon, no word begins a statement.
  have hbehind : t.kind ≠ .semicolon → EndsStatement openings rest.length rest := by
    intro hk
    rcases h.cons_cases with ⟨hk', -⟩ | ⟨-, -, -, init, last, rfl, hlast, hinit⟩
    · exact absurd hk' hk
    · exact ⟨Nat.le_refl _, init, last, rfl, hlast,
        fun u hu => ⟨(hinit u hu).1, hrest u (List.mem_append_left _ hu)⟩⟩
  intro stop
  by_cases hvar : t.kind = .varWord
  · rw [declaration, peekKind?_bind]
    simp only [List.head?_cons, Option.map_some, hvar]
    exact varDeclaration_settles (Nat.le_succ_of_le hbound) (hbehind (by simp [hvar])) stop
  · rw [declaration_eq_statement (nextNot_cons.2 (by simpa using hvar))]
    exact statement_settles_cons hbound h hbehind ht stop

end

/-! ## Behind a fault -/

/-- Recovery goes on to the semicolon and stops behind it. -/
theorem skipStatement_of_endsStatement {t : Token} {rest : List Token} (more : List Token)
    (h : EndsStatement kinds size (t :: rest)) (hrest : ∀ u ∈ rest, beginsStatement u = false) :
    skipStatement t (rest ++ more) = more := by
  induction rest generalizing t with
  | nil =>
    rcases h.cons_cases with ⟨hk, -⟩ | ⟨-, -, hnil⟩
    · cases more with
      | nil => rfl
      | cons u more => exact if_pos (.inl hk)
    · exact absurd rfl hnil.ne_nil
  | cons u rest ih =>
    obtain ⟨hu, hrest⟩ := List.forall_mem_cons.1 hrest
    rcases h.cons_cases with ⟨-, hnil⟩ | ⟨hk, -, hends⟩
    · exact absurd hnil (List.cons_ne_nil u rest)
    · rw [List.cons_append, skipStatement, if_neg (by simp [hk, hu])]
      exact ih hends hrest

/-- Recovery from a fault before the semicolon goes on to the semicolon and no further. -/
theorem synchronize_of_endsStatement {rest : List Token} (more : List Token)
    (h : EndsStatement kinds size rest) (hrest : ∀ u ∈ rest.tail, beginsStatement u = false) :
    synchronize (rest ++ more) = more := by
  cases rest with
  | nil => exact absurd rfl h.ne_nil
  | cons t rest => exact skipStatement_of_endsStatement more h hrest

end Parser

namespace Parse

/-! ## The malformed statement -/

/-- A statement that is given up as a whole: it ends in its only semicolon, has no word or brace in it that
begins another statement, and yields nothing when it is read alone. -/
structure Malformed (mark : Token) (tokens : List Token) : Prop where
  ends : ∃ init last, tokens = init ++ [last] ∧ last.kind = .semicolon ∧
    ∀ t ∈ init, t.kind ≠ .semicolon
  noMark : ∀ t ∈ tokens, t.kind ≠ .eof
  noBrace : ∀ t ∈ tokens, t.kind ≠ .leftBrace
  noWord : ∀ t ∈ tokens.tail, beginsStatement t = false
  head : ∀ t ∈ tokens.head?, t.kind ≠ .forWord ∧ t.kind ≠ .elseWord
  noStatement : (program (tokens ++ [mark])).1 = []

section
variable {mark : Token} {tokens : List Token}

/-- The parser of a malformed statement answers or stops inside of it. -/
theorem Malformed.settles (h : Malformed mark tokens) :
    EndsStatement [] tokens.length tokens ∧
      Settles (declaration tokens.length (statement tokens.length)) tokens := by
  obtain ⟨init, last, heq, hlast, hinit⟩ := h.ends
  have hends : EndsStatement [] tokens.length tokens :=
    ⟨Nat.le_refl _, init, last, heq, hlast, fun t ht => ⟨hinit t ht, List.not_mem_nil⟩⟩
  refine ⟨hends, ?_⟩
  cases tokens with
  | nil => exact absurd rfl hends.ne_nil
  | cons t rest =>
    refine declaration_settles (Nat.le_refl rest.length) hends (fun u hu hopen => ?_) ?_
    · have hbrace := h.noBrace u (List.mem_cons_of_mem t hu)
      have hword := h.noWord u hu
      simp only [openings, List.mem_cons, List.not_mem_nil, or_false] at hopen
      simp only [beginsStatement, List.mem_cons, List.not_mem_nil, or_false] at hword
      grind
    · have hhead := h.head t rfl
      have hbrace := h.noBrace t List.mem_cons_self
      simp [hhead.1, hbrace]

/-- The parser of a malformed statement does not answer, or there would be a statement. -/
theorem Malformed.exists_fault (hmark : mark.kind = .eof) (h : Malformed mark tokens) :
    ∃ fault, (declaration tokens.length (statement tokens.length) mark tokens).result =
      .error fault := by
  have hlocal := declaration_statement_local (Nat.le_refl tokens.length) (Nat.le_refl _)
  obtain ⟨used, hused, -, hleast⟩ := (hlocal tokens (Nat.le_refl _)).taken mark
  rcases hfirst : declaration tokens.length (statement tokens.length) mark tokens with
    ⟨fault | s, reports, rest⟩
  · exact ⟨fault, rfl⟩
  · rw [hfirst] at hused hleast
    have htaken := hleast s rfl
    have hrest : rest.length < tokens.length := by
      rw [hused]
      simp only [List.length_append]
      omega
    obtain ⟨others, reports', hothers⟩ := exists_row mark (Nat.le_of_lt hrest)
    have hrow := Row.cons hrest (recovering_of_ok hfirst) hothers
    have hempty := h.noStatement
    rw [program_eq_of_row (Stream.ofTokens?_append_mark h.noMark hmark) (Nat.le_refl _) hrow] at hempty
    cases hempty

/-- What the parser of a malformed statement leaves when it stops is skipped to the semicolon. -/
theorem Malformed.synchronize_rest (h : Malformed mark tokens) {fault : ParseFault}
    (hfault : (declaration tokens.length (statement tokens.length) mark tokens).result =
      .error fault) (more : List Token) :
    synchronize ((declaration tokens.length (statement tokens.length) mark tokens).rest ++ more) =
      more := by
  obtain ⟨hends, hsettles⟩ := h.settles
  have hleft := (hsettles mark).2 fault hfault
  have hlocal := declaration_statement_local (Nat.le_refl tokens.length) (Nat.le_refl _)
  obtain ⟨used, hused, -, -⟩ := (hlocal tokens (Nat.le_refl _)).taken mark
  generalize (declaration tokens.length (statement tokens.length) mark tokens).rest = rest at *
  have hwords := h.noWord
  rw [hused] at hends hwords
  refine synchronize_of_endsStatement more (hends.of_append hleft) fun u hu => hwords u ?_
  cases used with
  | nil => exact hu
  | cons t used => exact List.mem_append_right used (List.mem_of_mem_tail hu)

/-- A malformed statement is skipped with the same reports whatever stands behind it. -/
theorem Malformed.exists_recovering_eq (hmark : mark.kind = .eof) (h : Malformed mark tokens) :
    ∃ reports, ∀ bound stop more, tokens.length ≤ bound →
      recovering (declaration bound (statement bound)) stop (tokens ++ more) =
        ⟨.ok none, reports, more⟩ := by
  obtain ⟨fault, hfault⟩ := h.exists_fault hmark
  have hleft := (h.settles.2 mark).2 fault hfault
  have hsync := h.synchronize_rest hfault
  refine ⟨(declaration tokens.length (statement tokens.length) mark tokens).reports ++ [fault],
    fun bound stop more hbound => ?_⟩
  have hlocal := declaration_statement_local (Nat.le_refl tokens.length) hbound
  have hsame := (hlocal tokens (Nat.le_refl _)).same mark stop more fun hnil => absurd hnil hleft
  rw [Outcome.before, hfault] at hsame
  rw [recovering_of_error hsame, hsync]

/-- A malformed statement is reported as if it stood alone, and skipped, whatever stands behind it. -/
theorem Malformed.recovering_eq (hmark : mark.kind = .eof) (h : Malformed mark tokens) (bound : Nat)
    (stop : Token) (more : List Token) (hbound : tokens.length ≤ bound) :
    recovering (declaration bound (statement bound)) stop (tokens ++ more) =
      ⟨.ok none, (program (tokens ++ [mark])).2, more⟩ := by
  obtain ⟨reports, hreports⟩ := h.exists_recovering_eq hmark
  have hskip := hreports tokens.length mark [] (Nat.le_refl _)
  rw [List.append_nil] at hskip
  have hpos : ([] : List Token).length < tokens.length := List.length_pos_iff.2 h.settles.1.ne_nil
  have hrow := Row.cons hpos hskip (row_nil tokens.length mark)
  rw [program_eq_of_row (Stream.ofTokens?_append_mark h.noMark hmark) (Nat.le_refl _) hrow]
  dsimp only
  rw [List.append_nil]
  exact hreports bound stop more hbound

end

/-! ## The three parts -/

/-- Recovery is local to the malformed statement. Behind declarations that are read without a fault, and
before any tokens at all, a malformed statement is given up with the faults that it has alone; the trees
are those of the parts before and behind it, and so are the other faults. -/
theorem program_append_malformed {mark : Token} {before malformed behind : List Token}
    (hmark : mark.kind = .eof) (hbefore : ∀ t ∈ before, t.kind ≠ .eof)
    (hclean : (program (before ++ [mark])).2 = []) (h : Malformed mark malformed) :
    program (before ++ malformed ++ behind ++ [mark]) =
      ((program (before ++ [mark])).1 ++ (program (behind ++ [mark])).1,
        (program (malformed ++ [mark])).2 ++ (program (behind ++ [mark])).2) := by
  obtain ⟨stream, hstream⟩ : ∃ stream, Stream.ofTokens? (behind ++ [mark]) = some stream := by
    simp [Stream.ofTokens?]
  have hcut := Stream.ofTokens?_append (Stream.ofTokens?_append hstream h.noMark) hbefore
  obtain ⟨parts, hparts, htrees, hder⟩ :=
    (Grammar.parse_program_iff hbefore hmark).1 (Prod.ext rfl hclean)
  have hne := h.settles.1.ne_nil
  have hnext : NextNot [.elseWord] (malformed ++ stream.body) := by
    obtain ⟨t, ts, rfl⟩ := List.exists_cons_of_ne_nil hne
    simpa using (h.head t rfl).2
  have htrees : (program (before ++ [mark])).1 = parts.map Prod.snd := htrees
  rw [htrees, List.append_assoc, List.append_assoc]
  refine program_eq_of_row hcut (Nat.le_refl _) ?_
  generalize hsize : (before ++ (malformed ++ stream.body)).length = size
  simp only [List.length_append] at hsize
  have hskip := h.recovering_eq hmark size stream.stop stream.body (by omega)
  have hpos : stream.body.length < (malformed ++ stream.body).length := by
    simpa using List.length_pos_iff.2 hne
  have hbehind := Row.cons hpos hskip (row_program hstream (by omega))
  rw [hparts] at hsize ⊢
  exact row_parts hnext hbehind hder (by omega)

/-- The token of a kind on the first line. -/
def onLineOne (kind : Kind) (lexeme : String) : Token :=
  ⟨kind, lexeme, none, 1⟩

/-- The tokens of `if (a) b + ;`, which has no right operand. -/
def unfinishedIf : List Token :=
  [onLineOne .ifWord "if", onLineOne .leftParen "(", onLineOne .identifier "a",
    onLineOne .rightParen ")", onLineOne .identifier "b", onLineOne .plus "+",
    onLineOne .semicolon ";"]

/-- The tokens of `print c;`. -/
def printName : List Token :=
  [onLineOne .printWord "print", onLineOne .identifier "c", onLineOne .semicolon ";"]

/-- The statement without its right operand is malformed, whatever may follow it. -/
theorem unfinishedIf_malformed : Malformed (Item.endMark 1) unfinishedIf where
  ends := ⟨unfinishedIf.dropLast, onLineOne .semicolon ";", rfl, rfl, by decide⟩
  noMark := by decide
  noBrace := by decide
  noWord := by decide
  head := by decide
  noStatement := rfl

/-- Between `print c;` and `) ; print c;`, the unfinished statement is reported at its semicolon and left
out, and so is the bracket behind it. -/
theorem program_append_unfinishedIf :
    program (printName ++ unfinishedIf ++
        (onLineOne .rightParen ")" :: onLineOne .semicolon ";" :: printName) ++ [Item.endMark 1]) =
      ([.print (.read (onLineOne .identifier "c")), .print (.read (onLineOne .identifier "c"))],
        [⟨.expression, onLineOne .semicolon ";"⟩, ⟨.expression, onLineOne .rightParen ")"⟩]) :=
  program_append_malformed rfl (by decide) rfl unfinishedIf_malformed

/-- Behind an end mark nothing is read, so a malformed statement there is not reported: the part before
it has to be free of end marks. -/
theorem program_append_malformed_behindMark :
    ¬ ∀ (mark : Token) (before malformed behind : List Token), mark.kind = .eof →
      (program (before ++ [mark])).2 = [] → Malformed mark malformed →
      program (before ++ malformed ++ behind ++ [mark]) =
        ((program (before ++ [mark])).1 ++ (program (behind ++ [mark])).1,
          (program (malformed ++ [mark])).2 ++ (program (behind ++ [mark])).2) := by
  intro h
  have hmalformed : Malformed (Item.endMark 1) [onLineOne .semicolon ";"] :=
    ⟨⟨[], onLineOne .semicolon ";", rfl, rfl, by decide⟩, by decide, by decide, by decide, by decide,
      rfl⟩
  have hreports := congrArg Prod.snd
    (h (Item.endMark 1) [Item.endMark 1] [onLineOne .semicolon ";"] [] rfl rfl hmalformed)
  exact absurd hreports (by decide)

end Parse

end LoxLang
