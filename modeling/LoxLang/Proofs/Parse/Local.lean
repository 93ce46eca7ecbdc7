import LoxLang.Proofs.Parse.Reads

/-!
# Reading is local

What a parser does depends on the tokens that it takes and on the next one, not on what stands behind
them, and on no bound that reaches the number of tokens. `Local P least size p q` says both of two parsers
that are one parser with two bounds. On at most `size` tokens, `p` takes tokens that satisfy `P`, at least
`least` of them if it answers, and `q` reads what `p` reads, whatever follows, as long as `p` leaves a token
that what follows is hidden behind.

There is one rule for each combinator and one theorem for each parser. The rule for a token that is taken
lowers `size`, which is what the recursive parsers need: a bracket, an operator or a word is taken before
one of them is called again. In a row of declarations it is the recovery from a fault that takes a token
where the declaration took none.
-/

namespace LoxLang

/-- The outcome of a reading before other tokens. -/
def Outcome.before {α : Type} (o : Outcome α) (more : List Token) : Outcome α :=
  ⟨o.result, o.reports, o.rest ++ more⟩

namespace Parser

variable {α β : Type} {P : Token → Prop} {least size : Nat} {tokens : List Token}

/-- From the given tokens, `p` takes some that satisfy `P`, at least `least` of them if it answers, and `q`
reads the same where the tokens that `p` leaves, or else the end, come before what follows. -/
structure LocalAt (P : Token → Prop) (least : Nat) (p q : Parser α) (tokens : List Token) : Prop where
  taken : ∀ stop, ∃ used, tokens = used ++ (p stop tokens).rest ∧ (∀ t ∈ used, P t) ∧
    ∀ a, (p stop tokens).result = .ok a → least ≤ used.length
  same : ∀ stop stop' more, ((p stop tokens).rest = [] → more = [] ∧ stop' = stop) →
    q stop' (tokens ++ more) = (p stop tokens).before more

/-- The same from all token lists of at most `size` tokens. -/
def Local (P : Token → Prop) (least size : Nat) (p q : Parser α) : Prop :=
  ∀ tokens, tokens.length ≤ size → LocalAt P least p q tokens

/-! ## What follows from it -/

section
variable {p q : Parser α}

/-- A parser leaves no more tokens than it met. -/
theorem LocalAt.length_rest_le (h : LocalAt P least p q tokens) (stop : Token) :
    (p stop tokens).rest.length ≤ tokens.length := by
  obtain ⟨used, hused, -⟩ := h.taken stop
  have hlength := congrArg List.length hused
  rw [List.length_append] at hlength
  omega

/-- On the same tokens, the two parsers do the same. -/
theorem LocalAt.eq (h : LocalAt P least p q tokens) (stop : Token) : q stop tokens = p stop tokens := by
  have hsame := h.same stop stop [] fun _ => ⟨rfl, rfl⟩
  rw [List.append_nil] at hsame
  rw [hsame, Outcome.before, List.append_nil]

/-- With no tokens hidden, both bounds give the same outcome. -/
theorem Local.eq (h : Local P least size p q) (hsize : tokens.length ≤ size) (stop : Token) :
    q stop tokens = p stop tokens :=
  (h tokens hsize).eq stop

/-- A parser that takes some number of tokens takes any smaller one. -/
theorem LocalAt.mono {least' : Nat} (h : LocalAt P least p q tokens) (hleast : least' ≤ least) :
    LocalAt P least' p q tokens where
  taken stop := by
    obtain ⟨used, hused, hP, hlength⟩ := h.taken stop
    exact ⟨used, hused, hP, fun a ha => Nat.le_trans hleast (hlength a ha)⟩
  same := h.same

/-- The same from all lists of the size. -/
theorem Local.mono {least' : Nat} (h : Local P least size p q) (hleast : least' ≤ least) :
    Local P least' size p q :=
  fun tokens htokens => (h tokens htokens).mono hleast

/-- What holds of lists of a size holds of shorter ones. -/
theorem Local.shrink {size' : Nat} (h : Local P least size p q) (hsize : size' ≤ size) :
    Local P least size' p q :=
  fun tokens htokens => h tokens (Nat.le_trans htokens hsize)

/-- On no tokens at all nothing can follow, so parsers that do the same there are as good as each other. -/
theorem LocalAt.congr_nil {p' q' : Parser α} (h : LocalAt P least p q [])
    (hp : ∀ stop, p' stop [] = p stop []) (hq : ∀ stop, q' stop [] = q stop []) :
    LocalAt P least p' q' [] where
  taken stop := by
    rw [hp stop]
    exact h.taken stop
  same stop stop' more hmore := by
    rw [hp stop] at hmore ⊢
    have hlength := h.length_rest_le stop
    obtain ⟨rfl, rfl⟩ := hmore (List.eq_nil_of_length_eq_zero (Nat.le_zero.1 hlength))
    rw [List.append_nil, hq]
    exact h.same stop' stop' [] hmore

end

/-! ## Sequencing -/

/-- A result of its own takes no token and looks at none. -/
theorem local_pure (a : α) : Local P 0 size (pure a) (pure a) := by
  intro tokens _
  exact ⟨fun stop => ⟨[], rfl, nofun, fun _ _ => Nat.le_refl 0⟩, fun _ _ _ _ => rfl⟩

/-- The rule for two parsers in a row: what the first one takes is not there for the second. -/
theorem LocalAt.bind {p q : Parser α} {f g : α → Parser β} {k : Nat}
    (hp : LocalAt P least p q tokens)
    (hf : ∀ a, Local P k (tokens.length - least) (f a) (g a)) :
    LocalAt P least (p >>= f) (q >>= g) tokens := by
  -- What the second parser is given, if the first one answers.
  have second : ∀ {stop a reports rest}, p stop tokens = ⟨.ok a, reports, rest⟩ →
      ∃ used, tokens = used ++ rest ∧ (∀ t ∈ used, P t) ∧ least ≤ used.length ∧
        LocalAt P k (f a) (g a) rest := by
    intro stop a reports rest hfirst
    obtain ⟨used, hused, hP, hleast⟩ := hp.taken stop
    rw [hfirst] at hused hleast
    have hleast := hleast a rfl
    have hlength : tokens.length = used.length + rest.length := by
      rw [hused, List.length_append]
    exact ⟨used, hused, hP, hleast, hf a rest (by omega)⟩
  constructor
  · intro stop
    rcases hfirst : p stop tokens with ⟨fault | a, reports, rest⟩
    · obtain ⟨used, hused, hP, -⟩ := hp.taken stop
      rw [hfirst] at hused
      rw [bind_of_error hfirst]
      exact ⟨used, hused, hP, nofun⟩
    · obtain ⟨used, hused, hP, hleast, hsecond⟩ := second hfirst
      obtain ⟨used', hused', hP', -⟩ := hsecond.taken stop
      rw [bind_of_ok hfirst]
      refine ⟨used ++ used', ?_, List.forall_mem_append.2 ⟨hP, hP'⟩, fun b hb => ?_⟩
      · rw [List.append_assoc, ← hused', hused]
      · rw [List.length_append]
        exact Nat.le_add_right_of_le hleast
  · intro stop stop' more hmore
    have hsame := hp.same stop stop' more
    rcases hfirst : p stop tokens with ⟨fault | a, reports, rest⟩
    · rw [bind_of_error hfirst] at hmore ⊢
      rw [hfirst] at hsame
      exact bind_of_error (hsame hmore)
    · obtain ⟨used, -, -, -, hsecond⟩ := second hfirst
      rw [bind_of_ok hfirst] at hmore ⊢
      rw [hfirst] at hsame
      have hrest : rest = [] → more = [] ∧ stop' = stop := by
        rintro rfl
        have hlength := hsecond.length_rest_le stop
        exact hmore (List.eq_nil_of_length_eq_zero (Nat.le_zero.1 hlength))
      rw [bind_of_ok (hsame hrest), hsecond.same stop stop' more hmore]
      rfl

/-- The rule for two parsers in a row. The second one meets no more tokens than the first, and what it takes
besides may be nothing. -/
theorem Local.bind {p q : Parser α} {f g : α → Parser β} {k : Nat}
    (hp : Local P least size p q) (hf : ∀ a, Local P k size (f a) (g a)) :
    Local P least size (p >>= f) (q >>= g) := by
  intro tokens htokens
  exact (hp tokens htokens).bind fun a => (hf a).shrink (by omega)

/-! ## Single tokens -/

/-- A fault blames the next token and takes none. -/
theorem local_fail (cause : ParseCause) : Local P least size (fail (α := α) cause) (fail cause) := by
  intro tokens _
  refine ⟨fun stop => ⟨[], rfl, nofun, nofun⟩, fun stop stop' more hmore => ?_⟩
  cases tokens with
  | nil =>
    obtain ⟨rfl, rfl⟩ := hmore rfl
    rfl
  | cons t rest => rfl

/-- A report of its own takes no token and looks at none. -/
theorem local_report (cause : ParseCause) (t : Token) :
    Local P 0 size (report cause t) (report cause t) := by
  intro tokens _
  exact ⟨fun stop => ⟨[], rfl, nofun, fun _ _ => Nat.le_refl 0⟩, fun _ _ _ _ => rfl⟩

/-- A token that is there is dropped. -/
theorem Local.behindSkip {p q : Parser α} (h : Local P least size p q) {t : Token}
    {rest : List Token} (ht : P t) (hrest : rest.length ≤ size) :
    LocalAt P (least + 1) (do skip; p) (do skip; q) (t :: rest) := by
  have hp := h rest hrest
  constructor
  · intro stop
    obtain ⟨used, hused, hP, hleast⟩ := hp.taken stop
    exact ⟨t :: used, congrArg (t :: ·) hused, List.forall_mem_cons.2 ⟨ht, hP⟩,
      fun a ha => Nat.succ_le_succ (hleast a ha)⟩
  · exact fun stop stop' more hmore => hp.same stop stop' more hmore

/-- To look at the next token is to choose a parser by it. -/
theorem local_peek? {f g : Option Token → Parser α}
    (h : ∀ tokens, tokens.length ≤ size → LocalAt P least (f tokens.head?) (g tokens.head?) tokens) :
    Local P least size (peek? >>= f) (peek? >>= g) := by
  intro tokens htokens
  have hp := h tokens htokens
  refine ⟨hp.taken, fun stop stop' more hmore => ?_⟩
  have hsame := hp.same stop stop' more hmore
  cases tokens with
  | nil =>
    have hlength := hp.length_rest_le stop
    obtain ⟨rfl, rfl⟩ := hmore (List.eq_nil_of_length_eq_zero (Nat.le_zero.1 hlength))
    exact hsame
  | cons t rest => exact hsame

/-- A parser that looks at the kind of the next token is chosen by it. -/
theorem peekKind?_bind (f : Option Kind → Parser α) (stop : Token) (tokens : List Token) :
    (peekKind? >>= f) stop tokens = f (tokens.head?.map Token.kind) stop tokens :=
  rfl

/-- The rule for a parser that looks at the kind of the next token: it is enough that each choice is local where it
is made. -/
theorem local_peekKind? {f g : Option Kind → Parser α}
    (h : ∀ tokens, tokens.length ≤ size →
      LocalAt P least (f (tokens.head?.map Token.kind)) (g (tokens.head?.map Token.kind)) tokens) :
    Local P least size (peekKind? >>= f) (peekKind? >>= g) :=
  local_peek? (f := fun o => f (o.map Token.kind)) (g := fun o => g (o.map Token.kind)) h

/-- A token of the given kinds is dropped once it has been looked at. -/
theorem accept?_bind_eq (kinds : List Kind) (f : Option Token → Parser α) :
    (accept? kinds >>= f) = (peek? >>= fun
      | some t => if t.kind ∈ kinds then (do skip; f (some t)) else f none
      | none => f none) := by
  funext stop tokens
  cases tokens with
  | nil => rfl
  | cons t rest =>
    show andThen (accept? kinds) f stop (t :: rest) =
      (if t.kind ∈ kinds then (do skip; f (some t)) else f none) stop (t :: rest)
    by_cases hk : t.kind ∈ kinds
    · simp only [andThen, accept?, if_pos hk]
      rfl
    · simp only [andThen, accept?, if_neg hk]
      rfl

/-- Expecting a kind is looking at the next token and skipping it, or failing there. -/
theorem expect_eq (kind : Kind) (cause : ParseCause) :
    expect kind cause = (peek? >>= fun
      | some t => if t.kind = kind then (do skip; return t) else fail cause
      | none => fail cause) := by
  funext stop tokens
  cases tokens with
  | nil => rfl
  | cons t rest =>
    show expect kind cause stop (t :: rest) =
      (if t.kind = kind then (do skip; return t) else fail cause : Parser Token) stop (t :: rest)
    rw [expect]
    by_cases hk : t.kind = kind
    · rw [if_pos hk, if_pos hk]
      rfl
    · rw [if_neg hk, if_neg hk]
      rfl

/-- A token of the given kinds is taken, and otherwise nothing is. -/
theorem local_accept? {kinds : List Kind} {f g : Option Token → Parser α}
    (hP : ∀ t, t.kind ∈ kinds → P t)
    (hsome : ∀ t, Local P least (size - 1) (f (some t)) (g (some t)))
    (hnone : Local P least size (f none) (g none)) :
    Local P least size (accept? kinds >>= f) (accept? kinds >>= g) := by
  rw [accept?_bind_eq, accept?_bind_eq]
  refine local_peek? fun tokens htokens => ?_
  cases tokens with
  | nil => exact hnone [] htokens
  | cons t rest =>
    dsimp only [List.head?_cons]
    split
    · next hk =>
      have hrest : rest.length ≤ size - 1 := Nat.le_sub_one_of_lt htokens
      exact ((hsome t).behindSkip (hP t hk) hrest).mono (Nat.le_succ _)
    · exact hnone (t :: rest) htokens

/-- A token that is expected is the one that is taken. -/
theorem local_expect {kind : Kind} {cause : ParseCause} (hP : ∀ t, t.kind = kind → P t) :
    Local P 1 size (expect kind cause) (expect kind cause) := by
  rw [expect_eq]
  refine local_peek? fun tokens htokens => ?_
  cases tokens with
  | nil => exact local_fail cause [] htokens
  | cons t rest =>
    dsimp only [List.head?_cons]
    split
    · next hk => exact (local_pure t).behindSkip (hP t hk) (Nat.le_refl _)
    · exact local_fail cause (t :: rest) htokens

/-! ## Expressions -/

/-- The kinds of tokens that stand in expressions. -/
def expressionKinds : List Kind :=
  [.leftParen, .rightParen, .minus, .plus, .slash, .star, .bang, .bangEqual, .equal, .equalEqual,
    .greater, .greaterEqual, .less, .lessEqual, .identifier, .string, .number, .andWord, .falseWord,
    .nullWord, .orWord, .trueWord]

/-- A token that stands in expressions. -/
def InExpression (t : Token) : Prop :=
  t.kind ∈ expressionKinds

/-- A kind in a list of kinds that stand in expressions is that of a token which does. -/
theorem inExpression_of_mem {kinds : List Kind} (hkinds : kinds ⊆ expressionKinds) (t : Token)
    (ht : t.kind ∈ kinds) : InExpression t :=
  hkinds ht

/-- A primary takes its first token, so the expression in its brackets is read from fewer. -/
theorem primary_local {inner inner' : Parser Expr}
    (h : Local InExpression 1 (size - 1) inner inner') :
    Local InExpression 1 size (primary inner) (primary inner') := by
  refine local_peek? fun tokens htokens => ?_
  cases tokens with
  | nil => exact local_fail _ [] htokens
  | cons t rest =>
    have hrest : rest.length ≤ size - 1 := Nat.le_sub_one_of_lt htokens
    have hskip : ∀ e : Expr, InExpression t →
        LocalAt InExpression 1 (do skip; return e) (do skip; return e) (t :: rest) :=
      fun e ht => (local_pure e).behindSkip ht (Nat.le_refl _)
    dsimp only [List.head?_cons]
    split <;> rename_i hk
    case h_7 =>
      have ht : InExpression t := by rw [InExpression, hk]; decide
      have hright : Local InExpression 1 (size - 1) (expect .rightParen .parenAfterExpression)
          (expect .rightParen .parenAfterExpression) := local_expect fun t ht => by
        rw [InExpression, ht]; decide
      exact ((h.bind fun e => hright.bind fun _ => local_pure _).behindSkip ht hrest).mono (by decide)
    case h_8 => exact local_fail _ (t :: rest) htokens
    all_goals exact hskip _ (by rw [InExpression, hk]; decide)

/-- Nothing is a chain without operators. -/
theorem chain_nil (level : Level) (operand : Parser Expr) (bound : Nat) (left : Expr) (stop : Token) :
    chain level operand bound left stop [] = ⟨.ok left, [], []⟩ := by
  cases bound <;> rfl

/-- No operator is read from no tokens. -/
theorem unary_nil (primary : Parser Expr) (bound : Nat) (stop : Token) :
    unary primary bound stop [] = primary stop [] := by
  cases bound <;> rfl

/-- Each unary operator is a token that is taken, so the bound on them is not reached. -/
theorem unary_local {primary primary' : Parser Expr}
    (h : Local InExpression 1 size primary primary') {bound bound' : Nat} (hbound : size ≤ bound)
    (hbound' : size ≤ bound') :
    Local InExpression 1 size (unary primary bound) (unary primary' bound') := by
  induction size generalizing bound bound' with
  | zero =>
    intro tokens htokens
    obtain rfl := List.eq_nil_of_length_eq_zero (Nat.le_zero.1 htokens)
    exact (h [] htokens).congr_nil (unary_nil primary bound) (unary_nil primary' bound')
  | succ size ih =>
    obtain ⟨bound, rfl⟩ : ∃ b, bound = b + 1 := ⟨bound - 1, by omega⟩
    obtain ⟨bound', rfl⟩ : ∃ b, bound' = b + 1 := ⟨bound' - 1, by omega⟩
    refine local_accept? (inExpression_of_mem (by decide)) (fun operator => ?_) h
    exact (ih (h.shrink (Nat.le_succ size)) (Nat.le_of_succ_le_succ hbound)
      (Nat.le_of_succ_le_succ hbound')).bind fun right => local_pure _

/-- Each operator of a chain is a token that is taken, so the bound on them is not reached. The chain may take
nothing at all. -/
theorem chain_local {level : Level} (hlevel : level.operators ⊆ expressionKinds)
    {operand operand' : Parser Expr} (h : Local InExpression 1 size operand operand')
    {bound bound' : Nat} (hbound : size ≤ bound) (hbound' : size ≤ bound') (left : Expr) :
    Local InExpression 0 size (chain level operand bound left) (chain level operand' bound' left) := by
  induction size generalizing bound bound' left with
  | zero =>
    intro tokens htokens
    obtain rfl := List.eq_nil_of_length_eq_zero (Nat.le_zero.1 htokens)
    exact (local_pure left [] htokens).congr_nil (chain_nil level operand bound left)
      (chain_nil level operand' bound' left)
  | succ size ih =>
    obtain ⟨bound, rfl⟩ : ∃ b, bound = b + 1 := ⟨bound - 1, by omega⟩
    obtain ⟨bound', rfl⟩ : ∃ b, bound' = b + 1 := ⟨bound' - 1, by omega⟩
    refine local_accept? (inExpression_of_mem hlevel) (fun operator => ?_) (local_pure left)
    have hsize := h.shrink (Nat.le_succ size)
    exact (hsize.mono (Nat.zero_le 1)).bind fun right => ih hsize (Nat.le_of_succ_le_succ hbound)
      (Nat.le_of_succ_le_succ hbound') _

/-- The levels of infix operators are local if the tightest operand is. -/
theorem infixes_local {tightest tightest' : Parser Expr}
    (h : Local InExpression 1 size tightest tightest') {bound bound' : Nat} (hbound : size ≤ bound)
    (hbound' : size ≤ bound') {ls : List Level}
    (hls : ∀ level ∈ ls, level.operators ⊆ expressionKinds) :
    Local InExpression 1 size (infixes bound tightest ls) (infixes bound' tightest' ls) := by
  induction ls with
  | nil => exact h
  | cons level tighter ih =>
    obtain ⟨hlevel, htighter⟩ := List.forall_mem_cons.1 hls
    exact (ih htighter).bind fun left => chain_local hlevel (ih htighter) hbound hbound' left

/-- An assignment is local if its target is, and its value from fewer tokens. -/
theorem assignment_local {target target' inner inner' : Parser Expr}
    (htarget : Local InExpression 1 size target target')
    (hinner : Local InExpression 1 (size - 1) inner inner') :
    Local InExpression 1 size (assignment target inner) (assignment target' inner') := by
  refine htarget.bind (k := 0) fun left => ?_
  refine local_accept? (inExpression_of_mem (by decide)) (fun equals => ?_) (local_pure left)
  refine (hinner.mono (Nat.zero_le 1)).bind (k := 0) fun value => ?_
  cases left with
  | read name => exact local_pure _
  | _ => exact (local_report _ _).bind fun _ => local_pure value

/-- With any bound, no expression is read from nothing. -/
theorem expression_nil (bound : Nat) (stop : Token) :
    expression bound stop [] = ⟨.error ⟨.expression, stop⟩, [], []⟩ := by
  cases bound with
  | zero => rfl
  | succ bound =>
    have htightest := unary_nil (primary (expression bound)) (bound + 1) stop
    have hinfixes : ∀ ls, infixes (bound + 1) (unary (primary (expression bound)) (bound + 1)) ls
        stop [] = ⟨.error ⟨.expression, stop⟩, [], []⟩ := by
      intro ls
      induction ls with
      | nil => exact htightest
      | cons level tighter ih => exact bind_of_error ih
    exact bind_of_error (hinfixes levels)

/-- The operators of every level stand in expressions. -/
theorem levels_subset_expressionKinds : ∀ level ∈ levels, level.operators ⊆ expressionKinds := by
  simp only [levels, List.forall_mem_cons]
  decide

/-- An expression is read in the same way with every bound that reaches the number of tokens. -/
theorem expression_local {bound bound' : Nat} (hbound : size ≤ bound) (hbound' : size ≤ bound') :
    Local InExpression 1 size (expression bound) (expression bound') := by
  induction size generalizing bound bound' with
  | zero =>
    intro tokens htokens
    obtain rfl := List.eq_nil_of_length_eq_zero (Nat.le_zero.1 htokens)
    exact (local_fail .expression [] htokens).congr_nil (expression_nil bound) (expression_nil bound')
  | succ size ih =>
    obtain ⟨bound, rfl⟩ : ∃ b, bound = b + 1 := ⟨bound - 1, by omega⟩
    obtain ⟨bound', rfl⟩ : ∃ b, bound' = b + 1 := ⟨bound' - 1, by omega⟩
    have hinner := ih (Nat.le_of_succ_le_succ hbound) (Nat.le_of_succ_le_succ hbound')
    have hprimary : Local InExpression 1 (size + 1) _ _ := primary_local hinner
    have hunary := unary_local hprimary hbound hbound'
    exact assignment_local (infixes_local hunary hbound hbound' levels_subset_expressionKinds) hinner

/-! ## Statements -/

/-- Any token. -/
abbrev Anything (_ : Token) : Prop :=
  True

section
variable {bound bound' : Nat} {inner inner' : Parser Stmt}

/-- Tokens that satisfy something are tokens. -/
theorem Local.any {p q : Parser α} (h : Local P least size p q) : Local Anything least size p q := by
  intro tokens htokens
  obtain ⟨htaken, hsame⟩ := h tokens htokens
  refine ⟨fun stop => ?_, hsame⟩
  obtain ⟨used, hused, -, hlength⟩ := htaken stop
  exact ⟨used, hused, fun _ _ => trivial, hlength⟩

/-- Expecting a kind takes one token. -/
theorem expect_local (kind : Kind) (cause : ParseCause) :
    Local Anything 1 size (expect kind cause) (expect kind cause) :=
  local_expect fun _ _ => trivial

/-- Accepting one of some kinds takes one token or none. -/
theorem accept?_local (kinds : List Kind) :
    Local Anything 0 size (accept? kinds) (accept? kinds) := by
  have h : Local Anything 0 size (accept? kinds >>= pure) (accept? kinds >>= pure) :=
    local_accept? (fun _ _ => trivial) (fun t => local_pure (some t)) (local_pure none)
  rwa [bind_pure] at h

/-- An expression statement is read by looking at the tokens alone. -/
theorem expressionStatement_local (hbound : size ≤ bound) (hbound' : size ≤ bound') :
    Local Anything 1 size (expressionStatement bound) (expressionStatement bound') :=
  (expression_local hbound hbound').any.bind fun _ => (expect_local _ _).bind fun _ => local_pure _

/-- A print statement is read by looking at the tokens alone. -/
theorem printStatement_local (hbound : size ≤ bound) (hbound' : size ≤ bound') :
    Local Anything 1 size (printStatement bound) (printStatement bound') :=
  (expression_local hbound hbound').any.bind fun _ => (expect_local _ _).bind fun _ => local_pure _

/-- An initial value that may be missing is read by looking at the tokens alone, and its tokens stand in
expressions: the equals sign does too. -/
theorem initializer?_local (hbound : size ≤ bound) (hbound' : size ≤ bound') :
    Local InExpression 0 size (initializer? bound) (initializer? bound') := by
  refine local_accept? (inExpression_of_mem (by decide)) (fun _ => ?_) (local_pure none)
  have he := (expression_local hbound hbound').shrink (Nat.sub_le size 1)
  exact (he.mono (Nat.zero_le 1)).bind fun _ => local_pure _

/-- A declaration of a variable is read by looking at the tokens alone. -/
theorem varDeclaration_local (hbound : size ≤ bound) (hbound' : size ≤ bound') :
    Local Anything 1 size (varDeclaration bound) (varDeclaration bound') :=
  (expect_local _ _).bind fun _ => (initializer?_local hbound hbound').any.bind fun _ =>
    (expect_local _ _).bind fun _ => local_pure _

/-- An expression that may be missing is read by looking at the tokens alone. -/
theorem optionalExpression_local (close : Kind) (hbound : size ≤ bound) (hbound' : size ≤ bound') :
    Local Anything 0 size (optionalExpression bound close) (optionalExpression bound' close) := by
  refine local_peekKind? fun tokens htokens => ?_
  split
  · exact local_pure none tokens htokens
  · have he := (expression_local hbound hbound').any.mono (Nat.zero_le 1)
    exact (he.bind fun _ => local_pure _) tokens htokens

/-- A parser that is chosen by the kind of the next token, and reads what stands behind that token. -/
theorem Local.behindWord {p q : Parser α} {kind : Kind} (h : Local Anything least (size - 1) p q)
    (htokens : tokens.length ≤ size) (hkind : tokens.head?.map Token.kind = some kind) :
    LocalAt Anything 1 (do skip; p) (do skip; q) tokens := by
  obtain ⟨t, rest, rfl, -⟩ := head?_kind_eq_some_iff.1 hkind
  exact (h.behindSkip trivial (Nat.le_sub_one_of_lt htokens)).mono (Nat.le_add_left 1 least)

/-- The first clause of a `for` statement is read by looking at the tokens alone. Where it is missing, its
semicolon is taken. -/
theorem forInitial_local (hbound : size ≤ bound) (hbound' : size ≤ bound') :
    Local Anything 1 size (forInitial bound) (forInitial bound') := by
  refine local_peekKind? fun tokens htokens => ?_
  split
  · next hkind => exact (local_pure none).behindWord htokens hkind
  · next hkind =>
    have hvar := (varDeclaration_local hbound hbound').shrink (Nat.sub_le size 1)
    exact (hvar.bind fun _ => local_pure _).behindWord htokens hkind
  · have hstmt := expressionStatement_local hbound hbound'
    exact (hstmt.bind fun _ => local_pure _) tokens htokens

/-- A `for` statement is local if its body is. -/
theorem forStatement_local (hbound : size ≤ bound) (hbound' : size ≤ bound')
    (h : Local Anything 1 size inner inner') :
    Local Anything 1 size (forStatement bound inner) (forStatement bound' inner') :=
  (expect_local _ _).bind fun _ => (forInitial_local hbound hbound').bind fun _ =>
    (optionalExpression_local _ hbound hbound').bind fun _ => (expect_local _ _).bind fun _ =>
      (optionalExpression_local _ hbound hbound').bind fun _ => (expect_local _ _).bind fun _ =>
        h.bind fun _ => local_pure _

/-- An `if` statement is local if what it chooses between is. -/
theorem ifStatement_local (hbound : size ≤ bound) (hbound' : size ≤ bound')
    (h : Local Anything 1 size inner inner') :
    Local Anything 1 size (ifStatement bound inner) (ifStatement bound' inner') := by
  refine (expect_local _ _).bind fun _ => (expression_local hbound hbound').any.bind fun condition =>
    (expect_local _ _).bind fun _ => h.bind (k := 0) fun yes => ?_
  refine local_accept? (fun _ _ => trivial) (fun _ => ?_) (local_pure _)
  exact ((h.shrink (Nat.sub_le size 1)).mono (Nat.zero_le 1)).bind fun _ => local_pure _

/-- A `while` statement is local if its body is. -/
theorem whileStatement_local (hbound : size ≤ bound) (hbound' : size ≤ bound')
    (h : Local Anything 1 size inner inner') :
    Local Anything 1 size (whileStatement bound inner) (whileStatement bound' inner') :=
  (expect_local _ _).bind fun _ => (expression_local hbound hbound').any.bind fun _ =>
    (expect_local _ _).bind fun _ => h.bind fun _ => local_pure _

/-- A declaration is local if the statements in it are. -/
theorem declaration_local (hbound : size ≤ bound) (hbound' : size ≤ bound')
    (h : Local Anything 1 size inner inner') :
    Local Anything 1 size (declaration bound inner) (declaration bound' inner') := by
  refine local_peekKind? fun tokens htokens => ?_
  split
  · next hkind =>
    have hvar := (varDeclaration_local hbound hbound').shrink (Nat.sub_le size 1)
    exact hvar.behindWord htokens hkind
  · exact h tokens htokens

/-! ## Recovery and rows of declarations -/

/-- Recovery drops tokens off the front. -/
theorem skipStatement_suffix (previous : Token) (tokens : List Token) :
    ∃ used, tokens = used ++ skipStatement previous tokens := by
  induction tokens generalizing previous with
  | nil => exact ⟨[], rfl⟩
  | cons t rest ih =>
    rw [skipStatement]
    split
    · exact ⟨[], rfl⟩
    · obtain ⟨used, hused⟩ := ih t
      exact ⟨t :: used, congrArg (t :: ·) hused⟩

/-- Where recovery comes to an end, it does so whatever follows. -/
theorem skipStatement_append (previous : Token) (tokens : List Token) (more : List Token)
    (h : skipStatement previous tokens ≠ []) :
    skipStatement previous (tokens ++ more) = skipStatement previous tokens ++ more := by
  induction tokens generalizing previous with
  | nil => exact absurd rfl h
  | cons t rest ih =>
    rw [skipStatement] at h
    rw [List.cons_append, skipStatement, skipStatement]
    split at h
    · next hstop => rw [if_pos hstop, if_pos hstop]; rfl
    · next hgo => rw [if_neg hgo, if_neg hgo]; exact ih t h

/-- Recovery takes tokens off the front, and at least the blamed one if there is any. -/
theorem synchronize_suffix (tokens : List Token) :
    ∃ used, tokens = used ++ synchronize tokens ∧ (tokens ≠ [] → 1 ≤ used.length) := by
  cases tokens with
  | nil => exact ⟨[], rfl, fun h => absurd rfl h⟩
  | cons t rest =>
    obtain ⟨used, hused⟩ := skipStatement_suffix t rest
    exact ⟨t :: used, congrArg (t :: ·) hused, fun _ => Nat.le_add_left 1 _⟩

/-- Recovery that ends before a token does not look at what stands behind it. -/
theorem synchronize_append (tokens : List Token) (more : List Token) (h : synchronize tokens ≠ []) :
    synchronize (tokens ++ more) = synchronize tokens ++ more := by
  cases tokens with
  | nil => exact absurd rfl h
  | cons t rest => exact skipStatement_append t rest more h

/-- Recovery has nothing to do with a result. -/
theorem recovering_of_ok {p : Parser α} {stop : Token} {a : α} {reports : List ParseFault}
    {rest : List Token} (h : p stop tokens = ⟨.ok a, reports, rest⟩) :
    recovering p stop tokens = ⟨.ok (some a), reports, rest⟩ := by
  simp only [recovering, h]

/-- Behind a fault, recovery reports it and takes the rest of the statement. -/
theorem recovering_of_error {p : Parser α} {stop : Token} {fault : ParseFault}
    {reports : List ParseFault} {rest : List Token}
    (h : p stop tokens = ⟨.error fault, reports, rest⟩) :
    recovering p stop tokens = ⟨.ok none, reports ++ [fault], synchronize rest⟩ := by
  simp only [recovering, h]

/-- Recovery takes a token where there is one, also if the parser that stopped took none. -/
theorem LocalAt.recovering {p q : Parser α} (h : LocalAt Anything 1 p q tokens) (hne : tokens ≠ []) :
    LocalAt Anything 1 (recovering p) (recovering q) tokens := by
  constructor
  · intro stop
    obtain ⟨used, hused, -, hleast⟩ := h.taken stop
    rcases hfirst : p stop tokens with ⟨fault | a, reports, rest⟩ <;> rw [hfirst] at hused hleast
    · rw [recovering_of_error hfirst]
      obtain ⟨used', hused', hleast'⟩ := synchronize_suffix rest
      refine ⟨used ++ used', ?_, fun _ _ => trivial, fun _ _ => ?_⟩
      · rw [List.append_assoc, ← hused', hused]
      · rw [List.length_append]
        cases rest with
        | nil =>
          rw [hused, List.append_nil] at hne
          exact Nat.le_add_right_of_le (List.length_pos_iff.2 hne)
        | cons t rest => exact Nat.le_add_left_of_le (hleast' (List.cons_ne_nil t rest))
    · rw [recovering_of_ok hfirst]
      exact ⟨used, hused, fun _ _ => trivial, fun _ _ => hleast a rfl⟩
  · intro stop stop' more hmore
    have hsame := h.same stop stop' more
    rcases hfirst : p stop tokens with ⟨fault | a, reports, rest⟩ <;> rw [hfirst] at hsame
    · rw [recovering_of_error hfirst] at hmore ⊢
      have hrest : rest = [] → more = [] ∧ stop' = stop := by
        rintro rfl
        exact hmore rfl
      rw [recovering_of_error (hsame hrest), Outcome.before]
      by_cases hsync : synchronize rest = []
      · obtain ⟨rfl, -⟩ := hmore hsync
        rw [List.append_nil, List.append_nil]
      · rw [synchronize_append rest more hsync]
    · rw [recovering_of_ok hfirst] at hmore ⊢
      rw [recovering_of_ok (hsame hmore)]
      rfl

/-- Nothing is a row without declarations. -/
theorem declarations_nil (closing : List Kind) (one : Parser Stmt) (bound : Nat) (stop : Token) :
    declarations closing one bound stop [] = ⟨.ok [], [], []⟩ := by
  cases bound <;> rfl

/-- A row of declarations is local if each of them is. Where one takes nothing, the recovery from its fault takes a
token. -/
theorem declarations_local (closing : List Kind) {one one' : Parser Stmt}
    (h : Local Anything 1 size one one') (hbound : size ≤ bound) (hbound' : size ≤ bound') :
    Local Anything 0 size (declarations closing one bound) (declarations closing one' bound') := by
  induction size generalizing bound bound' with
  | zero =>
    intro tokens htokens
    obtain rfl := List.eq_nil_of_length_eq_zero (Nat.le_zero.1 htokens)
    exact (local_pure [] [] htokens).congr_nil (declarations_nil closing one bound)
      (declarations_nil closing one' bound')
  | succ size ih =>
    obtain ⟨bound, rfl⟩ : ∃ b, bound = b + 1 := ⟨bound - 1, by omega⟩
    obtain ⟨bound', rfl⟩ : ∃ b, bound' = b + 1 := ⟨bound' - 1, by omega⟩
    have hothers := ih (h.shrink (Nat.le_succ size)) (Nat.le_of_succ_le_succ hbound)
      (Nat.le_of_succ_le_succ hbound')
    refine local_peekKind? fun tokens htokens => ?_
    cases tokens with
    | nil => exact local_pure [] [] htokens
    | cons t rest =>
      dsimp only [List.head?_cons, Option.map_some]
      split
      · exact local_pure [] (t :: rest) htokens
      · have hfirst := (h (t :: rest) htokens).recovering (List.cons_ne_nil t rest)
        -- The first declaration has taken a token, so the others have a smaller bound.
        have hsize : (t :: rest).length - 1 ≤ size := Nat.le_of_succ_le_succ htokens
        exact (hfirst.bind fun first => (hothers.shrink hsize).bind fun others => local_pure _).mono
          (Nat.zero_le 1)

/-- A block is local if the statements in it are. -/
theorem block_local (hbound : size ≤ bound) (hbound' : size ≤ bound')
    (h : Local Anything 1 size inner inner') :
    Local Anything 0 size (block bound inner) (block bound' inner') :=
  (declarations_local _ (declaration_local hbound hbound' h) hbound hbound').bind fun _ =>
    (expect_local _ _).bind fun _ => local_pure _

/-- With any bound, no statement is read from nothing. -/
theorem statement_nil (bound : Nat) (stop : Token) :
    statement bound stop [] = ⟨.error ⟨.expression, stop⟩, [], []⟩ := by
  cases bound with
  | zero => rfl
  | succ bound =>
    rw [statement, peekKind?_bind]
    simp only [List.head?_nil, Option.map_none]
    exact bind_of_error (expression_nil (bound + 1) stop)

/-- A statement is read in the same way with every bound that reaches the number of tokens. -/
theorem statement_local (hbound : size ≤ bound) (hbound' : size ≤ bound') :
    Local Anything 1 size (statement bound) (statement bound') := by
  induction size generalizing bound bound' with
  | zero =>
    intro tokens htokens
    obtain rfl := List.eq_nil_of_length_eq_zero (Nat.le_zero.1 htokens)
    exact (local_fail .expression [] htokens).congr_nil (statement_nil bound) (statement_nil bound')
  | succ size ih =>
    obtain ⟨bound, rfl⟩ : ∃ b, bound = b + 1 := ⟨bound - 1, by omega⟩
    obtain ⟨bound', rfl⟩ : ∃ b, bound' = b + 1 := ⟨bound' - 1, by omega⟩
    have hsize := Nat.le_of_succ_le_succ hbound
    have hsize' := Nat.le_of_succ_le_succ hbound'
    have hinner := ih hsize hsize'
    refine local_peekKind? fun tokens htokens => ?_
    split
    · next hk => exact (forStatement_local hsize hsize' hinner).behindWord htokens hk
    · next hk => exact (ifStatement_local hsize hsize' hinner).behindWord htokens hk
    · next hk => exact (whileStatement_local hsize hsize' hinner).behindWord htokens hk
    · next hk => exact (block_local hsize hsize' hinner).behindWord htokens hk
    · next hk => exact (printStatement_local hsize hsize').behindWord htokens hk
    · exact expressionStatement_local hbound hbound' tokens htokens

/-- A declaration is read in the same way with every bound that reaches the number of tokens. -/
theorem declaration_statement_local (hbound : size ≤ bound) (hbound' : size ≤ bound') :
    Local Anything 1 size (declaration bound (statement bound))
      (declaration bound' (statement bound')) :=
  declaration_local hbound hbound' (statement_local hbound hbound')

end

end Parser

end LoxLang
