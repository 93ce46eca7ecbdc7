import LoxLang.Parse.Stmt

/-!
# Reading without a fault

`Reads p stop tokens a rest` says that the parser `p` reads `a` from the front of `tokens`, leaves `rest`
and reports nothing. One equivalence for each combinator turns a clean reading of a `do` block into clean
readings of its lines, so a proof about a parser never opens an outcome. `NextNot kinds tokens`, which
says that no token of the given kinds comes next, is what a parser that looks ahead leaves behind.
-/

namespace LoxLang.Parser

variable {α β : Type} {stop : Token} {tokens rest : List Token}

/-- The parser reads `a`, leaves `rest` and reports nothing. -/
def Reads (p : Parser α) (stop : Token) (tokens : List Token) (a : α) (rest : List Token) : Prop :=
  p stop tokens = ⟨.ok a, [], rest⟩

/-- No token of the given kinds comes next. -/
def NextNot (kinds : List Kind) (tokens : List Token) : Prop :=
  ∀ t ∈ tokens.head?, t.kind ∉ kinds

@[simp] theorem nextNot_nil (kinds : List Kind) : NextNot kinds [] :=
  nofun

@[simp] theorem nextNot_cons {kinds : List Kind} {t : Token} :
    NextNot kinds (t :: rest) ↔ t.kind ∉ kinds := by
  simp [NextNot]

/-- What does not come next among some kinds does not among fewer. -/
theorem NextNot.mono {kinds kinds' : List Kind} (h : NextNot kinds tokens) (hsub : kinds' ⊆ kinds) :
    NextNot kinds' tokens :=
  fun t ht hk => h t ht (hsub hk)

/-! ## Sequencing -/

/-- Two clean outcomes are the same if they have the same tree and leave the same tokens. -/
theorem clean_eq_iff {a b : α} :
    (⟨.ok a, [], tokens⟩ : Outcome α) = ⟨.ok b, [], rest⟩ ↔ b = a ∧ rest = tokens := by
  rw [Outcome.mk.injEq, Except.ok.injEq]
  constructor
  · rintro ⟨rfl, -, rfl⟩
    exact ⟨rfl, rfl⟩
  · rintro ⟨rfl, rfl⟩
    exact ⟨rfl, rfl, rfl⟩

/-- A parser that takes nothing reads its own result. -/
@[simp] theorem reads_pure {a b : α} :
    Reads (pure a) stop tokens b rest ↔ b = a ∧ rest = tokens :=
  clean_eq_iff

/-- A clean reading of two parsers in a row is a clean reading of the first and, on what it leaves, one of
the second. -/
@[simp] theorem reads_bind {p : Parser α} {f : α → Parser β} {b : β} :
    Reads (p >>= f) stop tokens b rest ↔
      ∃ a mid, Reads p stop tokens a mid ∧ Reads (f a) stop mid b rest := by
  constructor
  · intro h
    obtain ⟨result, reports, mid, hp⟩ : ∃ result reports mid, p stop tokens = ⟨result, reports, mid⟩ :=
      ⟨_, _, _, rfl⟩
    cases result with
    | error fault =>
      rw [Reads, bind_of_error hp] at h
      cases h
    | ok a =>
      rw [Reads, bind_of_ok hp, Outcome.mk.injEq, List.append_eq_nil_iff] at h
      obtain ⟨hresult, ⟨rfl, hreports⟩, hrest⟩ := h
      refine ⟨a, mid, hp, ?_⟩
      rw [Reads, ← hresult, ← hrest, ← hreports]
  · rintro ⟨a, mid, hp, hf⟩
    rw [Reads] at hf
    rw [Reads, bind_of_ok hp, hf]
    rfl

/-! ## Single tokens -/

/-- A parser that fails reads nothing. -/
@[simp] theorem not_reads_fail {cause : ParseCause} {a : α} :
    ¬ Reads (fail cause) stop tokens a rest :=
  nofun

/-- A parser that reports a fault does not read cleanly. -/
@[simp] theorem not_reads_report {cause : ParseCause} {t : Token} {u : Unit} :
    ¬ Reads (report cause t) stop tokens u rest :=
  nofun

/-- Looking at the next token takes none. -/
@[simp] theorem reads_peek? {o : Option Token} :
    Reads peek? stop tokens o rest ↔ o = tokens.head? ∧ rest = tokens :=
  clean_eq_iff

/-- Looking at the kind of the next token takes none. -/
@[simp] theorem reads_peekKind? {o : Option Kind} :
    Reads peekKind? stop tokens o rest ↔ o = tokens.head?.map Token.kind ∧ rest = tokens :=
  clean_eq_iff

/-- Dropping a token leaves those behind it. -/
@[simp] theorem reads_skip {u : Unit} : Reads skip stop tokens u rest ↔ rest = tokens.tail :=
  clean_eq_iff.trans (and_iff_right rfl)

/-- Dropping a token and answering. -/
theorem reads_skip_pure {t : Token} {a b : α} :
    Reads (do skip; return a) stop (t :: tokens) b rest ↔ b = a ∧ rest = tokens := by
  simp only [reads_bind, reads_skip, reads_pure, List.tail_cons]
  constructor
  · rintro ⟨_, _, rfl, h⟩
    exact h
  · intro h
    exact ⟨(), tokens, rfl, h⟩

/-- A token is taken if it is of one of the given kinds; otherwise nothing is. -/
theorem reads_accept? {kinds : List Kind} {o : Option Token} :
    Reads (accept? kinds) stop tokens o rest ↔
      (∃ t, o = some t ∧ tokens = t :: rest ∧ t.kind ∈ kinds) ∨
        o = none ∧ rest = tokens ∧ NextNot kinds tokens := by
  rw [Reads]
  cases tokens with
  | nil =>
    rw [accept?, Outcome.mk.injEq, Except.ok.injEq]
    simp [eq_comm]
  | cons t ts =>
    rw [accept?]
    by_cases hk : t.kind ∈ kinds
    · rw [if_pos hk, Outcome.mk.injEq, Except.ok.injEq]
      simp only [nextNot_cons, hk, not_true, and_false, or_false, List.cons.injEq]
      constructor
      · rintro ⟨rfl, _, rfl⟩
        exact ⟨t, rfl, ⟨rfl, rfl⟩, hk⟩
      · rintro ⟨_, rfl, ⟨rfl, rfl⟩, _⟩
        exact ⟨rfl, trivial, rfl⟩
    · rw [if_neg hk, Outcome.mk.injEq, Except.ok.injEq]
      simp only [nextNot_cons, hk, not_false_eq_true, and_true, List.cons.injEq]
      constructor
      · rintro ⟨rfl, _, rfl⟩
        exact .inr ⟨rfl, rfl⟩
      · rintro (⟨_, _, ⟨rfl, _⟩, hk'⟩ | ⟨rfl, rfl⟩)
        · exact absurd hk' hk
        · exact ⟨rfl, trivial, rfl⟩

/-- A token of a kind is read cleanly where one of that kind comes next. -/
@[simp] theorem reads_expect {kind : Kind} {cause : ParseCause} {t : Token} :
    Reads (expect kind cause) stop tokens t rest ↔ tokens = t :: rest ∧ t.kind = kind := by
  rw [Reads]
  cases tokens with
  | nil => simp [expect]
  | cons t' ts =>
    rw [expect]
    split
    · next hk =>
      rw [Outcome.mk.injEq, Except.ok.injEq, List.cons.injEq]
      constructor
      · rintro ⟨rfl, _, rfl⟩
        exact ⟨⟨rfl, rfl⟩, hk⟩
      · rintro ⟨⟨rfl, rfl⟩, _⟩
        exact ⟨rfl, rfl, rfl⟩
    · next hk =>
      constructor
      · nofun
      · rintro ⟨heq, hk'⟩
        rw [List.cons.injEq] at heq
        rw [heq.1] at hk
        exact absurd hk' hk

/-! ## Recovery -/

/-- Recovery reports what it recovers from, so it reads cleanly what its parser does. -/
@[simp] theorem reads_recovering {p : Parser α} {o : Option α} :
    Reads (recovering p) stop tokens o rest ↔ ∃ a, o = some a ∧ Reads p stop tokens a rest := by
  rw [Reads, recovering]
  cases hp : p stop tokens with
  | mk result reports mid =>
    cases result with
    | error fault => simp [Reads, hp]
    | ok a =>
      simp only [Reads, hp, Outcome.mk.injEq, Except.ok.injEq]
      constructor
      · rintro ⟨rfl, rfl, rfl⟩
        exact ⟨a, rfl, rfl, rfl, rfl⟩
      · rintro ⟨_, rfl, rfl, rfl, rfl⟩
        exact ⟨rfl, rfl, rfl⟩

/-! ## Parsers that never stop -/

/-- The parser answers on every token list, whatever it reports. -/
def Total (p : Parser α) : Prop :=
  ∀ stop tokens, ∃ a, (p stop tokens).result = .ok a

/-- A parser that takes nothing never fails. -/
theorem total_pure (a : α) : Total (pure a) :=
  fun _ _ => ⟨a, rfl⟩

/-- Looking ahead never fails. -/
theorem total_peekKind? : Total peekKind? :=
  fun _ _ => ⟨_, rfl⟩

/-- Two parsers in a row never fail if neither does. -/
theorem total_bind {p : Parser α} {f : α → Parser β} (hp : Total p) (hf : ∀ a, Total (f a)) :
    Total (p >>= f) := by
  intro stop tokens
  obtain ⟨a, ha⟩ := hp stop tokens
  obtain ⟨b, hb⟩ := hf a stop (p stop tokens).rest
  have hfirst : p stop tokens = ⟨.ok a, (p stop tokens).reports, (p stop tokens).rest⟩ := by
    rw [← ha]
  refine ⟨b, ?_⟩
  rw [bind_of_ok hfirst]
  exact hb

/-- A parser with recovery never fails: it reports the fault instead. -/
theorem total_recovering (p : Parser α) : Total (recovering p) := by
  intro stop tokens
  cases h : (p stop tokens).result with
  | ok a => exact ⟨some a, by simp [recovering, h]⟩
  | error fault => exact ⟨none, by simp [recovering, h]⟩

/-- A row of declarations is read from every token list: faults are recovered from, one by one. -/
theorem total_declarations (closing : List Kind) (one : Parser Stmt) (bound : Nat) :
    Total (declarations closing one bound) := by
  induction bound with
  | zero => exact total_pure []
  | succ bound ih =>
    refine total_bind total_peekKind? fun next => ?_
    cases next with
    | none => exact total_pure []
    | some kind =>
      dsimp only
      split
      · exact total_pure []
      · exact total_bind (total_recovering one) fun first => total_bind ih fun others => total_pure _

/-! ## Choosing by the next token

The parsers of statements look at the kind of the next token and then drop it. -/

/-- A kind that comes next is that of a first token. -/
theorem head?_kind_eq_some_iff {kind : Kind} :
    tokens.head?.map Token.kind = some kind ↔ ∃ t ts, tokens = t :: ts ∧ t.kind = kind := by
  cases tokens with
  | nil => simp
  | cons t ts => simp

end LoxLang.Parser
