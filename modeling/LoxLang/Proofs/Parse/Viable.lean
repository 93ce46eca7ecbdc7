import LoxLang.Proofs.Parse.Blame

/-!
# Prefixes that can be completed

A parser *accepts* tokens if it answers and no fault unwinds, and it *rejects* them if some fault does. What a
parser has taken when it answers or is stopped is in one of two states. It is complete (`Passes`): the parser
accepts it again, with the same answer, before the token that came next and before every other that may follow. Or
something in it is missing at the token that came next (`Sticks`): it can be completed, but not if that token is
kept, whatever comes behind it.

Each parser says what may follow it (`Follow`), so that a completion of one parser can be put before that of
another. There is one rule for each combinator. Two parsers in a row are stuck in the first one, which is then
completed and filled up with anything the second one accepts (`Fills`), or in the second one, whose completion has
to begin with something that may follow the first.

A parser here is a family over its bound, and all of this is about the bounds that reach the number of tokens.
-/

namespace LoxLang

/-- The kind of the next token. -/
abbrev nextKind (tokens : List Token) : Option Kind :=
  tokens.head?.map Token.kind

/-- The faults of an outcome, the one that stopped the parser included. -/
def Outcome.faults {α : Type} (o : Outcome α) : List ParseFault :=
  match o.result with
  | .ok _ => o.reports
  | .error fault => o.reports ++ [fault]

namespace Parser

variable {α β : Type} {p q : Nat → Parser α} {tokens tokens' used used' mid rest : List Token} {a : α} {b : β}
  {t : Token}

/-! ## Accepted and rejected tokens -/

/-- The parser reads `a` from the tokens and leaves `rest`, and no fault unwinds. -/
def Accepts (p : Nat → Parser α) (tokens : List Token) (a : α) (rest : List Token) : Prop :=
  ∀ bound stop, tokens.length ≤ bound →
    ∃ reports, p bound stop tokens = ⟨.ok a, reports, rest⟩ ∧ ∀ fault ∈ reports, ¬ fault.unwinds

/-- The parser finds a fault in the tokens that unwinds. -/
def Rejects (p : Nat → Parser α) (tokens : List Token) : Prop :=
  ∀ bound stop, tokens.length ≤ bound → ∃ fault ∈ (p bound stop tokens).faults, fault.unwinds

/-- One parser does with some tokens what another one does with others. -/
def Alike (p : Nat → Parser α) (tokens : List Token) (q : Nat → Parser α) (tokens' : List Token) : Prop :=
  ∀ bound stop, tokens.length ≤ bound →
    ∃ bound', tokens'.length ≤ bound' ∧ p bound stop tokens = q bound' stop tokens'

/-- What one parser accepts, one that does the same accepts. -/
theorem Accepts.alike (h : Accepts q tokens' a rest) (halike : Alike p tokens q tokens') :
    Accepts p tokens a rest := by
  intro bound stop hbound
  obtain ⟨bound', hbound', heq⟩ := halike bound stop hbound
  rw [heq]
  exact h bound' stop hbound'

/-- What one parser rejects, one that does the same rejects. -/
theorem Rejects.alike (h : Rejects q tokens') (halike : Alike p tokens q tokens') : Rejects p tokens := by
  intro bound stop hbound
  obtain ⟨bound', hbound', heq⟩ := halike bound stop hbound
  rw [heq]
  exact h bound' stop hbound'

/-- Two parsers that do the same with every bound are alike. -/
theorem alike_of_eq (h : ∀ bound stop, tokens.length ≤ bound → p bound stop tokens = q bound stop tokens) :
    Alike p tokens q tokens :=
  fun bound stop hbound => ⟨bound, hbound, h bound stop hbound⟩

/-- A parser that drops a token and goes on as another one. -/
theorem alike_behind (h : ∀ bound stop, p bound stop (t :: tokens) = q bound stop tokens) :
    Alike p (t :: tokens) q tokens :=
  fun bound stop hbound => ⟨bound, Nat.le_of_succ_le hbound, h bound stop⟩

/-- A result of its own is accepted with no tokens. -/
theorem accepts_pure (a : α) (rest : List Token) : Accepts (fun _ => pure a) rest a rest :=
  fun _ _ _ => ⟨[], rfl, List.forall_mem_nil _⟩

section
variable {g : α → Nat → Parser β}

/-- Behind a result, the faults of two parsers in a row are the reports of the first and the faults of the second.
-/
theorem faults_bind_of_ok {p : Parser α} {f : α → Parser β} {stop : Token} {reports : List ParseFault}
    (h : p stop tokens = ⟨.ok a, reports, rest⟩) :
    ((p >>= f) stop tokens).faults = reports ++ (f a stop rest).faults := by
  rw [bind_of_ok h]
  rcases f a stop rest with ⟨fault | b, reports', rest'⟩ <;> simp [Outcome.faults]

/-- What two parsers accept one behind the other, they accept in a row. -/
theorem Accepts.bind (hp : Accepts p (used ++ mid) a mid) (hg : Accepts (g a) mid b rest) :
    Accepts (fun n => p n >>= fun a => g a n) (used ++ mid) b rest := by
  intro bound stop hbound
  obtain ⟨reports, hfirst, hreports⟩ := hp bound stop hbound
  rw [List.length_append] at hbound
  obtain ⟨reports', hsecond, hreports'⟩ := hg bound stop (by omega)
  refine ⟨reports ++ reports', ?_, List.forall_mem_append.2 ⟨hreports, hreports'⟩⟩
  show (p bound >>= fun a => g a bound) stop (used ++ mid) = _
  rw [bind_of_ok hfirst, hsecond]

/-- What the first of two parsers rejects is rejected. -/
theorem Rejects.bind (h : Rejects p tokens) : Rejects (fun n => p n >>= fun a => g a n) tokens := by
  intro bound stop hbound
  obtain ⟨fault, hfault, hunwinds⟩ := h bound stop hbound
  refine ⟨fault, ?_, hunwinds⟩
  show fault ∈ ((p bound >>= fun a => g a bound) stop tokens).faults
  rcases hfirst : p bound stop tokens with ⟨fault' | a, reports, rest⟩ <;> rw [hfirst] at hfault
  · rw [bind_of_error hfirst]
    exact hfault
  · rw [faults_bind_of_ok hfirst]
    exact List.mem_append_left _ hfault

/-- What the second of two parsers rejects is rejected. -/
theorem Accepts.bind_rejects (hp : Accepts p (used ++ mid) a mid) (hg : Rejects (g a) mid) :
    Rejects (fun n => p n >>= fun a => g a n) (used ++ mid) := by
  intro bound stop hbound
  obtain ⟨reports, hfirst, -⟩ := hp bound stop hbound
  rw [List.length_append] at hbound
  obtain ⟨fault, hfault, hunwinds⟩ := hg bound stop (by omega)
  refine ⟨fault, ?_, hunwinds⟩
  show fault ∈ ((p bound >>= fun a => g a bound) stop (used ++ mid)).faults
  rw [faults_bind_of_ok hfirst]
  exact List.mem_append_right _ hfault

end

/-! ## What may follow -/

/-- A condition on what comes next. -/
abbrev Follow := Option Kind → Prop

namespace Follow

/-- Anything may follow. -/
def any : Follow :=
  fun _ => True

/-- Only a token of the given kind may follow. -/
def only (kind : Kind) : Follow :=
  fun next => next = some kind

/-- No token of the given kinds may follow. -/
def except (kinds : List Kind) : Follow :=
  fun next => ∀ kind ∈ next, kind ∉ kinds

/-- Only a token of the given kinds may follow, or the end. -/
def closing (kinds : List Kind) : Follow :=
  fun next => ∀ kind ∈ next, kind ∈ kinds

/-- A token follows that is of none of the given kinds. -/
def opening (kinds : List Kind) : Follow :=
  fun next => ∃ kind, next = some kind ∧ kind ∉ kinds

/-- A token may follow if its kind is none of the excepted ones. -/
theorem except_some {kind : Kind} {kinds : List Kind} : except kinds (some kind) ↔ kind ∉ kinds := by
  simp [except]

/-- What may follow except for two lists of kinds may do so except for both together. -/
theorem except.append {kinds kinds' : List Kind} {next : Option Kind} (h : except kinds next)
    (h' : except kinds' next) : except (kinds ++ kinds') next :=
  fun kind hkind hmem => (List.mem_append.1 hmem).elim (h kind hkind) (h' kind hkind)

/-- A single kind that is not excepted may follow. -/
theorem except_of_only {kind : Kind} {kinds : List Kind} (h : kind ∉ kinds) :
    ∀ next, only kind next → except kinds next := by
  rintro _ rfl _ ⟨⟩
  exact h

/-- What may follow except for some kinds may do so except for fewer. -/
theorem except_mono {kinds kinds' : List Kind} (h : kinds' ⊆ kinds) :
    ∀ next, except kinds next → except kinds' next :=
  fun _ hnext kind hkind hmem => hnext kind hkind (h hmem)

/-- The closing kinds may follow except for others. -/
theorem except_of_closing {kinds kinds' : List Kind} (h : ∀ kind ∈ kinds, kind ∉ kinds') :
    ∀ next, closing kinds next → except kinds' next :=
  fun _ hnext kind hkind => h kind (hnext kind hkind)

/-- What is not of a kind may follow except for that kind. -/
theorem except_singleton {kind : Kind} {next : Option Kind} (h : next ≠ some kind) : except [kind] next := by
  rintro _ ⟨⟩ hmem
  exact h (congrArg some (List.mem_singleton.1 hmem))

/-- A row is closed by a token of a closing kind, and by the end. -/
theorem closing_of_all {kinds : List Kind} {next : Option Kind} (h : next.all (· ∈ kinds) = true) :
    closing kinds next := by
  rintro kind ⟨⟩
  simpa using h

/-- A row is open before a token of another kind. -/
theorem opening_of_all {kinds : List Kind} {next : Option Kind} (h : next.all (· ∈ kinds) = false) :
    opening kinds next := by
  cases next with
  | none => cases h
  | some kind => exact ⟨kind, rfl, by simpa using h⟩

end Follow

variable {F F' G G' H : Follow}

/-- The parser accepts some tokens before everything that may follow. With what follows, they begin with something
that meets the condition `G`. -/
def Fills (F G : Follow) (p : Nat → Parser α) : Prop :=
  ∃ filling a, (∀ t ∈ filling, t.kind ≠ .eof) ∧ ∀ rest, F (nextKind rest) →
    G (nextKind (filling ++ rest)) ∧ Accepts p (filling ++ rest) a rest

/-- The parser accepts what it has taken before the token that came next, and before everything that may follow. In
each case, the tokens begin as before or with something that meets the condition `G`. -/
def Passes (F G : Follow) (p : Nat → Parser α) (used rest : List Token) (a : α) : Prop :=
  ∀ rest', (nextKind rest' = nextKind rest ∨ F (nextKind rest')) →
    Accepts p (used ++ rest') a rest' ∧
      (nextKind (used ++ rest') = nextKind (used ++ rest) ∨ G (nextKind (used ++ rest')))

/-- What the parser has taken can be completed, unless this is nothing. It cannot be with the token that came
next. -/
structure Sticks (F : Follow) (p : Nat → Parser α) (used rest : List Token) : Prop where
  completes : used ≠ [] → ∃ more a, (∀ t ∈ more, t.kind ≠ .eof) ∧
    ∀ rest', F (nextKind rest') → Accepts p (used ++ (more ++ rest')) a rest'
  rejects : ∀ t ∈ rest.head?, ∀ more, Rejects p (used ++ t :: more)

/-- The next of some tokens is the first of them, whatever stands behind. -/
theorem nextKind_append (h : used ≠ []) (rest : List Token) : nextKind (used ++ rest) = nextKind used := by
  obtain ⟨t, ts, rfl⟩ := List.exists_cons_of_ne_nil h
  rfl

/-- The next token stays the next one when what stands behind it is exchanged. -/
theorem nextKind_of_head? (h : t ∈ rest.head?) (more : List Token) :
    nextKind (used ++ t :: more) = nextKind (used ++ rest) := by
  cases used with
  | nil =>
    obtain ⟨rest, rfl⟩ := List.head?_eq_some_iff.1 h
    rfl
  | cons => rfl

/-! ## Less may follow -/

/-- What a parser is filled up with serves where less may follow. -/
theorem Fills.mono (h : Fills F G p) (hF : ∀ next, F' next → F next) (hG : ∀ next, G next → G' next) :
    Fills F' G' p := by
  obtain ⟨filling, a, hmark, hfilling⟩ := h
  refine ⟨filling, a, hmark, fun rest hrest => ?_⟩
  obtain ⟨hbegins, haccepts⟩ := hfilling rest (hF _ hrest)
  exact ⟨hG _ hbegins, haccepts⟩

/-- What passes before everything that may follow passes before less. -/
theorem Passes.mono (h : Passes F G p used rest a) (hF : ∀ next, F' next → F next)
    (hG : ∀ next, G next → G' next) : Passes F' G' p used rest a := by
  intro rest' hrest'
  obtain ⟨haccepts, hbegins⟩ := h rest' (hrest'.imp_right (hF _))
  exact ⟨haccepts, hbegins.imp_right (hG _)⟩

/-- What is stuck can be completed before less than everything that may follow. -/
theorem Sticks.mono (h : Sticks F p used rest) (hF : ∀ next, F' next → F next) : Sticks F' p used rest where
  completes hne := by
    obtain ⟨more, a, hmark, haccepts⟩ := h.completes hne
    exact ⟨more, a, hmark, fun rest' hrest' => haccepts rest' (hF _ hrest')⟩
  rejects := h.rejects

/-- Where nothing was taken, a filling completes it. -/
theorem Sticks.exists_completion (h : Sticks F p used rest) (hfills : Fills F G p) :
    ∃ more a, (∀ t ∈ more, t.kind ≠ .eof) ∧
      ∀ rest', F (nextKind rest') → Accepts p (used ++ (more ++ rest')) a rest' := by
  by_cases hne : used = []
  · subst hne
    obtain ⟨filling, a, hmark, hfilling⟩ := hfills
    exact ⟨filling, a, hmark, fun rest' hrest' => (hfilling rest' hrest').2⟩
  · exact h.completes hne

/-! ## Sequencing -/

/-- A result of its own needs nothing to be filled up with. -/
theorem fills_pure (a : α) : Fills F F (fun _ => pure a) :=
  ⟨[], a, List.forall_mem_nil _, fun rest hrest => ⟨hrest, accepts_pure a rest⟩⟩

section
variable {g : α → Nat → Parser β}

/-- Two parsers in a row are filled up one behind the other, if the second begins with what may follow the first.
-/
theorem Fills.bind (hp : Fills F G p) (hg : ∀ a, Fills F' F (g a)) :
    Fills F' G (fun n => p n >>= fun a => g a n) := by
  obtain ⟨filling, a, hmark, hfilling⟩ := hp
  obtain ⟨filling', b, hmark', hfilling'⟩ := hg a
  refine ⟨filling ++ filling', b, List.forall_mem_append.2 ⟨hmark, hmark'⟩, fun rest hrest => ?_⟩
  obtain ⟨hbegins', haccepts'⟩ := hfilling' rest hrest
  obtain ⟨hbegins, haccepts⟩ := hfilling (filling' ++ rest) hbegins'
  rw [List.append_assoc]
  exact ⟨hbegins, haccepts.bind haccepts'⟩

/-- What two parsers pass one behind the other, they pass in a row. -/
theorem Passes.bind (hp : Passes F G p used (used' ++ rest) a) (hg : Passes F' F (g a) used' rest b) :
    Passes F' G (fun n => p n >>= fun a => g a n) (used ++ used') rest b := by
  intro rest' hrest'
  obtain ⟨haccepts', hbegins'⟩ := hg rest' hrest'
  obtain ⟨haccepts, hbegins⟩ := hp (used' ++ rest') hbegins'
  rw [List.append_assoc, List.append_assoc]
  exact ⟨haccepts.bind haccepts', hbegins⟩

/-- Where the first of two parsers sticks, what it is completed with goes before a filling of the second. -/
theorem Sticks.bind (hp : Sticks F p used rest) (hg : ∀ a, Fills F' F (g a)) :
    Sticks F' (fun n => p n >>= fun a => g a n) used rest where
  completes hne := by
    obtain ⟨more, a, hmark, haccepts⟩ := hp.completes hne
    obtain ⟨filling, b, hmark', hfilling⟩ := hg a
    refine ⟨more ++ filling, b, List.forall_mem_append.2 ⟨hmark, hmark'⟩, fun rest' hrest' => ?_⟩
    obtain ⟨hbegins, haccepts'⟩ := hfilling rest' hrest'
    have hfirst := haccepts (filling ++ rest') hbegins
    rw [← List.append_assoc] at hfirst
    rw [List.append_assoc more, ← List.append_assoc used]
    exact hfirst.bind haccepts'
  rejects t ht more := (hp.rejects t ht more).bind

/-- Where the second of two parsers sticks, the first one accepts what it took before the completion of that. -/
theorem Passes.bind_sticks (hp : Passes F G p used (used' ++ rest) a) (hg : Sticks F' (g a) used' rest)
    (hfills : Fills F' F (g a)) : Sticks F' (fun n => p n >>= fun a => g a n) (used ++ used') rest where
  completes _ := by
    by_cases hne : used' = []
    · subst hne
      obtain ⟨filling, b, hmark, hfilling⟩ := hfills
      refine ⟨filling, b, hmark, fun rest' hrest' => ?_⟩
      obtain ⟨hbegins, haccepts'⟩ := hfilling rest' hrest'
      obtain ⟨haccepts, -⟩ := hp (filling ++ rest') (.inr hbegins)
      rw [List.append_nil]
      exact haccepts.bind haccepts'
    · obtain ⟨more, b, hmark, haccepts'⟩ := hg.completes hne
      refine ⟨more, b, hmark, fun rest' hrest' => ?_⟩
      have hnext : nextKind (used' ++ (more ++ rest')) = nextKind (used' ++ rest) := by
        rw [nextKind_append hne, nextKind_append hne]
      obtain ⟨haccepts, -⟩ := hp (used' ++ (more ++ rest')) (.inl hnext)
      rw [List.append_assoc]
      exact haccepts.bind (haccepts' rest' hrest')
  rejects t ht more := by
    obtain ⟨haccepts, -⟩ := hp (used' ++ t :: more) (.inl (nextKind_of_head? ht more))
    rw [List.append_assoc]
    exact haccepts.bind_rejects (hg.rejects t ht more)

end

/-! ## Single tokens -/

/-- A token that is made up. -/
def madeUp (kind : Kind) : Token :=
  ⟨kind, "", none, 1⟩

/-- A parser passes with one more token before what another one passes, if it goes on behind that token as the
other. -/
theorem Passes.cons (h : Passes F G' p used rest a) (halike : ∀ tokens, Alike q (t :: tokens) p tokens) :
    Passes F G q (t :: used) rest a :=
  fun rest' hrest' => ⟨(h rest' hrest').1.alike (halike _), .inl rfl⟩

/-- A parser is stuck with one more token before what another one is stuck in. With that token alone it is
completed by what the other is filled up with. -/
theorem Sticks.cons (h : Sticks F p used rest) (hfills : Fills F G p)
    (halike : ∀ tokens, Alike q (t :: tokens) p tokens) : Sticks F q (t :: used) rest where
  completes _ := by
    obtain ⟨more, a, hmark, haccepts⟩ := h.exists_completion hfills
    exact ⟨more, a, hmark, fun rest' hrest' => (haccepts rest' hrest').alike (halike _)⟩
  rejects u hu more := (h.rejects u hu more).alike (halike _)

/-- A parser that goes on as another one by what comes next. -/
theorem Fills.alike (h : Fills F G p) (halike : ∀ tokens, G (nextKind tokens) → Alike q tokens p tokens) :
    Fills F G q := by
  obtain ⟨filling, a, hmark, hfilling⟩ := h
  refine ⟨filling, a, hmark, fun rest hrest => ?_⟩
  obtain ⟨hbegins, haccepts⟩ := hfilling rest hrest
  exact ⟨hbegins, haccepts.alike (halike _ hbegins)⟩

/-- A parser passes what another one passes if it does the same with everything that begins like it. -/
theorem Passes.alike (h : Passes F G p used rest a)
    (halike : ∀ tokens, (nextKind tokens = nextKind (used ++ rest) ∨ G (nextKind tokens)) →
      Alike q tokens p tokens) : Passes F G q used rest a := by
  intro rest' hrest'
  obtain ⟨haccepts, hbegins⟩ := h rest' hrest'
  exact ⟨haccepts.alike (halike _ hbegins), hbegins⟩

/-- A parser is stuck in what another one is stuck in if it does the same with everything that begins like it. -/
theorem Sticks.alike (h : Sticks F p used rest)
    (halike : ∀ tokens, nextKind tokens = nextKind (used ++ rest) → Alike q tokens p tokens) :
    Sticks F q used rest where
  completes hne := by
    obtain ⟨more, a, hmark, haccepts⟩ := h.completes hne
    refine ⟨more, a, hmark, fun rest' hrest' => (haccepts rest' hrest').alike (halike _ ?_)⟩
    rw [nextKind_append hne, nextKind_append hne]
  rejects t ht more := (h.rejects t ht more).alike (halike _ (nextKind_of_head? ht more))

/-- Nothing is taken before a token that is rejected. -/
theorem sticks_nil (h : ∀ t ∈ rest.head?, ∀ more, Rejects p (t :: more)) : Sticks F p [] rest :=
  ⟨fun hne => absurd rfl hne, h⟩

/-! ## Choices -/

section
variable {kinds : List Kind} {f : Option Token → Parser α} {stop : Token}

/-- A parser that may accept the next token goes on with it. -/
theorem accept?_bind_of_mem (h : t.kind ∈ kinds) :
    (accept? kinds >>= f) stop (t :: tokens) = f (some t) stop tokens := by
  have htaken : accept? kinds stop (t :: tokens) = ⟨.ok (some t), [], tokens⟩ := if_pos h
  exact bind_of_ok htaken

/-- A parser that cannot accept the next token goes on without one. -/
theorem accept?_bind_of_except (h : Follow.except kinds (nextKind tokens)) :
    (accept? kinds >>= f) stop tokens = f none stop tokens := by
  have hleft : accept? kinds stop tokens = ⟨.ok none, [], tokens⟩ := by
    cases tokens with
    | nil => rfl
    | cons t rest => exact if_neg (h t.kind rfl)
  exact bind_of_ok hleft

end

/-! ## Recovery -/

/-- With recovery, the fault that stops a parser is among the reports, so the faults are the same. -/
theorem faults_recovering (p : Parser α) (stop : Token) (tokens : List Token) :
    (recovering p stop tokens).faults = (p stop tokens).faults := by
  rcases h : p stop tokens with ⟨fault | a, reports, rest⟩
  · rw [recovering_of_error h]
    rfl
  · rw [recovering_of_ok h]
    rfl

/-- What a parser accepts, it accepts with recovery. -/
theorem Accepts.recovering (h : Accepts p tokens a rest) :
    Accepts (fun n => recovering (p n)) tokens (some a) rest := by
  intro bound stop hbound
  obtain ⟨reports, hp, hreports⟩ := h bound stop hbound
  exact ⟨reports, recovering_of_ok hp, hreports⟩

/-- What a parser is filled up with fills it up with recovery. -/
theorem Fills.recovering (h : Fills F G p) : Fills F G (fun n => recovering (p n)) := by
  obtain ⟨filling, a, hmark, hfilling⟩ := h
  refine ⟨filling, some a, hmark, fun rest hrest => ?_⟩
  obtain ⟨hbegins, haccepts⟩ := hfilling rest hrest
  exact ⟨hbegins, haccepts.recovering⟩

/-- What a parser passes, it passes with recovery. -/
theorem Passes.recovering (h : Passes F G p used rest a) :
    Passes F G (fun n => recovering (p n)) used rest (some a) :=
  fun rest' hrest' => ⟨(h rest' hrest').1.recovering, (h rest' hrest').2⟩

/-- What is recovered from is a fault as before. -/
theorem Sticks.recovering (h : Sticks F p used rest) : Sticks F (fun n => recovering (p n)) used rest where
  completes hne := by
    obtain ⟨more, a, hmark, haccepts⟩ := h.completes hne
    exact ⟨more, some a, hmark, fun rest' hrest' => (haccepts rest' hrest').recovering⟩
  rejects t ht more bound stop hbound := by
    obtain ⟨fault, hfault, hunwinds⟩ := h.rejects t ht more bound stop hbound
    exact ⟨fault, by rwa [faults_recovering], hunwinds⟩

end Parser

end LoxLang
