import LoxLang.Proofs.Parse.Braces
import LoxLang.Proofs.Parse.Viable

/-!
# How far a walk comes

A walk is followed to the first fault that unwinds. The cursor then stands where the recovery from it will begin,
or, if nothing recovers from it, where the walk ends (`Landing.raisedAt`). From a cursor on, a walk comes through
without such a fault, and then what it took is complete, or it is stuck where what it took is not (`Reaches`).

There is one rule for each combinator. A walker goes with a parser, which says what is accepted in its place, and
that parser has to have something to fill up with, for the case that the walk is stuck before it (`Correct`). The
bound of the walker plays no part, since a walk that breaks off is of no interest here.
-/

namespace LoxLang

open LoxLang.Parser (Accepts Rejects Alike Follow Fills Passes Sticks madeUp)

variable {α β : Type}

/-- Where the cursor stood when the first fault that unwinds was found. -/
def Landing.raisedAt (r : Landing α) : Option Nat :=
  (r.recoveries.head?.map Prod.fst).or
    (match r.result with
      | .ok _ => none
      | .error _ => some r.current)

/-- The token that is blamed by the first fault that unwinds. -/
def Landing.blamed? (r : Landing α) : Option Token :=
  (r.faults.find? ParseFault.unwinds).map ParseFault.token

namespace Walker

section
variable {second : Landing β} {reports : List ParseFault} {recoveries : List (Nat × Nat)}

/-- Behind a walk that answered, the first fault that unwinds was raised in the first walk or in the second. -/
theorem raisedAt_append : (⟨second.result, reports ++ second.reports, recoveries ++ second.recoveries,
    second.current⟩ : Landing β).raisedAt = (recoveries.head?.map Prod.fst).or second.raisedAt := by
  simp only [Landing.raisedAt, List.head?_append, Option.map_or, Option.or_assoc]

/-- Behind a walk that answered, the token blamed first was blamed in the first walk or in the second. -/
theorem blamed?_append : (⟨second.result, reports ++ second.reports, recoveries ++ second.recoveries,
    second.current⟩ : Landing β).blamed? =
      ((reports.find? ParseFault.unwinds).map ParseFault.token).or second.blamed? := by
  rw [Landing.blamed?, faults_append, List.find?_append, Option.map_or]
  rfl

end

/-! ## How far a walk comes -/

section
variable {F F' G G' : Follow} {p q : Nat → Parser α} {tokens ahead rest : List Token} {current : Nat}
  {stop t : Token}

/-- A walk comes through the tokens that it takes, or it is stuck before a token, where its first fault that unwinds
is raised. -/
inductive Reaches (F G : Follow) (p : Nat → Parser α) (current : Nat) (stop : Token) (ahead : List Token)
    (r : Landing α) : Prop where
  | through {used rest : List Token} {a : α} (hahead : ahead = used ++ rest) (hraised : r.raisedAt = none)
      (hblamed : r.blamed? = none) (hresult : r.result = .ok a) (hcurrent : r.current = current + used.length)
      (hpasses : Passes F G p used rest a) : Reaches F G p current stop ahead r
  | stuck {used rest : List Token} (hahead : ahead = used ++ rest)
      (hraised : r.raisedAt = some (current + used.length)) (hblamed : r.blamed? = some (rest.headD stop))
      (hsticks : Sticks F p used rest) : Reaches F G p current stop ahead r

/-- All walks of a walker come through or are stuck. -/
def Earliest (F G : Follow) (w : Walker α) (p : Nat → Parser α) : Prop :=
  ∀ ⦃tokens current stop ahead r⦄, Faces tokens current stop ahead → w tokens current = .ok r →
    Reaches F G p current stop ahead r

/-- Moreover there is something to fill up with. -/
structure Correct (F G : Follow) (w : Walker α) (p : Nat → Parser α) : Prop where
  earliest : Earliest F G w p
  fills : Fills F G p

/-- How far a walk comes, where less may follow or more may be what the tokens begin with. -/
theorem Reaches.mono {r : Landing α} (h : Reaches F G p current stop ahead r)
    (hF : ∀ next, F' next → F next) (hG : ∀ next, G next → G' next) :
    Reaches F' G' p current stop ahead r := by
  cases h with
  | through hahead hraised hblamed hresult hcurrent hpasses =>
    exact .through hahead hraised hblamed hresult hcurrent (hpasses.mono hF hG)
  | stuck hahead hraised hblamed hsticks => exact .stuck hahead hraised hblamed (hsticks.mono hF)

/-- The same for a walker with its parser. -/
theorem Correct.mono {w : Walker α} (h : Correct F G w p) (hF : ∀ next, F' next → F next)
    (hG : ∀ next, G next → G' next) : Correct F' G' w p :=
  ⟨fun _ _ _ _ _ hfaces hr => (h.earliest hfaces hr).mono hF hG, h.fills.mono hF hG⟩

/-- More may be what the tokens begin with. -/
theorem Correct.guard {w : Walker α} (h : Correct F G w p) (hG : ∀ next, G next → G' next) :
    Correct F G' w p :=
  h.mono (fun _ => id) hG

/-- The tokens may begin with anything. -/
theorem Correct.anywhere {w : Walker α} (h : Correct F G w p) : Correct F .any w p :=
  h.guard fun _ _ => trivial

/-- Less may follow. -/
theorem Correct.follow {w : Walker α} (h : Correct F G w p) (hF : ∀ next, F' next → F next) :
    Correct F' G w p :=
  h.mono hF fun _ => id

/-- A parser that does the same as another one, if what comes next meets the condition `H`. -/
theorem Reaches.alike {H : Follow} {r : Landing α} (h : Reaches F G p current stop ahead r)
    (halike : ∀ tokens, H (nextKind tokens) → Alike q tokens p tokens) (hahead : H (nextKind ahead))
    (hG : ∀ next, G next → H next) : Reaches F G q current stop ahead r := by
  have hsame : ∀ tokens, nextKind tokens = nextKind ahead → Alike q tokens p tokens :=
    fun tokens hnext => halike tokens (hnext ▸ hahead)
  cases h with
  | through hused hraised hblamed hresult hcurrent hpasses =>
    subst hused
    refine .through rfl hraised hblamed hresult hcurrent (hpasses.alike fun tokens hnext => ?_)
    exact hnext.elim (hsame tokens) fun hbegins => halike tokens (hG _ hbegins)
  | stuck hused hraised hblamed hsticks =>
    subst hused
    exact .stuck rfl hraised hblamed (hsticks.alike hsame)

/-- A parser that does the same as another one. -/
theorem Correct.congr {w : Walker α} (h : Correct F G w p)
    (heq : ∀ bound stop tokens, tokens.length ≤ bound → q bound stop tokens = p bound stop tokens) :
    Correct F G w q := by
  have halike : ∀ tokens, Follow.any (nextKind tokens) → Alike q tokens p tokens := fun tokens _ =>
    Parser.alike_of_eq fun bound stop hbound => heq bound stop tokens hbound
  exact ⟨fun _ _ _ _ _ hfaces hr => (h.earliest hfaces hr).alike halike trivial fun _ _ => trivial,
    h.fills.alike fun tokens _ => halike tokens trivial⟩

/-! ## Sequencing -/

/-- A walker that does not move, and reports only what does not unwind. -/
theorem correct_of_quiet {w : Walker α} {a : α} {reports : List ParseFault}
    (hw : ∀ tokens current, w tokens current = .ok ⟨.ok a, reports, [], current⟩)
    (hp : ∀ bound stop tokens, p bound stop tokens = ⟨.ok a, reports, tokens⟩)
    (hreports : ∀ fault ∈ reports, ¬ fault.unwinds) : Correct F F w p := by
  have haccepts : ∀ tokens, Accepts p tokens a tokens := fun tokens bound stop _ =>
    ⟨reports, hp bound stop tokens, hreports⟩
  constructor
  · intro tokens current stop ahead r _ hr
    rw [hw] at hr
    cases hr
    have hblamed : reports.find? ParseFault.unwinds = none := by simpa using hreports
    refine .through (List.nil_append ahead).symm rfl ?_ rfl rfl fun rest' hrest' => ⟨haccepts rest', hrest'⟩
    simp [Landing.blamed?, Landing.faults, hblamed]
  · exact ⟨[], a, List.forall_mem_nil _, fun rest hrest => ⟨hrest, haccepts rest⟩⟩

/-- A result of its own comes through with nothing taken. -/
theorem correct_pure (a : α) : Correct F F (pure a) (fun _ => pure a) :=
  correct_of_quiet (fun _ _ => rfl) (fun _ _ _ => rfl) (List.forall_mem_nil _)

/-- A walk that breaks off has nothing to answer for. -/
theorem earliest_breakOff (breach : Breach) : Earliest F G (breakOff breach) p :=
  fun _ _ _ _ _ _ hr => nomatch hr

/-- The rule for two walkers in a row. -/
theorem Reaches.bind {w : Walker α} {f : α → Walker β} {g : α → Nat → Parser β} {r : Landing β}
    (hr : (w >>= f) tokens current = .ok r)
    (hw : ∀ {first}, w tokens current = .ok first → Reaches F G p current stop ahead first)
    (hf : ∀ {a used rest second}, ahead = used ++ rest → f a tokens (current + used.length) = .ok second →
      Reaches F' F (g a) (current + used.length) stop rest second)
    (hfills : ∀ a, Fills F' F (g a)) :
    Reaches F' G (fun n => p n >>= fun a => g a n) current stop ahead r := by
  obtain ⟨fault, reports, recoveries, after, hfirst, rfl⟩ |
    ⟨a, reports, recoveries, after, second, hfirst, hsecond, rfl⟩ := bind_eq_ok hr
  · cases hw hfirst with
    | through _ _ _ hresult => cases hresult
    | stuck hahead hraised hblamed hsticks => exact .stuck hahead hraised hblamed (hsticks.bind hfills)
  · cases hw hfirst with
    | stuck hahead hraised hblamed hsticks =>
      have hstart : recoveries.head?.map Prod.fst = some _ := (Option.or_none).symm.trans hraised
      have htoken : (reports.find? ParseFault.unwinds).map ParseFault.token = some _ := hblamed
      refine .stuck hahead ?_ ?_ (hsticks.bind hfills)
      · rw [raisedAt_append, hstart, Option.some_or]
      · rw [blamed?_append, htoken, Option.some_or]
    | through hahead hraised hblamed hresult hcurrent hpasses =>
      cases hresult
      obtain rfl : after = _ := hcurrent
      have hstart : recoveries.head?.map Prod.fst = none := (Option.or_none).symm.trans hraised
      have htoken : (reports.find? ParseFault.unwinds).map ParseFault.token = none := hblamed
      cases hf hahead hsecond with
      | through hrest hraised' hblamed' hresult' hcurrent' hpasses' =>
        subst hrest
        refine .through (hahead.trans (List.append_assoc _ _ _).symm) ?_ ?_ hresult' ?_ (hpasses.bind hpasses')
        · rw [raisedAt_append, hstart, hraised', Option.or_none]
        · rw [blamed?_append, htoken, hblamed', Option.or_none]
        · rw [List.length_append, ← Nat.add_assoc]
          exact hcurrent'
      | stuck hrest hraised' hblamed' hsticks =>
        subst hrest
        refine .stuck (hahead.trans (List.append_assoc _ _ _).symm) ?_ ?_
          (hpasses.bind_sticks hsticks (hfills _))
        · rw [raisedAt_append, hstart, hraised', Option.none_or, List.length_append, ← Nat.add_assoc]
        · rw [blamed?_append, htoken, hblamed', Option.none_or]

/-- The rule for two walkers in a row: the second one is stuck behind what the first has taken, or the first one
is. -/
theorem Correct.bind {w : Walker α} {f : α → Walker β} {g : α → Nat → Parser β} (hw : Correct F G w p)
    (hf : ∀ a, Correct F' F (f a) (g a)) : Correct F' G (w >>= f) (fun n => p n >>= fun a => g a n) where
  earliest tokens current stop ahead r hfaces hr := by
    refine .bind hr (fun hfirst => hw.earliest hfaces hfirst) (fun hahead hsecond => ?_) fun a => (hf a).fills
    subst hahead
    exact (hf _).earliest hfaces.move hsecond
  fills := hw.fills.bind fun a => (hf a).fills

/-! ## Single tokens -/

/-- A walker that goes on behind a token. -/
theorem Reaches.cons {r : Landing α} (h : Reaches F G' p (current + 1) stop rest r) (hfills : Fills F G' p)
    (halike : ∀ tokens, Alike q (t :: tokens) p tokens) : Reaches F G q current stop (t :: rest) r := by
  cases h with
  | through hahead hraised hblamed hresult hcurrent hpasses =>
    refine .through (congrArg (t :: ·) hahead) hraised hblamed hresult ?_ (hpasses.cons halike)
    rw [hcurrent, List.length_cons]
    omega
  | stuck hahead hraised hblamed hsticks =>
    refine .stuck (congrArg (t :: ·) hahead) ?_ hblamed (hsticks.cons hfills halike)
    rw [hraised, List.length_cons, Nat.add_assoc, Nat.add_comm 1]

/-- A walker that stops where it stands. -/
theorem reaches_of_fault {fault : ParseFault} (hunwinds : fault.unwinds)
    (htoken : fault.token = ahead.headD stop) (h : ∀ t ∈ ahead.head?, ∀ more, Rejects p (t :: more)) :
    Reaches F G p current stop ahead (⟨.error fault, [], [], current⟩ : Landing α) := by
  refine .stuck (List.nil_append ahead).symm rfl ?_ (Parser.sticks_nil h)
  rw [← htoken]
  simp [Landing.blamed?, Landing.faults, hunwinds]

/-- A token that is asked for comes through, or the walk is stuck before another one. -/
theorem correct_consume {kind : Kind} {cause : ParseCause} (hkind : kind ≠ .eof)
    (hcause : cause ≠ .invalidTarget) :
    Correct .any (.only kind) (consume kind cause) (fun _ => Parser.expect kind cause) := by
  have haccepts : ∀ {t : Token}, t.kind = kind → ∀ rest,
      Accepts (fun _ => Parser.expect kind cause) (t :: rest) t rest := by
    intro t ht rest bound stop _
    exact ⟨[], if_pos ht, List.forall_mem_nil _⟩
  have hunwinds : ∀ t : Token, (⟨cause, t⟩ : ParseFault).unwinds := fun _ => ParseFault.unwinds_iff.2 hcause
  constructor
  · intro tokens current stop ahead r hfaces hr
    cases ahead with
    | nil =>
      rw [consume_of_nil kind cause hfaces] at hr
      cases hr
      exact reaches_of_fault (hunwinds stop) rfl nofun
    | cons t rest =>
      rw [consume_of_cons kind cause hfaces] at hr
      split at hr <;> cases hr
      · next ht =>
        exact .through List.singleton_append.symm rfl rfl rfl rfl fun rest' _ => ⟨haccepts ht rest', .inl rfl⟩
      · next ht =>
        refine reaches_of_fault (hunwinds t) rfl ?_
        rintro _ ⟨⟩ more bound stop _
        refine ⟨⟨cause, t⟩, ?_, hunwinds t⟩
        simp [Parser.expect, ht, Outcome.faults]
  · exact ⟨[madeUp kind], madeUp kind, List.forall_mem_singleton.2 hkind, fun rest _ => ⟨rfl, haccepts rfl rest⟩⟩

/-! ## Choices -/

/-- The rule for a walker that takes a token of some kinds and is chosen by that. -/
theorem Reaches.ifTakes {kinds : List Kind} {yes no : Walker α} {r : Landing α}
    (hfaces : Faces tokens current stop ahead) (hr : ifTakes kinds yes no tokens current = .ok r)
    (hyes : ∀ {t rest}, ahead = t :: rest → t.kind ∈ kinds → yes tokens (current + 1) = .ok r →
      Reaches F G p current stop ahead r)
    (hno : Follow.except kinds (nextKind ahead) → no tokens current = .ok r →
      Reaches F G p current stop ahead r) : Reaches F G p current stop ahead r := by
  cases ahead with
  | nil =>
    rw [ifTakes_of_nil kinds yes no hfaces] at hr
    exact hno nofun hr
  | cons t rest =>
    rw [ifTakes_of_cons kinds yes no hfaces] at hr
    split at hr
    · next hkind => exact hyes rfl hkind hr
    · next hkind =>
      refine hno ?_ hr
      rintro _ ⟨⟩
      exact hkind

/-- The rule for a word that decides how to go on. -/
theorem Reaches.behindWord {kind : Kind} {yes no : Walker α} {r : Landing α} (h : Correct F G' yes p)
    (hfaces : Faces tokens current stop ahead) (hr : Walker.ifTakes [kind] yes no tokens current = .ok r)
    (halike : ∀ {t : Token}, t.kind = kind → ∀ tokens, Alike q (t :: tokens) p tokens)
    (hno : Follow.except [kind] (nextKind ahead) → no tokens current = .ok r →
      Reaches F G q current stop ahead r) : Reaches F G q current stop ahead r := by
  refine .ifTakes hfaces hr (fun {t rest} hahead hkind hyes => ?_) hno
  subst hahead
  exact (h.earliest hfaces.next hyes).cons h.fills (halike (List.mem_singleton.1 hkind))

/-- The rule for a token that may be taken: without it, something follows that it could not begin with. -/
theorem correct_accept? {kinds : List Kind} {yes no : Walker α} {f : Option Token → Nat → Parser α}
    (hsome : ∀ {tokens current stop t rest r}, Faces tokens current stop (t :: rest) →
      yes tokens (current + 1) = .ok r → Reaches F G' (f (some t)) (current + 1) stop rest r)
    (hfills : ∀ t, Fills F G' (f (some t))) (hnone : Correct F G no (f none))
    (hG : ∀ next, G next → Follow.except kinds next) :
    Correct F G (ifTakes kinds yes no) (fun n => Parser.accept? kinds >>= fun o => f o n) := by
  have htaken : ∀ {t : Token}, t.kind ∈ kinds → ∀ tokens,
      Alike (fun n => Parser.accept? kinds >>= fun o => f o n) (t :: tokens) (f (some t)) tokens := by
    intro t ht tokens
    exact Parser.alike_behind fun bound stop => Parser.accept?_bind_of_mem ht
  have hleft : ∀ tokens, Follow.except kinds (nextKind tokens) →
      Alike (fun n => Parser.accept? kinds >>= fun o => f o n) tokens (f none) tokens := by
    intro tokens hnext
    exact Parser.alike_of_eq fun bound stop _ => Parser.accept?_bind_of_except hnext
  constructor
  · intro tokens current stop ahead r hfaces hr
    refine .ifTakes hfaces hr ?_ ?_
    · rintro t rest rfl hkind hyes
      exact (hsome hfaces hyes).cons (hfills t) (htaken hkind)
    · exact fun hnext hno => (hnone.earliest hfaces hno).alike hleft hnext hG
  · exact hnone.fills.alike fun tokens hbegins => hleft tokens (hG _ hbegins)

/-- The rule for a token that may be taken and is needed. -/
theorem correct_accept?_previous {kinds : List Kind} {w : Token → Walker α} {no : Walker α}
    {f : Option Token → Nat → Parser α} (hsome : ∀ t, Correct F G' (w t) (f (some t)))
    (hnone : Correct F G no (f none)) (hG : ∀ next, G next → Follow.except kinds next) :
    Correct F G (ifTakes kinds (previous >>= w) no) (fun n => Parser.accept? kinds >>= fun o => f o n) := by
  refine correct_accept? (fun {tokens current stop t rest r} hfaces hr => ?_) (fun t => (hsome t).fills) hnone hG
  rw [bind_of_silent (previous_of_getElem? hfaces.getElem?_eq)] at hr
  exact (hsome t).earliest hfaces.next hr

/-- The rule for a token that may be taken and is not needed. -/
theorem correct_accept?_drop {kinds : List Kind} {yes no : Walker α} {f : Option Token → Nat → Parser α}
    (hsome : ∀ t, Correct F G' yes (f (some t))) (hnone : Correct F G no (f none))
    (hG : ∀ next, G next → Follow.except kinds next) :
    Correct F G (ifTakes kinds yes no) (fun n => Parser.accept? kinds >>= fun o => f o n) :=
  correct_accept? (fun hfaces hr => (hsome _).earliest hfaces.next hr) (fun t => (hsome t).fills) hnone hG

/-! ## Recovery -/

/-- A fault that is recovered from was raised where the recovery begins. -/
theorem Correct.recovering {w : Walker α} {p : Nat → Parser α} (h : Correct F G w p) (hkeeps : Keeps 0 w)
    (bound : Nat) : Correct F G (recovering bound w) (fun n => Parser.recovering (p n)) := by
  refine ⟨fun tokens current stop ahead r hfaces hr => ?_, h.fills.recovering⟩
  rcases hw : w tokens current with breach | ⟨fault | a, reports, recoveries, after⟩
  · have hattempt : attempt w tokens current = .error breach := by simp only [attempt, hw, Except.map]
    rw [Walker.recovering, bind_of_breach hattempt] at hr
    cases hr
  · obtain ⟨left, hleft⟩ := (hkeeps hfaces hw).faces
    rcases hrecover : recover bound fault tokens after with breach | landed
    · have hsettle : settle (α := α) bound (.error fault) tokens after = .error breach :=
        bind_of_breach hrecover
      rw [Walker.recovering, bind_of_breach_after (attempt_of_ok hw) hsettle] at hr
      cases hr
    · obtain ⟨-, -, heq⟩ := recover_of_ok hleft hrecover
      rw [heq] at hrecover
      rw [recovering_of_fault hw hrecover] at hr
      cases hr
      cases h.earliest hfaces hw with
      | through _ _ _ hresult => cases hresult
      | stuck hahead hraised hblamed hsticks =>
        refine .stuck hahead ?_ hblamed hsticks.recovering
        rw [← hraised]
        cases recoveries <;> rfl
  · rw [recovering_of_ok hw] at hr
    cases hr
    cases h.earliest hfaces hw with
    | through hahead hraised hblamed hresult hcurrent hpasses =>
      cases hresult
      exact .through hahead hraised hblamed rfl hcurrent hpasses.recovering
    | stuck hahead hraised hblamed hsticks => exact .stuck hahead hraised hblamed hsticks.recovering

end

end Walker

end LoxLang
