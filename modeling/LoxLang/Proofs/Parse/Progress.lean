import LoxLang.Proofs.Parse.Cursor
import LoxLang.Proofs.Parse.Rows
import Mathlib.Data.List.TakeWhile

/-!
# A cursor always comes to the end

A walker never breaks off. From a cursor that has the tokens `ahead` before it, up to the end that `stop`
stands for (`Faces`), a walker does what the parser of the same name does with `ahead` (`TracksAt`): the same
result, the same reports, and the cursor moves by as many tokens as the parser takes. Since a parser takes
its tokens off the front, the cursor stays among the tokens; since the walker answers at all, no index was out
of range and no bound was too small.

`Tracks size w p` says so of all cursors with fewer than `size` tokens before the end. There is one rule for
each combinator and one theorem for each walker, whose bound has to reach `size`. The size
goes down behind a token that is taken, and in the loops over declarations by what the recovery from a fault
takes where a declaration takes nothing.
-/

namespace LoxLang

namespace Walker

variable {α β γ σ : Type} {tokens : List Token} {current : Nat}

/-! ## Laws of sequencing -/

/-- After a success the second walker goes on from where the first one stands. -/
theorem bind_of_ok {w : Walker α} {f : α → Walker β} {a : α} {reports : List ParseFault}
    {recoveries : List (Nat × Nat)} {after : Nat} {r : Landing β}
    (h : w tokens current = .ok ⟨.ok a, reports, recoveries, after⟩) (hf : f a tokens after = .ok r) :
    (w >>= f) tokens current =
      .ok ⟨r.result, reports ++ r.reports, recoveries ++ r.recoveries, r.current⟩ := by
  show andThen w f tokens current = _
  simp only [andThen, h, hf]

/-- After a fault the second walker is not run. -/
theorem bind_of_fault {w : Walker α} {f : α → Walker β} {fault : ParseFault}
    {reports : List ParseFault} {recoveries : List (Nat × Nat)} {after : Nat}
    (h : w tokens current = .ok ⟨.error fault, reports, recoveries, after⟩) :
    (w >>= f) tokens current = .ok ⟨.error fault, reports, recoveries, after⟩ := by
  show andThen w f tokens current = _
  simp only [andThen, h]

/-- A walker that reports nothing only moves the cursor for the second one. -/
theorem bind_of_silent {w : Walker α} {f : α → Walker β} {a : α} {after : Nat}
    (h : w tokens current = .ok ⟨.ok a, [], [], after⟩) : (w >>= f) tokens current = f a tokens after := by
  show andThen w f tokens current = _
  simp only [andThen, h]
  cases f a tokens after <;> rfl

/-- To succeed behind a walker adds nothing to it. -/
theorem andThen_succeed (w : Walker α) : andThen w succeed = w := by
  funext tokens current
  rcases h : w tokens current with breach | ⟨fault | a, reports, recoveries, after⟩ <;>
    simp [andThen, h, succeed]

/-- Three walkers in a row can be put together from either end. -/
theorem andThen_assoc (w : Walker α) (f : α → Walker β) (g : β → Walker γ) :
    andThen (andThen w f) g = andThen w fun a => andThen (f a) g := by
  funext tokens current
  rcases h : w tokens current with breach | ⟨fault | a, reports, recoveries, after⟩
  · simp only [andThen, h]
  · simp only [andThen, h]
  · rcases h' : f a tokens after with breach | ⟨fault | b, reports', recoveries', after'⟩
    · simp only [andThen, h, h']
    · simp only [andThen, h, h']
    · simp only [andThen, h, h']
      cases g b tokens after' <;> simp

/-- The order in which walkers are put together does not matter. -/
instance : LawfulMonad Walker :=
  LawfulMonad.mk' Walker andThen_succeed
    (fun a f => funext fun tokens => funext fun current => bind_of_silent (w := succeed a) rfl)
    andThen_assoc

end Walker

/-! ## Where a cursor stands -/

/-- The cursor has the tokens `ahead` before it, and behind them the end: an end mark, or nothing. A fault at
the end blames `stop`, which is that mark or the last token. -/
structure Faces (tokens : List Token) (current : Nat) (stop : Token) (ahead : List Token) : Prop where
  current_le : current ≤ tokens.length
  no_mark : ∀ t ∈ ahead, t.kind ≠ .eof
  drop_eq : ∃ behind, tokens.drop current = ahead ++ behind ∧
    (behind = [] ∧ tokens.getLast? = some stop ∨ behind.head? = some stop ∧ stop.kind = .eof)

namespace Faces

variable {tokens ahead rest used : List Token} {current : Nat} {stop t : Token}

/-- A list that a cursor stands in has tokens: those ahead, or the one that is blamed at the end. -/
theorem length_pos (h : Faces tokens current stop ahead) : 0 < tokens.length := by
  obtain ⟨behind, hdrop, ⟨-, hlast⟩ | ⟨hhead, -⟩⟩ := h.drop_eq
  · exact List.length_pos_of_mem (List.mem_of_getLast? hlast)
  · have hmem : stop ∈ tokens.drop current :=
      hdrop ▸ List.mem_append_right ahead (List.mem_of_head? hhead)
    exact List.length_pos_of_mem (List.mem_of_mem_drop hmem)

/-- The token at the cursor. -/
theorem getElem?_eq (h : Faces tokens current stop (t :: rest)) : tokens[current]? = some t := by
  obtain ⟨behind, hdrop, -⟩ := h.drop_eq
  rw [← List.head?_drop, hdrop]
  rfl

/-- A cursor with a token ahead is within the list. -/
theorem lt_length (h : Faces tokens current stop (t :: rest)) : current < tokens.length :=
  (List.getElem?_eq_some_iff.1 h.getElem?_eq).1

/-- At the end, the cursor stands on the mark or behind the last token. -/
theorem at_end (h : Faces tokens current stop []) :
    (current = tokens.length ∧ tokens.getLast? = some stop) ∨
      (tokens[current]? = some stop ∧ stop.kind = .eof) := by
  obtain ⟨behind, hdrop, ⟨rfl, hlast⟩ | ⟨hhead, hmark⟩⟩ := h.drop_eq
  · have hle := List.drop_eq_nil_iff.1 hdrop
    exact .inl ⟨Nat.le_antisymm h.current_le hle, hlast⟩
  · refine .inr ⟨?_, hmark⟩
    rw [← List.head?_drop, hdrop]
    exact hhead

/-- The cursor moves by one token. -/
theorem next (h : Faces tokens current stop (t :: rest)) : Faces tokens (current + 1) stop rest := by
  obtain ⟨behind, hdrop, hbehind⟩ := h.drop_eq
  refine ⟨h.lt_length, fun t ht => h.no_mark t (List.mem_cons_of_mem _ ht), behind, ?_, hbehind⟩
  rw [← List.tail_drop, hdrop]
  rfl

/-- The cursor moves by the tokens that are taken. -/
theorem move (h : Faces tokens current stop (used ++ rest)) :
    Faces tokens (current + used.length) stop rest := by
  induction used generalizing current with
  | nil => exact h
  | cons t used ih =>
    have hnext := ih h.next
    rwa [Nat.add_assoc, Nat.add_comm 1] at hnext

/-- No more tokens are ahead than there are behind the cursor. -/
theorem length_le (h : Faces tokens current stop ahead) : ahead.length ≤ tokens.length - current := by
  obtain ⟨behind, hdrop, -⟩ := h.drop_eq
  rw [← List.length_drop, hdrop, List.length_append]
  exact Nat.le_add_right _ _

/-- A cursor among tokens faces those before the first end mark behind it. -/
theorem of_getLast? {last : Token} (hlast : tokens.getLast? = some last) (h : current ≤ tokens.length) :
    Faces tokens current (((tokens.drop current).find? (·.kind = .eof)).getD last)
      ((tokens.drop current).takeWhile (·.kind ≠ .eof)) := by
  generalize hrest : tokens.drop current = rest
  refine ⟨h, fun t ht => by simpa using List.all_eq_true.1 List.all_takeWhile t ht,
    rest.dropWhile (·.kind ≠ .eof), by rw [hrest, List.takeWhile_append_dropWhile], ?_⟩
  have hfind : rest.find? (·.kind = .eof) = (rest.dropWhile (·.kind ≠ .eof)).head? := by
    simpa using rest.find?_eq_head?_dropWhile_not fun t => decide (t.kind = .eof)
  cases hbehind : rest.dropWhile (·.kind ≠ .eof) with
  | nil => exact .inl ⟨rfl, by rw [hfind, hbehind, hlast]; rfl⟩
  | cons mark behind =>
    rw [hbehind] at hfind
    have hmark := List.find?_some hfind
    rw [hfind]
    exact .inr ⟨rfl, by simpa using hmark⟩

/-- At the first token, the cursor faces what there is to read in the list. -/
theorem of_ofTokens? {stream : Stream} (h : Stream.ofTokens? tokens = some stream) :
    Faces tokens 0 stream.stop stream.body := by
  obtain ⟨last, hlast, rfl⟩ := Option.map_eq_some_iff.1 h
  exact of_getLast? hlast (Nat.zero_le _)

end Faces

/-! ## Looking and moving -/

namespace Walker

section
variable {α β : Type} {tokens ahead rest : List Token} {current : Nat} {stop t : Token}

/-- An index within the list gives its token, and nothing moves. -/
theorem get_of_eq {index : Nat} (h : tokens[index]? = some t) :
    get index tokens current = .ok ⟨.ok t, [], [], current⟩ := by
  simp only [get, h]

/-- Peeking gives the next token, and at the end the one that is blamed there. -/
theorem peek_of_faces (h : Faces tokens current stop ahead) :
    peek tokens current = .ok ⟨.ok (ahead.headD stop), [], [], current⟩ := by
  have hpos := h.length_pos
  obtain ⟨last, hlast⟩ : ∃ last, tokens.length = last + 1 := ⟨tokens.length - 1, by omega⟩
  have hpeek : peek tokens current = get (min current last) tokens current := by
    rw [peek, bind_of_silent (w := count) rfl, hlast]
    exact bind_of_silent (w := position) rfl
  have hindex : tokens[min current last]? = some (ahead.headD stop) := by
    cases ahead with
    | cons t rest =>
      have hlt := h.lt_length
      rw [Nat.min_eq_left (by omega)]
      exact h.getElem?_eq
    | nil =>
      rcases h.at_end with ⟨hcurrent, hstop⟩ | ⟨hstop, -⟩
      · rw [Nat.min_eq_right (by omega), List.headD_nil, ← hstop, List.getLast?_eq_getElem?, hlast]
        rfl
      · have hlt := (List.getElem?_eq_some_iff.1 hstop).1
        rw [Nat.min_eq_left (by omega)]
        exact hstop
  rw [hpeek, get_of_eq hindex]

/-- The token before the cursor is there, also at the first token. -/
theorem previous_of_le (hpos : 0 < tokens.length) (h : current ≤ tokens.length) :
    ∃ t, previous tokens current = .ok ⟨.ok t, [], [], current⟩ := by
  have hindex : current - 1 < tokens.length := by omega
  exact ⟨_, (bind_of_silent (w := position) rfl).trans (get_of_eq (List.getElem?_eq_getElem hindex))⟩

/-- Behind a token that was taken, the previous token is that one. -/
theorem previous_of_getElem? (h : tokens[current]? = some t) :
    previous tokens (current + 1) = .ok ⟨.ok t, [], [], current + 1⟩ :=
  (bind_of_silent (w := position) rfl).trans (get_of_eq h)

/-- A cursor behind the last token is at the end. -/
theorem isAtEnd_of_le (h : tokens.length ≤ current) :
    isAtEnd tokens current = .ok ⟨.ok true, [], [], current⟩ := by
  rw [isAtEnd, bind_of_silent (w := count) rfl, bind_of_silent (w := position) rfl, if_pos h]
  rfl

/-- A cursor within the list is at the end if it stands on an end mark. -/
theorem isAtEnd_of_lt (h : current < tokens.length)
    (hpeek : peek tokens current = .ok ⟨.ok t, [], [], current⟩) :
    isAtEnd tokens current = .ok ⟨.ok (t.kind = .eof), [], [], current⟩ := by
  rw [isAtEnd, bind_of_silent (w := count) rfl, bind_of_silent (w := position) rfl,
    if_neg (Nat.not_le_of_lt h), bind_of_silent hpeek]
  rfl

/-- The end is where no tokens are ahead. -/
theorem isAtEnd_of_faces (h : Faces tokens current stop ahead) :
    isAtEnd tokens current = .ok ⟨.ok ahead.isEmpty, [], [], current⟩ := by
  cases ahead with
  | cons t rest =>
    rw [isAtEnd_of_lt h.lt_length (peek_of_faces h)]
    have hmark := h.no_mark t List.mem_cons_self
    simp [hmark]
  | nil =>
    rcases h.at_end with ⟨hcurrent, -⟩ | ⟨hstop, hmark⟩
    · exact isAtEnd_of_le (Nat.le_of_eq hcurrent.symm)
    · rw [isAtEnd_of_lt (List.getElem?_eq_some_iff.1 hstop).1 (peek_of_faces h)]
      simp [hmark]

/-- With a token ahead, advancing takes it. -/
theorem advance_of_cons (h : Faces tokens current stop (t :: rest)) :
    advance tokens current = .ok ⟨.ok t, [], [], current + 1⟩ := by
  have hstep : step tokens current = .ok ⟨.ok (), [], [], current + 1⟩ := if_pos h.lt_length
  rw [advance, bind_of_silent (isAtEnd_of_faces h), List.isEmpty_cons]
  exact (bind_of_silent hstep).trans (previous_of_getElem? h.getElem?_eq)

/-- At the end, the cursor does not move. -/
theorem advance_of_nil (h : Faces tokens current stop []) :
    ∃ t, advance tokens current = .ok ⟨.ok t, [], [], current⟩ := by
  obtain ⟨t, ht⟩ := previous_of_le h.length_pos h.current_le
  rw [advance, bind_of_silent (isAtEnd_of_faces h)]
  exact ⟨t, ht⟩

/-- Asking for a kind compares it with that of the next token, and at the end the answer is no. -/
theorem check_of_faces (kind : Kind) (h : Faces tokens current stop ahead) :
    check kind tokens current =
      .ok ⟨.ok (ahead.head?.map Token.kind = some kind), [], [], current⟩ := by
  rw [check, bind_of_silent (isAtEnd_of_faces h)]
  cases ahead with
  | nil => simp [pure, succeed]
  | cons t rest =>
    rw [List.isEmpty_cons]
    refine (bind_of_silent (peek_of_faces h)).trans ?_
    simp [pure, succeed]

/-- A fault blames the next token, and at the end the one that is blamed there. -/
theorem fail_of_faces (cause : ParseCause) (h : Faces tokens current stop ahead) :
    fail (α := α) cause tokens current =
      .ok ⟨.error ⟨cause, ahead.headD stop⟩, [], [], current⟩ := by
  rw [fail, bind_of_silent (peek_of_faces h)]
  rfl

/-- At the end, a token that is asked for is missing, and the end is blamed. -/
theorem consume_of_nil (kind : Kind) (cause : ParseCause) (h : Faces tokens current stop []) :
    consume kind cause tokens current = .ok ⟨.error ⟨cause, stop⟩, [], [], current⟩ := by
  rw [consume, bind_of_silent (check_of_faces kind h)]
  exact fail_of_faces cause h

/-- A token that is asked for is taken if it is of the kind, and blamed if it is not. -/
theorem consume_of_cons (kind : Kind) (cause : ParseCause) (h : Faces tokens current stop (t :: rest)) :
    consume kind cause tokens current =
      if t.kind = kind then .ok ⟨.ok t, [], [], current + 1⟩
      else .ok ⟨.error ⟨cause, t⟩, [], [], current⟩ := by
  rw [consume, bind_of_silent (check_of_faces kind h), List.head?_cons, Option.map_some]
  by_cases hkind : t.kind = kind
  · rw [if_pos hkind, decide_eq_true (congrArg some hkind)]
    exact advance_of_cons h
  · rw [if_neg hkind, decide_eq_false fun hsome => hkind (Option.some.inj hsome)]
    exact fail_of_faces cause h

/-- The next token is taken if it is of one of the kinds. -/
theorem takes_of_cons (kinds : List Kind) (h : Faces tokens current stop (t :: rest)) :
    takes kinds tokens current =
      .ok ⟨.ok (t.kind ∈ kinds), [], [], if t.kind ∈ kinds then current + 1 else current⟩ := by
  induction kinds with
  | nil => simp [takes, pure, succeed]
  | cons kind kinds ih =>
    rw [takes, bind_of_silent (check_of_faces kind h)]
    by_cases hkind : t.kind = kind
    · have hcheck : decide ((t :: rest).head?.map Token.kind = some kind) = true := by simpa using hkind
      rw [hcheck]
      refine (bind_of_silent (advance_of_cons h)).trans ?_
      simp [hkind, pure, succeed]
    · have hcheck : decide ((t :: rest).head?.map Token.kind = some kind) = false := by simpa using hkind
      rw [hcheck]
      simpa [hkind] using ih

/-- At the end, no token is of the kinds. -/
theorem takes_of_nil (kinds : List Kind) (h : Faces tokens current stop []) :
    takes kinds tokens current = .ok ⟨.ok false, [], [], current⟩ := by
  induction kinds with
  | nil => rfl
  | cons kind kinds ih =>
    rw [takes, bind_of_silent (check_of_faces kind h)]
    exact ih

/-- What follows a choice follows both of its ways. -/
theorem ifTakes_bind (kinds : List Kind) (yes no : Walker α) (f : α → Walker β) :
    (ifTakes kinds yes no >>= f) = ifTakes kinds (yes >>= f) (no >>= f) := by
  rw [ifTakes, ifTakes, bind_assoc]
  congr 1
  funext taken
  cases taken <;> rfl

/-- Before a token, the way is chosen by its kind. -/
theorem ifTakes_of_cons (kinds : List Kind) (yes no : Walker α)
    (h : Faces tokens current stop (t :: rest)) :
    ifTakes kinds yes no tokens current =
      if t.kind ∈ kinds then yes tokens (current + 1) else no tokens current := by
  rw [ifTakes, bind_of_silent (takes_of_cons kinds h)]
  by_cases hkind : t.kind ∈ kinds
  · simp only [hkind, decide_true, if_true]
  · simp only [hkind, decide_false, if_false]

/-- At the end, nothing is taken. -/
theorem ifTakes_of_nil (kinds : List Kind) (yes no : Walker α) (h : Faces tokens current stop []) :
    ifTakes kinds yes no tokens current = no tokens current := by
  rw [ifTakes, bind_of_silent (takes_of_nil kinds h)]

end

/-! ## Walkers beside parsers -/

section
variable {α β : Type} {tokens ahead rest : List Token} {current size : Nat} {stop t : Token}

/-- From the cursor on, a walker does what a parser does with the tokens ahead. -/
def TracksAt (w : Walker α) (p : Parser α) (tokens : List Token) (current : Nat) (stop : Token)
    (ahead : List Token) : Prop :=
  ∃ used recoveries, ahead = used ++ (p stop ahead).rest ∧ w tokens current =
    .ok ⟨(p stop ahead).result, (p stop ahead).reports, recoveries, current + used.length⟩

/-- The same wherever fewer than `size` tokens are ahead. -/
def Tracks (size : Nat) (w : Walker α) (p : Parser α) : Prop :=
  ∀ ⦃tokens current stop ahead⦄, Faces tokens current stop ahead → ahead.length < size →
    TracksAt w p tokens current stop ahead

/-- What holds with fewer than some number of tokens ahead holds with fewer than a smaller one. -/
theorem Tracks.shrink {size' : Nat} {w : Walker α} {p : Parser α} (h : Tracks size w p)
    (hsize : size' ≤ size) : Tracks size' w p :=
  fun _ _ _ _ hfaces hlt => h hfaces (Nat.lt_of_lt_of_le hlt hsize)

/-- No cursor has fewer than zero tokens ahead, which is where an induction on the number begins. -/
theorem tracks_zero (w : Walker α) (p : Parser α) : Tracks 0 w p :=
  fun _ _ _ _ _ hlt => absurd hlt (Nat.not_lt_zero _)

/-- A walker that only gives a result does what the parser does that only gives it. -/
theorem tracks_pure (a : α) : Tracks size (pure a) (pure a) :=
  fun _ _ _ _ _ _ => ⟨[], [], rfl, rfl⟩

/-- The rule for two walkers in a row. -/
theorem TracksAt.bind {w : Walker α} {p : Parser α} {f : α → Walker β} {g : α → Parser β}
    (hfaces : Faces tokens current stop ahead) (h : TracksAt w p tokens current stop ahead)
    (hf : ∀ {a reports rest after}, p stop ahead = ⟨.ok a, reports, rest⟩ →
      Faces tokens after stop rest → TracksAt (f a) (g a) tokens after stop rest) :
    TracksAt (w >>= f) (p >>= g) tokens current stop ahead := by
  obtain ⟨used, recoveries, hused, hw⟩ := h
  rcases hfirst : p stop ahead with ⟨fault | a, reports, rest⟩ <;> rw [hfirst] at hused hw
  · rw [TracksAt, Parser.bind_of_error hfirst]
    exact ⟨used, recoveries, hused, bind_of_fault hw⟩
  · obtain ⟨used', recoveries', hused', hf'⟩ := hf hfirst (hused ▸ hfaces).move
    rw [TracksAt, Parser.bind_of_ok hfirst]
    refine ⟨used ++ used', recoveries ++ recoveries', ?_, ?_⟩
    · rw [List.append_assoc, ← hused', hused]
    · rw [bind_of_ok hw hf', List.length_append, Nat.add_assoc]

/-- A parser that a walker goes along with leaves no more tokens than it met. -/
theorem TracksAt.length_le {w : Walker α} {p : Parser α} (h : TracksAt w p tokens current stop ahead) :
    (p stop ahead).rest.length ≤ ahead.length := by
  obtain ⟨used, -, hused, -⟩ := h
  have hlength := congrArg List.length hused
  rw [List.length_append] at hlength
  omega

/-- Two walkers in a row do what their parsers do in a row: the second one meets no more tokens than the first. -/
theorem Tracks.bind {w : Walker α} {p : Parser α} {f : α → Walker β} {g : α → Parser β}
    (h : Tracks size w p) (hf : ∀ a, Tracks size (f a) (g a)) :
    Tracks size (w >>= f) (p >>= g) := by
  intro tokens current stop ahead hfaces hsize
  have hw := h hfaces hsize
  refine TracksAt.bind hfaces hw fun {a _ rest after} hfirst hrest => hf a hrest ?_
  have hle := hw.length_le
  rw [hfirst] at hle
  exact Nat.lt_of_le_of_lt hle hsize

/-! ## Single tokens -/

/-- A fault blames the same token in both. -/
theorem tracks_fail (cause : ParseCause) : Tracks size (fail (α := α) cause) (Parser.fail cause) :=
  fun _ _ _ _ hfaces _ => ⟨[], [], rfl, fail_of_faces cause hfaces⟩

/-- A report is the same in both. -/
theorem tracks_report (cause : ParseCause) (t : Token) :
    Tracks size (report ⟨cause, t⟩) (Parser.report cause t) :=
  fun _ _ _ _ _ _ => ⟨[], [], rfl, rfl⟩

/-- A parser that looks at the next token is chosen by it. -/
theorem TracksAt.peek? {w : Walker α} {f : Option Token → Parser α}
    (h : TracksAt w (f ahead.head?) tokens current stop ahead) :
    TracksAt w (Parser.peek? >>= f) tokens current stop ahead :=
  h

/-- A parser that looks at the kind of the next token is chosen by it. -/
theorem TracksAt.peekKind? {w : Walker α} {f : Option Kind → Parser α}
    (h : TracksAt w (f (ahead.head?.map Token.kind)) tokens current stop ahead) :
    TracksAt w (Parser.peekKind? >>= f) tokens current stop ahead :=
  h

/-- To ask for a kind is to compare it with that of the next token. -/
theorem TracksAt.check {f : Bool → Walker α} {p : Parser α} (kind : Kind)
    (hfaces : Faces tokens current stop ahead)
    (h : TracksAt (f (ahead.head?.map Token.kind = some kind)) p tokens current stop ahead) :
    TracksAt (check kind >>= f) p tokens current stop ahead := by
  rwa [TracksAt, bind_of_silent (check_of_faces kind hfaces)]

/-- The token before the cursor is there for who took it. -/
theorem TracksAt.previous {f : Token → Walker α} {p : Parser α} (ht : tokens[current]? = some t)
    (h : TracksAt (f t) p tokens (current + 1) stop ahead) :
    TracksAt (previous >>= f) p tokens (current + 1) stop ahead := by
  rwa [TracksAt, bind_of_silent (previous_of_getElem? ht)]

/-- A walker behind a token that is taken. -/
theorem TracksAt.taken {kinds : List Kind} {yes no : Walker α} {p : Parser α}
    (hfaces : Faces tokens current stop (t :: rest)) (hkind : t.kind ∈ kinds)
    (h : TracksAt yes p tokens (current + 1) stop rest) :
    TracksAt (ifTakes kinds yes no) (do Parser.skip; p) tokens current stop (t :: rest) := by
  obtain ⟨used, recoveries, hused, hyes⟩ := h
  refine ⟨t :: used, recoveries, congrArg (t :: ·) hused, ?_⟩
  rw [ifTakes_of_cons kinds yes no hfaces, if_pos hkind, hyes, List.length_cons, Nat.add_assoc,
    Nat.add_comm 1]
  rfl

/-- Nothing is taken where no token of the kinds is next. -/
theorem TracksAt.notTaken {kinds : List Kind} {yes no : Walker α} {p : Parser α}
    (hfaces : Faces tokens current stop ahead)
    (hkind : ∀ kind ∈ kinds, ahead.head?.map Token.kind ≠ some kind)
    (h : TracksAt no p tokens current stop ahead) :
    TracksAt (ifTakes kinds yes no) p tokens current stop ahead := by
  cases ahead with
  | nil => rwa [TracksAt, ifTakes_of_nil kinds yes no hfaces]
  | cons t rest =>
    have hnot : t.kind ∉ kinds := fun hmem => hkind t.kind hmem rfl
    rwa [TracksAt, ifTakes_of_cons kinds yes no hfaces, if_neg hnot]

/-- The rule for a token that may be taken. -/
theorem tracks_accept? {kinds : List Kind} {yes no : Walker α} {g : Option Token → Parser α}
    (hsome : ∀ {tokens current stop t rest}, Faces tokens current stop (t :: rest) →
      rest.length < size - 1 → TracksAt yes (g (some t)) tokens (current + 1) stop rest)
    (hnone : Tracks size no (g none)) :
    Tracks size (ifTakes kinds yes no) (Parser.accept? kinds >>= g) := by
  intro tokens current stop ahead hfaces hsize
  rw [Parser.accept?_bind_eq]
  cases ahead with
  | nil => exact (hnone hfaces hsize).notTaken hfaces fun _ _ => nofun
  | cons t rest =>
    show TracksAt _ (if t.kind ∈ kinds then (do Parser.skip; g (some t)) else g none) _ _ _ _
    split
    · next hkind => exact .taken hfaces hkind (hsome hfaces (Nat.lt_sub_of_add_lt hsize))
    · next hkind =>
      refine (hnone hfaces hsize).notTaken hfaces fun kind hmem hhead => hkind ?_
      obtain rfl := Option.some.inj hhead
      exact hmem

/-- The rule for a token that may be taken and is needed. -/
theorem tracks_accept?_previous {kinds : List Kind} {f : Token → Walker α} {no : Walker α}
    {g : Option Token → Parser α} (hsome : ∀ t, Tracks (size - 1) (f t) (g (some t)))
    (hnone : Tracks size no (g none)) :
    Tracks size (ifTakes kinds (previous >>= f) no) (Parser.accept? kinds >>= g) :=
  tracks_accept? (fun hfaces hrest => (hsome _ hfaces.next hrest).previous hfaces.getElem?_eq) hnone

/-- The rule for a token that may be taken and is not needed. -/
theorem tracks_accept?_drop {kinds : List Kind} {yes no : Walker α} {g : Option Token → Parser α}
    (hsome : ∀ t, Tracks (size - 1) yes (g (some t))) (hnone : Tracks size no (g none)) :
    Tracks size (ifTakes kinds yes no) (Parser.accept? kinds >>= g) :=
  tracks_accept? (fun hfaces hrest => hsome _ hfaces.next hrest) hnone

/-- A token that is asked for is taken or missed by both. -/
theorem tracks_consume (kind : Kind) (cause : ParseCause) :
    Tracks size (consume kind cause) (Parser.expect kind cause) := by
  intro tokens current stop ahead hfaces _
  cases ahead with
  | nil => exact ⟨[], [], rfl, consume_of_nil kind cause hfaces⟩
  | cons t rest =>
    rw [TracksAt, consume_of_cons kind cause hfaces, Parser.expect]
    split
    · exact ⟨[t], [], rfl, rfl⟩
    · exact ⟨[], [], rfl, rfl⟩

end

/-! ## Expressions -/

section
variable {size bound bound' : Nat}

/-- A primary is walked as it is parsed: by the kind of its first token. Behind a left parenthesis there are fewer
tokens for the expression within. -/
theorem primary_tracks {inner : Walker Expr} {inner' : Parser Expr} (h : Tracks (size - 1) inner inner') :
    Tracks size (primary inner) (Parser.primary inner') := by
  intro tokens current stop ahead hfaces hsize
  cases ahead with
  | nil =>
    have hfail : primary inner tokens current = fail .expression tokens current := by
      simp only [primary, ifTakes_of_nil _ _ _ hfaces]
    rw [TracksAt, hfail]
    exact tracks_fail .expression hfaces hsize
  | cons t rest =>
    have hrest : rest.length < size - 1 := Nat.lt_sub_of_add_lt hsize
    have hprevious := previous_of_getElem? hfaces.getElem?_eq
    -- A single token is a whole expression, which the walker answers behind it.
    have hsingle : ∀ e, primary inner tokens current = .ok ⟨.ok e, [], [], current + 1⟩ →
        TracksAt (primary inner) (do Parser.skip; return e) tokens current stop (t :: rest) :=
      fun e he => ⟨[t], [], rfl, he⟩
    rw [Parser.primary]
    refine .peek? ?_
    dsimp only [List.head?_cons]
    split <;> rename_i hk
    case h_7 =>
      have hgroup := h.bind fun e => (tracks_consume .rightParen .parenAfterExpression).bind fun _ =>
        tracks_pure (Expr.grouping e)
      refine .notTaken hfaces ?_ <| .notTaken hfaces ?_ <| .notTaken hfaces ?_ <| .notTaken hfaces ?_ <|
        .notTaken hfaces ?_ <| .taken hfaces (by simp [hk]) (hgroup hfaces.next hrest)
      all_goals simp [hk]
    case h_8 =>
      refine .notTaken hfaces ?_ <| .notTaken hfaces ?_ <| .notTaken hfaces ?_ <| .notTaken hfaces ?_ <|
        .notTaken hfaces ?_ <| .notTaken hfaces ?_ <| tracks_fail .expression hfaces hsize
      all_goals simp_all
    all_goals
      refine hsingle _ ?_
      simp [primary, ifTakes_of_cons _ _ _ hfaces, hk, bind_of_silent hprevious, pure, succeed]

/-- Unary operators are walked as they are parsed, one at a time, with fewer tokens ahead behind each of them. -/
theorem unary_tracks {primary : Walker Expr} {primary' : Parser Expr} (h : Tracks size primary primary')
    (hbound : size ≤ bound) (hbound' : size ≤ bound') :
    Tracks size (unary primary bound) (Parser.unary primary' bound') := by
  induction size generalizing bound bound' with
  | zero => exact tracks_zero _ _
  | succ size ih =>
    obtain ⟨bound, rfl⟩ : ∃ b, bound = b + 1 := ⟨bound - 1, by omega⟩
    obtain ⟨bound', rfl⟩ : ∃ b, bound' = b + 1 := ⟨bound' - 1, by omega⟩
    refine tracks_accept?_previous (fun operator => ?_) h
    exact (ih (h.shrink (Nat.le_succ size)) (Nat.le_of_succ_le_succ hbound)
      (Nat.le_of_succ_le_succ hbound')).bind fun right => tracks_pure _

/-- One round of a chain, and the others behind it. -/
theorem loop_chainRound (level : Parser.Level) (operand : Walker Expr) (bound : Nat) (left : Expr) :
    loop (chainRound level operand) (bound + 1) left = ifTakes level.operators
      (do
        let operator ← previous
        let right ← operand
        loop (chainRound level operand) bound (level.join left operator right))
      (return left) := by
  rw [loop, chainRound, ifTakes_bind]
  simp only [bind_assoc, pure_bind]

/-- A chain of operators of one level is walked as it is parsed: a round of the walker's loop is a round of the
parser's. -/
theorem chain_tracks (level : Parser.Level) {operand : Walker Expr} {operand' : Parser Expr}
    (h : Tracks size operand operand') (hbound : size ≤ bound) (hbound' : size ≤ bound') (left : Expr) :
    Tracks size (loop (chainRound level operand) bound left)
      (Parser.chain level operand' bound' left) := by
  induction size generalizing bound bound' left with
  | zero => exact tracks_zero _ _
  | succ size ih =>
    obtain ⟨bound, rfl⟩ : ∃ b, bound = b + 1 := ⟨bound - 1, by omega⟩
    obtain ⟨bound', rfl⟩ : ∃ b, bound' = b + 1 := ⟨bound' - 1, by omega⟩
    rw [loop_chainRound]
    refine tracks_accept?_previous (fun operator => ?_) (tracks_pure left)
    have hoperand := h.shrink (Nat.le_succ size)
    exact hoperand.bind fun right => ih hoperand (Nat.le_of_succ_le_succ hbound)
      (Nat.le_of_succ_le_succ hbound') _

/-- The levels of infix operators are walked as they are parsed, from the loosest to the tightest. -/
theorem infixes_tracks {tightest : Walker Expr} {tightest' : Parser Expr}
    (h : Tracks size tightest tightest') (hbound : size ≤ bound) (hbound' : size ≤ bound')
    (levels : List Parser.Level) :
    Tracks size (infixes bound tightest levels) (Parser.infixes bound' tightest' levels) := by
  induction levels with
  | nil => exact h
  | cons level tighter ih => exact ih.bind fun left => chain_tracks level ih hbound hbound' left

/-- An assignment is walked as it is parsed: the target first, and behind an equals sign the value. -/
theorem assignment_tracks {target inner : Walker Expr} {target' inner' : Parser Expr}
    (htarget : Tracks size target target') (hinner : Tracks (size - 1) inner inner') :
    Tracks size (assignment target inner) (Parser.assignment target' inner') := by
  refine htarget.bind fun left => tracks_accept?_previous (fun equals => ?_) (tracks_pure left)
  refine hinner.bind fun value => ?_
  cases left with
  | read name => exact tracks_pure _
  | _ => exact (tracks_report .invalidTarget equals).bind fun _ => tracks_pure value

/-- An expression is walked as it is parsed, with bounds of both above the number of tokens ahead. -/
theorem expression_tracks (hbound : size ≤ bound) (hbound' : size ≤ bound') :
    Tracks size (expression bound) (Parser.expression bound') := by
  induction size generalizing bound bound' with
  | zero => exact tracks_zero _ _
  | succ size ih =>
    obtain ⟨bound, rfl⟩ : ∃ b, bound = b + 1 := ⟨bound - 1, by omega⟩
    obtain ⟨bound', rfl⟩ : ∃ b, bound' = b + 1 := ⟨bound' - 1, by omega⟩
    have hinner := ih (Nat.le_of_succ_le_succ hbound) (Nat.le_of_succ_le_succ hbound')
    have hprimary : Tracks (size + 1) _ _ := primary_tracks hinner
    have hunary := unary_tracks hprimary hbound hbound'
    exact assignment_tracks (infixes_tracks hunary hbound hbound' Parser.levels) hinner

end

/-! ## Recovery -/

section
variable {α : Type} {tokens ahead rest : List Token} {current size bound : Nat} {stop before t : Token}

/-- At the end, a round of recovery ends the loop. -/
theorem synchronizeRound_of_nil (h : Faces tokens current stop []) :
    synchronizeRound () tokens current = .ok ⟨.ok (.inr ()), [], [], current⟩ :=
  bind_of_silent (isAtEnd_of_faces h)

/-- A round of recovery looks at the tokens on both sides of the cursor. -/
theorem synchronizeRound_of_cons (hbefore : previous tokens current = .ok ⟨.ok before, [], [], current⟩)
    (h : Faces tokens current stop (t :: rest)) :
    synchronizeRound () tokens current =
      if before.kind = .semicolon ∨ Parser.beginsStatement t then .ok ⟨.ok (.inr ()), [], [], current⟩
      else .ok ⟨.ok (.inl ()), [], [], current + 1⟩ := by
  rw [synchronizeRound, bind_of_silent (isAtEnd_of_faces h)]
  dsimp only [List.isEmpty_cons]
  rw [bind_of_silent hbefore]
  by_cases hsemicolon : before.kind = .semicolon
  · rw [if_pos hsemicolon, if_pos (.inl hsemicolon)]
    rfl
  · rw [if_neg hsemicolon, bind_of_silent (peek_of_faces h), List.headD_cons]
    by_cases hword : Parser.beginsStatement t
    · rw [if_pos hword, if_pos (.inr hword)]
      rfl
    · rw [if_neg hword, if_neg (not_or_intro hsemicolon hword), bind_of_silent (advance_of_cons h)]
      rfl

/-- The rounds of recovery pass over the rest of the statement that `before` belongs to. -/
theorem loop_synchronizeRound (hbefore : previous tokens current = .ok ⟨.ok before, [], [], current⟩)
    (h : Faces tokens current stop ahead) (hbound : ahead.length < bound) :
    ∃ used, ahead = used ++ Parser.skipStatement before ahead ∧
      loop synchronizeRound bound () tokens current = .ok ⟨.ok (), [], [], current + used.length⟩ := by
  obtain ⟨bound, rfl⟩ : ∃ b, bound = b + 1 := ⟨bound - 1, by omega⟩
  induction ahead generalizing current before bound with
  | nil =>
    rw [loop, bind_of_silent (synchronizeRound_of_nil h)]
    exact ⟨[], rfl, rfl⟩
  | cons t rest ih =>
    have hround := synchronizeRound_of_cons hbefore h
    rw [Parser.skipStatement]
    split at hround
    · next hstop =>
      rw [if_pos hstop, loop, bind_of_silent hround]
      exact ⟨[], rfl, rfl⟩
    · next hgo =>
      obtain ⟨bound, rfl⟩ : ∃ b, bound = b + 1 := ⟨bound - 1, by rw [List.length_cons] at hbound; omega⟩
      obtain ⟨used, hused, hloop⟩ :=
        ih (previous_of_getElem? h.getElem?_eq) h.next bound (Nat.lt_of_succ_lt_succ hbound)
      rw [if_neg hgo, loop, bind_of_silent hround]
      refine ⟨t :: used, congrArg (t :: ·) hused, ?_⟩
      rw [List.length_cons, ← Nat.add_assoc, Nat.add_right_comm]
      exact hloop

/-- Recovery passes over the tokens that the parser's recovery takes, the blamed one among them. -/
theorem synchronize_of_faces (h : Faces tokens current stop ahead) (hbound : ahead.length < bound) :
    ∃ used, ahead = used ++ Parser.synchronize ahead ∧
      synchronize bound tokens current = .ok ⟨.ok (), [], [], current + used.length⟩ := by
  rw [synchronize, bind_of_silent (peek_of_faces h)]
  cases ahead with
  | nil =>
    obtain ⟨t, hadvance⟩ := advance_of_nil h
    obtain ⟨before, hbefore⟩ := previous_of_le h.length_pos h.current_le
    rw [bind_of_silent hadvance]
    exact loop_synchronizeRound hbefore h hbound
  | cons t rest =>
    obtain ⟨used, hused, hloop⟩ := loop_synchronizeRound (previous_of_getElem? h.getElem?_eq) h.next
      (Nat.lt_of_succ_lt hbound)
    rw [bind_of_silent (advance_of_cons h)]
    refine ⟨t :: used, congrArg (t :: ·) hused, ?_⟩
    rw [List.length_cons, ← Nat.add_assoc, Nat.add_right_comm]
    exact hloop

/-- Recovery reports the fault, and keeps where it began and where it ended. -/
theorem recover_of_faces (fault : ParseFault) (h : Faces tokens current stop ahead)
    (hbound : ahead.length < bound) :
    ∃ used, ahead = used ++ Parser.synchronize ahead ∧ recover bound fault tokens current =
      .ok ⟨.ok (), [fault], [(current, current + used.length)], current + used.length⟩ := by
  obtain ⟨used, hused, hsync⟩ := synchronize_of_faces h hbound
  refine ⟨used, hused, ?_⟩
  -- What is run behind the report.
  let f : Unit → Walker Unit := fun _ => do
    let before ← position
    synchronize bound
    recovered before
  have hf : f () tokens current =
      .ok ⟨.ok (), [], [(current, current + used.length)], current + used.length⟩ :=
    (bind_of_silent (w := position) rfl).trans (bind_of_silent hsync)
  exact bind_of_ok (w := report fault) (f := f) rfl hf

/-- To attempt a walker is to run it and to keep its fault as a result. -/
theorem attempt_of_ok {w : Walker α} {r : Landing α} (h : w tokens current = .ok r) :
    attempt w tokens current = .ok ⟨.ok r.result, r.reports, r.recoveries, r.current⟩ := by
  simp only [attempt, h, Except.map]

/-- Where a walker succeeds there is nothing to recover from. -/
theorem recovering_of_ok {w : Walker α} {a : α} {reports : List ParseFault}
    {recoveries : List (Nat × Nat)} {after : Nat}
    (h : w tokens current = .ok ⟨.ok a, reports, recoveries, after⟩) :
    recovering bound w tokens current = .ok ⟨.ok (some a), reports, recoveries, after⟩ := by
  have hsettle : settle bound (.ok a) tokens after = .ok ⟨.ok (some a), [], [], after⟩ := rfl
  rw [recovering, bind_of_ok (attempt_of_ok h) hsettle, List.append_nil, List.append_nil]

/-- Where a walker fails, its fault is reported behind what it reported itself, and the cursor moves to where
recovery ends. -/
theorem recovering_of_fault {w : Walker α} {fault : ParseFault} {reports : List ParseFault}
    {recoveries : List (Nat × Nat)} {after final : Nat}
    (h : w tokens current = .ok ⟨.error fault, reports, recoveries, after⟩)
    (hrecover : recover bound fault tokens after = .ok ⟨.ok (), [fault], [(after, final)], final⟩) :
    recovering bound w tokens current =
      .ok ⟨.ok none, reports ++ [fault], recoveries ++ [(after, final)], final⟩ := by
  have hsettle : settle (α := α) bound (.error fault) tokens after =
      .ok ⟨.ok none, [fault], [(after, final)], final⟩ :=
    bind_of_ok (f := fun _ => pure none) hrecover rfl
  rw [recovering, bind_of_ok (attempt_of_ok h) hsettle]

/-- A walker with recovery does what the parser with recovery does. -/
theorem recovering_tracks {w : Walker α} {p : Parser α} (h : Tracks size w p) (hbound : size ≤ bound) :
    Tracks size (recovering bound w) (Parser.recovering p) := by
  intro tokens current stop ahead hfaces hsize
  have hle := (h hfaces hsize).length_le
  obtain ⟨used, recoveries, hused, hw⟩ := h hfaces hsize
  rcases hfirst : p stop ahead with ⟨fault | a, reports, rest⟩ <;> rw [hfirst] at hused hw hle
  · have hrest : Faces tokens (current + used.length) stop rest := (hused ▸ hfaces).move
    have hlt := Nat.lt_of_le_of_lt hle (Nat.lt_of_lt_of_le hsize hbound)
    obtain ⟨used', hused', hrecover⟩ := recover_of_faces fault hrest hlt
    rw [TracksAt, Parser.recovering_of_error hfirst]
    have hrecovering := recovering_of_fault hw hrecover
    rw [Nat.add_assoc, ← List.length_append] at hrecovering
    refine ⟨used ++ used', _, ?_, hrecovering⟩
    rw [List.append_assoc, ← hused', hused]
  · rw [TracksAt, Parser.recovering_of_ok hfirst]
    exact ⟨used, recoveries, hused, recovering_of_ok hw⟩

/-! ## Rows of declarations -/

/-- Where a loop over declarations ends: before a token of a closing kind, and at the end. -/
structure Closes (closed : Walker Bool) (closing : List Kind) : Prop where
  of_nil : ∀ current, closed [] current = .ok ⟨.ok true, [], [], current⟩
  of_faces : ∀ {tokens current stop ahead}, Faces tokens current stop ahead → closed tokens current =
    .ok ⟨.ok ((ahead.head?.map Token.kind).all (· ∈ closing)), [], [], current⟩

/-- A loop that ends at the end of the list closes before no token. -/
theorem isAtEnd_closes : Closes isAtEnd [] where
  of_nil current := isAtEnd_of_le (Nat.zero_le current)
  of_faces {_ _ _ ahead} h := by
    rw [isAtEnd_of_faces h]
    cases ahead <;> simp

/-- A loop that ends at a brace closes before a right brace. -/
theorem isAtBrace_closes : Closes isAtBrace [.rightBrace] where
  of_nil current := by
    have hend : isAtEnd [] current = _ := isAtEnd_of_le (Nat.zero_le current)
    have hcheck : check .rightBrace [] current = .ok ⟨.ok false, [], [], current⟩ := bind_of_silent hend
    exact (bind_of_silent hcheck).trans hend
  of_faces {_ _ _ ahead} h := by
    rw [isAtBrace, bind_of_silent (check_of_faces .rightBrace h)]
    cases ahead with
    | nil => exact isAtEnd_of_faces h
    | cons t rest =>
      by_cases hbrace : t.kind = .rightBrace
      · simp [hbrace, pure, succeed]
      · simpa [hbrace] using isAtEnd_of_faces h

/-- Where the loop over declarations is closed, it gives what was found. -/
theorem loop_rowRound_of_closed {closed : Walker Bool} {one : Walker (Option Stmt)} {found : List Stmt}
    (h : closed tokens current = .ok ⟨.ok true, [], [], current⟩) :
    loop (rowRound closed one) (bound + 1) found tokens current =
      .ok ⟨.ok found, [], [], current⟩ := by
  rw [loop, rowRound, bind_assoc, bind_of_silent h]
  rfl

/-- Where the loop over declarations is open, it reads one declaration and goes on with it behind those found
before. -/
theorem loop_rowRound_of_open {closed : Walker Bool} {one : Walker (Option Stmt)} {found : List Stmt}
    (h : closed tokens current = .ok ⟨.ok false, [], [], current⟩) :
    loop (rowRound closed one) (bound + 1) found tokens current =
      (do
        let first ← one
        loop (rowRound closed one) bound (found ++ first.toList)) tokens current := by
  rw [loop, rowRound, bind_assoc, bind_of_silent h]
  simp only [bind_assoc, pure_bind]

/-- A declaration, or the recovery from its fault, takes a token. -/
theorem length_recovering_lt {p : Parser Stmt} (h : Parser.LocalAt Parser.Anything 1 p p ahead)
    (hne : ahead ≠ []) (stop : Token) :
    (Parser.recovering p stop ahead).rest.length < ahead.length := by
  obtain ⟨used, hused, -, hleast⟩ := (h.recovering hne).taken stop
  have hlength := congrArg List.length hused
  rw [List.length_append] at hlength
  have hpos : 1 ≤ used.length := by
    cases hresult : (p stop ahead).result with
    | ok a => exact hleast (some a) (by simp only [Parser.recovering, hresult])
    | error fault => exact hleast none (by simp only [Parser.recovering, hresult])
  omega

/-- The loop over declarations reads them one by one, behind those that were read before it. -/
theorem row_tracks {closed : Walker Bool} {closing : List Kind} {one : Walker (Option Stmt)}
    {p : Parser Stmt} {bound' : Nat} (hclosed : Closes closed closing)
    (hone : Tracks size one (Parser.recovering p)) (hp : Parser.Local Parser.Anything 1 size p p)
    (hbound : size ≤ bound) (hbound' : size ≤ bound') (found : List Stmt) :
    Tracks size (loop (rowRound closed one) bound found)
      (do return found ++ (← Parser.declarations closing p bound')) := by
  -- A round that does not end the loop takes a token, so the number of tokens bounds the rounds too.
  induction size generalizing bound bound' found with
  | zero => exact tracks_zero _ _
  | succ size ih =>
    obtain ⟨bound, rfl⟩ : ∃ b, bound = b + 1 := ⟨bound - 1, by omega⟩
    obtain ⟨bound', rfl⟩ : ∃ b, bound' = b + 1 := ⟨bound' - 1, by omega⟩
    have hothers := ih (hone.shrink (Nat.le_succ size)) (hp.shrink (Nat.le_succ size))
      (Nat.le_of_succ_le_succ hbound) (Nat.le_of_succ_le_succ hbound')
    intro tokens current stop ahead hfaces hsize
    have hend := hclosed.of_faces hfaces
    rw [Parser.declarations, bind_assoc]
    refine .peekKind? ?_
    cases ahead with
    | nil =>
      rw [TracksAt, loop_rowRound_of_closed hend]
      simp only [List.head?_nil, Option.map_none, pure_bind, List.append_nil]
      exact ⟨[], [], rfl, rfl⟩
    | cons t rest =>
      dsimp only [List.head?_cons, Option.map_some, Option.all_some] at hend ⊢
      split
      · next hkind =>
        rw [decide_eq_true hkind] at hend
        rw [TracksAt, loop_rowRound_of_closed hend]
        simp only [pure_bind, List.append_nil]
        exact ⟨[], [], rfl, rfl⟩
      · next hkind =>
        rw [decide_eq_false hkind] at hend
        rw [TracksAt, loop_rowRound_of_open hend]
        have hlocal := hp (t :: rest) (Nat.le_of_lt hsize)
        have hless := length_recovering_lt hlocal (List.cons_ne_nil t rest) stop
        simp only [bind_assoc, pure_bind]
        refine TracksAt.bind hfaces (hone hfaces hsize) fun {first _ rest' after} hfirst hrest => ?_
        rw [hfirst] at hless
        have htrack := hothers (found ++ first.toList) hrest
          (Nat.lt_of_lt_of_le hless (Nat.le_of_lt_succ hsize))
        simpa only [List.append_assoc] using htrack

end

/-! ## Statements -/

section
variable {size bound bound' : Nat} {inner : Walker Stmt} {inner' : Parser Stmt}

/-- An expression statement is walked as it is parsed. -/
theorem expressionStatement_tracks (hbound : size ≤ bound) (hbound' : size ≤ bound') :
    Tracks size (expressionStatement bound) (Parser.expressionStatement bound') :=
  (expression_tracks hbound hbound').bind fun _ => (tracks_consume _ _).bind fun _ => tracks_pure _

/-- A print statement is walked as it is parsed. -/
theorem printStatement_tracks (hbound : size ≤ bound) (hbound' : size ≤ bound') :
    Tracks size (printStatement bound) (Parser.printStatement bound') :=
  (expression_tracks hbound hbound').bind fun _ => (tracks_consume _ _).bind fun _ => tracks_pure _

/-- An initial value that may be missing is walked as it is parsed. -/
theorem initializer?_tracks (hbound : size ≤ bound) (hbound' : size ≤ bound') :
    Tracks size (initializer? bound) (Parser.initializer? bound') := by
  have he := (expression_tracks hbound hbound').shrink (Nat.sub_le size 1)
  exact tracks_accept?_drop (fun _ => he.bind fun _ => tracks_pure _) (tracks_pure none)

/-- A declaration of a variable is walked as it is parsed. -/
theorem varDeclaration_tracks (hbound : size ≤ bound) (hbound' : size ≤ bound') :
    Tracks size (varDeclaration bound) (Parser.varDeclaration bound') :=
  (tracks_consume _ _).bind fun _ => (initializer?_tracks hbound hbound').bind fun _ =>
    (tracks_consume _ _).bind fun _ => tracks_pure _

/-- An expression that may be missing is walked as it is parsed: it is missing where the token that closes it comes
next. -/
theorem optionalExpression_tracks (close : Kind) (hbound : size ≤ bound) (hbound' : size ≤ bound') :
    Tracks size (optionalExpression bound close) (Parser.optionalExpression bound' close) := by
  intro tokens current stop ahead hfaces hsize
  have he := (expression_tracks hbound hbound').bind fun e => tracks_pure (some e)
  refine .check close hfaces (.peekKind? ?_)
  by_cases hclose : ahead.head?.map Token.kind = some close
  · rw [decide_eq_true hclose, if_pos hclose]
    exact tracks_pure none hfaces hsize
  · rw [decide_eq_false hclose, if_neg hclose]
    exact he hfaces hsize

/-- A walker that is chosen by the kind of the next token, and goes on behind that token. -/
theorem Tracks.behindWord {α : Type} {yes no : Walker α} {p : Parser α} {tokens ahead : List Token}
    {current : Nat} {stop : Token} {kind : Kind} (h : Tracks size yes p)
    (hfaces : Faces tokens current stop ahead) (hsize : ahead.length < size + 1)
    (hkind : ahead.head?.map Token.kind = some kind) :
    TracksAt (ifTakes [kind] yes no) (do Parser.skip; p) tokens current stop ahead := by
  obtain ⟨t, rest, rfl, rfl⟩ := Parser.head?_kind_eq_some_iff.1 hkind
  exact .taken hfaces List.mem_cons_self (h hfaces.next (Nat.lt_of_succ_lt_succ hsize))

/-- A walker that is chosen by another kind than that of the next token. -/
theorem TracksAt.otherWord {α : Type} {yes no : Walker α} {p : Parser α} {tokens ahead : List Token}
    {current : Nat} {stop : Token} {kind : Kind} (hfaces : Faces tokens current stop ahead)
    (hkind : ahead.head?.map Token.kind ≠ some kind) (h : TracksAt no p tokens current stop ahead) :
    TracksAt (ifTakes [kind] yes no) p tokens current stop ahead :=
  h.notTaken hfaces fun other hother => by rwa [List.mem_singleton.1 hother]

/-- The first clause of a `for` statement is walked as it is parsed. -/
theorem forInitial_tracks (hbound : size ≤ bound) (hbound' : size ≤ bound') :
    Tracks size (forInitial bound) (Parser.forInitial bound') := by
  intro tokens current stop ahead hfaces hsize
  have hvar := (varDeclaration_tracks hbound hbound').bind fun s => tracks_pure (some s)
  have hstmt := (expressionStatement_tracks hbound hbound').bind fun s => tracks_pure (some s)
  have hsize' := Nat.lt_succ_of_lt hsize
  rw [Parser.forInitial]
  refine .peekKind? ?_
  split <;> rename_i hk
  · exact (tracks_pure none).behindWord hfaces hsize' hk
  · exact .otherWord hfaces (by simp [hk]) (hvar.behindWord hfaces hsize' hk)
  · rename_i hsemicolon
    exact .otherWord hfaces hsemicolon (.otherWord hfaces hk (hstmt hfaces hsize))

/-- A `for` statement is walked as it is parsed. -/
theorem forStatement_tracks (hbound : size ≤ bound) (hbound' : size ≤ bound')
    (h : Tracks size inner inner') :
    Tracks size (forStatement bound inner) (Parser.forStatement bound' inner') :=
  (tracks_consume _ _).bind fun _ => (forInitial_tracks hbound hbound').bind fun _ =>
    (optionalExpression_tracks _ hbound hbound').bind fun _ => (tracks_consume _ _).bind fun _ =>
      (optionalExpression_tracks _ hbound hbound').bind fun _ => (tracks_consume _ _).bind fun _ =>
        h.bind fun _ => tracks_pure _

/-- An `if` statement is walked as it is parsed. -/
theorem ifStatement_tracks (hbound : size ≤ bound) (hbound' : size ≤ bound')
    (h : Tracks size inner inner') :
    Tracks size (ifStatement bound inner) (Parser.ifStatement bound' inner') := by
  refine (tracks_consume _ _).bind fun _ => (expression_tracks hbound hbound').bind fun condition =>
    (tracks_consume _ _).bind fun _ => h.bind fun yes => ?_
  have hno := h.shrink (Nat.sub_le size 1)
  exact tracks_accept?_drop (fun _ => hno.bind fun _ => tracks_pure _) (tracks_pure _)

/-- A `while` statement is walked as it is parsed. -/
theorem whileStatement_tracks (hbound : size ≤ bound) (hbound' : size ≤ bound')
    (h : Tracks size inner inner') :
    Tracks size (whileStatement bound inner) (Parser.whileStatement bound' inner') :=
  (tracks_consume _ _).bind fun _ => (expression_tracks hbound hbound').bind fun _ =>
    (tracks_consume _ _).bind fun _ => h.bind fun _ => tracks_pure _

/-- A declaration with recovery is walked as it is parsed. -/
theorem declaration_tracks (hbound : size ≤ bound) (hbound' : size ≤ bound')
    (h : Tracks size inner inner') :
    Tracks size (declaration bound inner) (Parser.recovering (Parser.declaration bound' inner')) := by
  refine recovering_tracks (fun tokens current stop ahead hfaces hsize => ?_) hbound
  rw [Parser.declaration]
  refine .peekKind? ?_
  split <;> rename_i hk
  · exact (varDeclaration_tracks hbound hbound').behindWord hfaces (Nat.lt_succ_of_lt hsize) hk
  · exact .otherWord hfaces hk (h hfaces hsize)

/-- A block is walked as it is parsed: a row of declarations up to a right brace, and the brace. -/
theorem block_tracks (hbound : size ≤ bound) (hbound' : size ≤ bound') (h : Tracks size inner inner')
    (hlocal : Parser.Local Parser.Anything 1 size inner' inner') :
    Tracks size (block bound inner) (Parser.block bound' inner') := by
  have hrow := row_tracks isAtBrace_closes (declaration_tracks hbound hbound' h)
    (Parser.declaration_local hbound' hbound' hlocal) hbound hbound' []
  simp only [List.nil_append, bind_pure] at hrow
  exact hrow.bind fun _ => (tracks_consume _ _).bind fun _ => tracks_pure _

/-- A statement is walked as it is parsed, by the word that begins it. Behind the word there are fewer tokens for
the statements within. -/
theorem statement_tracks (hbound : size ≤ bound) (hbound' : size ≤ bound') :
    Tracks size (statement bound) (Parser.statement bound') := by
  induction size generalizing bound bound' with
  | zero => exact tracks_zero _ _
  | succ size ih =>
    obtain ⟨bound, rfl⟩ : ∃ b, bound = b + 1 := ⟨bound - 1, by omega⟩
    obtain ⟨bound', rfl⟩ : ∃ b, bound' = b + 1 := ⟨bound' - 1, by omega⟩
    have hb := Nat.le_of_succ_le_succ hbound
    have hb' := Nat.le_of_succ_le_succ hbound'
    have hinner := ih hb hb'
    intro tokens current stop ahead hfaces hsize
    rw [TracksAt, statement, bind_of_silent (peek_of_faces hfaces), Parser.statement]
    refine TracksAt.peekKind? ?_
    split <;> rename_i hk
    · exact (forStatement_tracks hb hb' hinner).behindWord hfaces hsize hk
    · refine .otherWord hfaces (by simp [hk]) ?_
      exact (ifStatement_tracks hb hb' hinner).behindWord hfaces hsize hk
    · refine .otherWord hfaces (by simp [hk]) <| .otherWord hfaces (by simp [hk]) ?_
      exact (whileStatement_tracks hb hb' hinner).behindWord hfaces hsize hk
    · refine .otherWord hfaces (by simp [hk]) <| .otherWord hfaces (by simp [hk]) <|
        .otherWord hfaces (by simp [hk]) ?_
      exact (block_tracks hb hb' hinner (Parser.statement_local hb' hb')).behindWord hfaces hsize hk
    · refine .otherWord hfaces (by simp [hk]) <| .otherWord hfaces (by simp [hk]) <|
        .otherWord hfaces (by simp [hk]) <| .otherWord hfaces (by simp [hk]) ?_
      exact (printStatement_tracks hb hb').behindWord hfaces hsize hk
    · rename_i hfor hif hwhile hbrace
      exact .otherWord hfaces hfor <| .otherWord hfaces hif <| .otherWord hfaces hwhile <|
        .otherWord hfaces hbrace <| .otherWord hfaces hk <|
        expressionStatement_tracks hbound hbound' hfaces hsize

/-- An expression with nothing behind it is walked as it is parsed. -/
theorem wholeExpression_tracks (hbound : size ≤ bound) (hbound' : size ≤ bound') :
    Tracks size (wholeExpression bound) (Parser.soleExpression bound') := by
  refine (expression_tracks hbound hbound').bind fun e tokens current stop ahead hfaces hsize => ?_
  rw [TracksAt, bind_of_silent (isAtEnd_of_faces hfaces)]
  cases ahead with
  | nil => exact tracks_pure e hfaces hsize
  | cons t rest => exact tracks_fail .endOfExpression hfaces hsize

end

/-! ## One round -/

section
variable {β σ : Type} {tokens : List Token} {current bound : Nat}

/-- A round of a loop ends it where it stands, or moves the cursor on and leaves it among the tokens. -/
def Advances (round : Walker (σ ⊕ β)) (tokens : List Token) (current : Nat) : Prop :=
  (∃ answer, round tokens current = .ok ⟨.ok (.inr answer), [], [], current⟩) ∨
    ∃ state reports recoveries after,
      round tokens current = .ok ⟨.ok (.inl state), reports, recoveries, after⟩ ∧
        current < after ∧ after ≤ tokens.length

/-- A round of recovery ends it or takes a token. -/
theorem synchronizeRound_advances (h : current ≤ tokens.length) :
    Advances (synchronizeRound ()) tokens current := by
  cases hlast : tokens.getLast? with
  | none =>
    obtain rfl := List.getLast?_eq_none_iff.1 hlast
    exact .inl ⟨(), bind_of_silent (isAtEnd_of_le (Nat.zero_le current))⟩
  | some last =>
    have hfaces := Faces.of_getLast? hlast h
    generalize (tokens.drop current).takeWhile (·.kind ≠ .eof) = ahead at hfaces
    cases ahead with
    | nil => exact .inl ⟨(), synchronizeRound_of_nil hfaces⟩
    | cons t rest =>
      obtain ⟨before, hbefore⟩ := previous_of_le hfaces.length_pos h
      have hround := synchronizeRound_of_cons hbefore hfaces
      split at hround
      · exact .inl ⟨(), hround⟩
      · exact .inr ⟨(), [], [], current + 1, hround, Nat.lt_succ_self current, hfaces.lt_length⟩

/-- A round over declarations ends the loop, or takes a token, if only to recover from a fault. -/
theorem rowRound_advances {closed : Walker Bool} {closing : List Kind} {one : Walker (Option Stmt)}
    {p : Parser Stmt} {size : Nat} (hclosed : Closes closed closing)
    (hone : Tracks size one (Parser.recovering p)) (hp : Parser.Local Parser.Anything 1 size p p)
    (h : current ≤ tokens.length) (hsize : tokens.length - current < size) (found : List Stmt) :
    Advances (rowRound closed one found) tokens current := by
  cases hlast : tokens.getLast? with
  | none =>
    obtain rfl := List.getLast?_eq_none_iff.1 hlast
    exact .inl ⟨found, bind_of_silent (hclosed.of_nil current)⟩
  | some last =>
    have hfaces := Faces.of_getLast? hlast h
    generalize (tokens.drop current).takeWhile (·.kind ≠ .eof) = ahead at hfaces
    generalize ((tokens.drop current).find? (·.kind = .eof)).getD last = stop at hfaces
    have hless : ahead.length < size := Nat.lt_of_le_of_lt hfaces.length_le hsize
    have hend := hclosed.of_faces hfaces
    cases hdone : (ahead.head?.map Token.kind).all (· ∈ closing) <;> rw [hdone] at hend
    case true => exact .inl ⟨found, bind_of_silent hend⟩
    case false =>
      have hne : ahead ≠ [] := by
        rintro rfl
        exact absurd hdone (by simp)
      have hlt := length_recovering_lt (hp ahead (Nat.le_of_lt hless)) hne stop
      obtain ⟨used, recoveries, hused, hw⟩ := hone hfaces hless
      have hpos := congrArg List.length hused
      rw [List.length_append] at hpos
      have hafter : current + used.length ≤ tokens.length := (hused ▸ hfaces).move.current_le
      obtain ⟨first, hfirst⟩ := Parser.total_recovering p stop ahead
      rw [hfirst] at hw
      refine .inr ⟨found ++ first.toList, (Parser.recovering p stop ahead).reports ++ [],
        recoveries ++ [], current + used.length, ?_, by omega, hafter⟩
      let f : Option Stmt → Walker (List Stmt ⊕ List Stmt) := fun o => pure (.inl (found ++ o.toList))
      exact (bind_of_silent hend).trans (bind_of_ok (f := f) hw rfl)

/-- A round over the declarations of a program ends the loop or takes a token. -/
theorem programRound_advances (h : current ≤ tokens.length) (hbound : tokens.length - current < bound)
    (found : List Stmt) : Advances (programRound bound found) tokens current :=
  rowRound_advances isAtEnd_closes
    (declaration_tracks (Nat.le_refl bound) (Nat.le_refl bound)
      (statement_tracks (Nat.le_refl bound) (Nat.le_refl bound)))
    (Parser.declaration_statement_local (Nat.le_refl bound) (Nat.le_refl bound)) h hbound found

/-- A round over the declarations of a block ends the loop or takes a token. -/
theorem blockRound_advances (h : current ≤ tokens.length) (hbound : tokens.length - current < bound)
    (found : List Stmt) : Advances (blockRound bound (statement bound) found) tokens current :=
  rowRound_advances isAtBrace_closes
    (declaration_tracks (Nat.le_refl bound) (Nat.le_refl bound)
      (statement_tracks (Nat.le_refl bound) (Nat.le_refl bound)))
    (Parser.declaration_statement_local (Nat.le_refl bound) (Nat.le_refl bound)) h hbound found

end

/-! ## Whole token lists -/

section
variable {tokens : List Token} {stream : Stream} {bound : Nat}

/-- Where there are tokens, a program is the loop from the first of them. -/
theorem program_eq_loop (hpos : 0 < tokens.length) (start : Nat) :
    program bound tokens start = loop (programRound bound) bound [] tokens 0 := by
  rw [program, bind_of_silent (w := restart) rfl, bind_of_silent (w := count) rfl,
    if_neg (Nat.ne_of_gt hpos)]

/-- A walk over a list with something to read answers what the parser of programs does, wherever the cursor stood
before. -/
theorem program_of_ofTokens? (h : Stream.ofTokens? tokens = some stream)
    (hbound : tokens.length < bound) (start : Nat) :
    ∃ recoveries current, current ≤ tokens.length ∧ program bound tokens start =
      .ok ⟨.ok (Parse.program tokens).1, (Parse.program tokens).2, recoveries, current⟩ := by
  have hfaces := Faces.of_ofTokens? h
  have hsize : stream.body.length < bound := Nat.lt_of_le_of_lt hfaces.length_le hbound
  have hle := Nat.le_refl bound
  have hrow := row_tracks isAtEnd_closes (declaration_tracks hle hle (statement_tracks hle hle))
    (Parser.declaration_statement_local hle hle) hle hle [] hfaces hsize
  simp only [List.nil_append, bind_pure] at hrow
  obtain ⟨used, recoveries, hused, hloop⟩ := hrow
  obtain ⟨left, hprogram⟩ := Parse.row_program h (Nat.le_of_lt hsize) bound (Nat.le_of_lt hsize)
  rw [hprogram] at hused hloop
  exact ⟨recoveries, 0 + used.length, (hused ▸ hfaces).move.current_le,
    (program_eq_loop hfaces.length_pos start).trans hloop⟩

/-- An expression with nothing behind it is read by looking at the tokens alone, whatever the bound. -/
theorem soleExpression_local {size bound bound' : Nat} (hbound : size ≤ bound)
    (hbound' : size ≤ bound') :
    Parser.Local Parser.Anything 1 size (Parser.soleExpression bound) (Parser.soleExpression bound') := by
  refine (Parser.expression_local hbound hbound').any.bind (k := 0) fun e => Parser.local_peek? ?_
  intro tokens htokens
  cases tokens with
  | nil => exact Parser.local_pure e [] htokens
  | cons t rest => exact Parser.local_fail .endOfExpression (t :: rest) htokens

/-- A walk over a list with something to read answers what the parser of single expressions does, wherever the
cursor stood before. -/
theorem soleExpression_of_ofTokens? (h : Stream.ofTokens? tokens = some stream)
    (hbound : tokens.length < bound) (start : Nat) :
    ∃ recoveries current, current ≤ tokens.length ∧ soleExpression bound tokens start =
      .ok ⟨.ok (Parse.expression tokens).1, (Parse.expression tokens).2, recoveries, current⟩ := by
  have hfaces := Faces.of_ofTokens? h
  have hsize : stream.body.length < bound := Nat.lt_of_le_of_lt hfaces.length_le hbound
  have hle := Nat.le_refl bound
  obtain ⟨used, recoveries, hused, hwhole⟩ := wholeExpression_tracks hle hle hfaces hsize
  have hlocal := soleExpression_local (Nat.le_refl _) (Nat.le_of_lt hsize)
  rw [hlocal.eq (Nat.le_refl _)] at hused hwhole
  have hcount : ¬ tokens.length = 0 := Nat.ne_of_gt hfaces.length_pos
  have hattempt := attempt_of_ok hwhole
  refine ⟨recoveries, 0 + used.length, (hused ▸ hfaces).move.current_le, ?_⟩
  rw [soleExpression, bind_of_silent (w := restart) rfl, bind_of_silent (w := count) rfl,
    if_neg hcount, Parse.expression, h]
  dsimp only
  cases hresult : (Parser.soleExpression stream.body.length stream.stop stream.body).result with
  | ok e =>
    rw [hresult] at hattempt
    have hconclude : conclude (.ok e) tokens (0 + used.length) = .ok ⟨.ok (some e), [], [], _⟩ := rfl
    rw [bind_of_ok hattempt hconclude, List.append_nil, List.append_nil]
  | error fault =>
    rw [hresult] at hattempt
    have hconclude : conclude (α := Expr) (.error fault) tokens (0 + used.length) =
      .ok ⟨.ok none, [fault], [], _⟩ := rfl
    rw [bind_of_ok hattempt hconclude, List.append_nil]

end

/-- Reading by a cursor always comes to an end and never breaks off. From any token list, and wherever the
cursor stood before, a program and an expression are read with every bound above the number of tokens; what is
read is `Parse.program` and `Parse.expression`, and the cursor ends among the tokens. From any cursor among the
tokens, a round of each of the three loops ends the loop or moves the cursor on. -/
theorem walks_return (tokens : List Token) (bound start : Nat) (hbound : tokens.length < bound) :
    (∃ recoveries current, current ≤ tokens.length ∧ program bound tokens start =
      .ok ⟨.ok (Parse.program tokens).1, (Parse.program tokens).2, recoveries, current⟩) ∧
    (∃ recoveries current, current ≤ tokens.length ∧ soleExpression bound tokens start =
      .ok ⟨.ok (Parse.expression tokens).1, (Parse.expression tokens).2, recoveries, current⟩) ∧
    ∀ current ≤ tokens.length, ∀ depth, tokens.length - current < depth →
      (∀ found, Advances (programRound depth found) tokens current) ∧
      (∀ found, Advances (blockRound depth (statement depth) found) tokens current) ∧
      Advances (synchronizeRound ()) tokens current := by
  rw [← and_assoc]
  refine ⟨?_, fun current hcurrent depth hdepth => ⟨programRound_advances hcurrent hdepth,
    blockRound_advances hcurrent hdepth, synchronizeRound_advances hcurrent⟩⟩
  cases hstream : Stream.ofTokens? tokens with
  | some stream =>
    exact ⟨program_of_ofTokens? hstream hbound start, soleExpression_of_ofTokens? hstream hbound start⟩
  | none =>
    obtain rfl := List.getLast?_eq_none_iff.1 (Option.map_eq_none_iff.1 hstream)
    exact ⟨⟨[], 0, Nat.le_refl 0, rfl⟩, ⟨[], 0, Nat.le_refl 0, rfl⟩⟩

/-- The tokens of a block without a semicolon in it, an end mark, and a semicolon behind the mark. -/
def markInside : List Token :=
  [⟨.leftBrace, "\x7b", none, 1⟩, ⟨.identifier, "a", none, 1⟩, ⟨.rightBrace, "\x7d", none, 1⟩,
    ⟨.eof, "", none, 1⟩, ⟨.semicolon, ";", none, 1⟩]

/-- The walk ends among these five tokens, and so does the round in which `a` is recovered from. -/
theorem walks_return_markInside :
    markInside.length < 6 ∧
    (∃ recoveries current, current ≤ markInside.length ∧ program 6 markInside 9 =
      .ok ⟨.ok (Parse.program markInside).1, (Parse.program markInside).2, recoveries, current⟩) ∧
    1 ≤ markInside.length ∧ markInside.length - 1 < 5 ∧
    Advances (blockRound 5 (statement 5) []) markInside 1 := by
  have hbound : markInside.length < 6 := by decide
  have hcursor : 1 ≤ markInside.length := by decide
  have hdepth : markInside.length - 1 < 5 := by decide
  obtain ⟨hprogram, -, hrounds⟩ := walks_return markInside 6 9 hbound
  exact ⟨hbound, hprogram, hcursor, hdepth, (hrounds 1 hcursor 5 hdepth).2.1 []⟩

end Walker

end LoxLang
