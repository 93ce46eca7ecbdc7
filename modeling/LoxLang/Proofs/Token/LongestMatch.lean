import LoxLang.Proofs.Token.Lexical

/-!
# Source is read by longest match

The items of a source are what the lexical grammar says they are (`scans_iff_eq_items`). One piece at a
time: what `readFrom` answers is a step (`readFrom_answers`, from one lemma for each way in which a piece
can begin), and no other step is possible from the same text (`Step.readFrom_eq`). That a lexeme is the
longest one comes from what can follow its first character: a run is the longest prefix of its characters
(`length_le_run`).
-/

namespace LoxLang.Lexical

open LoxLang.Piece

/-! ## Runs of characters -/

/-- A text is a run of characters that pass a test and a rest that does not begin with one. -/
theorem exists_run (p : Char → Bool) (text : List Char) :
    ∃ w rest, text = w ++ rest ∧ run p text = w.length ∧ (∀ c ∈ w, p c) ∧
      ∀ c ∈ rest.head?, p c = false := by
  refine ⟨text.takeWhile p, text.dropWhile p, List.takeWhile_append_dropWhile.symm, rfl, ?_, ?_⟩
  · exact fun c hc => (List.all_eq_true.1 List.all_takeWhile) c hc
  · intro c hc
    have h := List.head?_dropWhile_not p text
    rw [Option.mem_def] at hc
    rwa [hc] at h

/-- A run is the longest prefix of characters that pass the test. -/
theorem length_le_run {p : Char → Bool} {w text : List Char} (hw : w <+: text) (hp : ∀ c ∈ w, p c) :
    w.length ≤ run p text := by
  obtain ⟨rest, rfl⟩ := hw
  rw [run, List.takeWhile_append_of_pos hp, List.length_append]
  exact Nat.le_add_right _ _

/-- What goes on behind a character that does not pass the test begins behind the whole run. -/
theorem eq_run_of_prefix {p : Char → Bool} {w rest u more : List Char} {c : Char}
    (hrun : run p (w ++ rest) = w.length) (hu : ∀ d ∈ u, p d) (hc : p c = false)
    (h : u ++ c :: more <+: w ++ rest) : u = w ∧ c :: more <+: rest := by
  obtain ⟨v, hv⟩ := h
  have hlength : u.length = w.length := by
    rw [← hrun, ← hv, List.append_assoc, List.cons_append, run_append hc, run, ← List.append_nil u,
      List.takeWhile_append_of_pos hu]
    simp
  rw [List.append_assoc] at hv
  obtain ⟨rfl, hrest⟩ := List.append_inj hv hlength
  exact ⟨rfl, v, hrest⟩

/-- A run is as long as the characters in front of the first one that does not pass the test. -/
theorem run_eq_length {p : Char → Bool} {w rest : List Char} (hw : ∀ c ∈ w, p c)
    (hrest : ∀ c ∈ rest.head?, p c = false) : run p (w ++ rest) = w.length := by
  rw [run, List.takeWhile_append_of_pos hw]
  cases rest with
  | nil => simp
  | cons c rest => simp [hrest c rfl]

/-! ## The first piece of a text -/

/-- A piece is read by the class of its first character. -/
theorem readFrom_eq (c : Char) (rest : List Char) :
    readFrom c rest =
      match classOf c with
      | .blank => (.blank, 0)
      | .punctuation kind => (.token kind none, 0)
      | .operator alone withEqual =>
        if rest.head? = some '=' then (.token withEqual none, 1) else (.token alone none, 0)
      | .point => readPoint rest
      | .slash => readSlash rest
      | .quote => readString rest
      | .digit => readNumber c rest
      | .word =>
        (.token (Kind.ofWord (c :: rest.take (run isWordPart rest))) none, run isWordPart rest)
      | .other => (.fault .unexpectedCharacter, 0) := by
  unfold readFrom classOf
  by_cases hblank : isBlank c
  · simp only [if_pos hblank]
  simp only [if_neg hblank]
  cases punctuation? c with
  | some kind => rfl
  | none =>
  cases operator? c with
  | some kinds => rfl
  | none =>
  dsimp only
  by_cases hpoint : c = '.'
  · simp only [if_pos hpoint]
  by_cases hslash : c = '/'
  · simp only [if_neg hpoint, if_pos hslash]
  by_cases hquote : c = '"'
  · simp only [if_neg hpoint, if_neg hslash, if_pos hquote]
  by_cases hdigit : c.isDigit
  · simp only [if_neg hpoint, if_neg hslash, if_neg hquote, if_pos hdigit]
  by_cases hword : isWordStart c
  · simp only [if_neg hpoint, if_neg hslash, if_neg hquote, if_neg hdigit, if_pos hword]
  · simp only [if_neg hpoint, if_neg hslash, if_neg hquote, if_neg hdigit, if_neg hword]

/-- A lexeme is the longest one if nothing longer can follow its first character. -/
theorem IsLexeme.isLongest {c : Char} {w text : List Char} (h : IsLexeme (c :: w)) (hw : w <+: text)
    (hle : ∀ w', (classOf c).Tail w' → w' <+: text → w'.length ≤ w.length) :
    IsLongest (c :: w) (c :: text) := by
  refine ⟨h, List.cons_prefix_cons.2 ⟨rfl, hw⟩, fun h' hprefix => ?_⟩
  obtain ⟨d, tail, rfl, htail⟩ := h'.exists_tail
  obtain ⟨rfl, htext⟩ := List.cons_prefix_cons.1 hprefix
  exact Nat.succ_le_succ (hle tail htail htext)

/-- A lexeme that begins with neither a slash nor a point is read if it is the longest one. -/
theorem Denotes.step {c : Char} {w : List Char} {kind : Kind} {literal : Option Literal}
    (h : Denotes (c :: w) kind literal) (rest : List Char) (hslash : classOf c ≠ .slash)
    (hpoint : classOf c ≠ .point)
    (hle : ∀ w', (classOf c).Tail w' → w' <+: w ++ rest → w'.length ≤ w.length) :
    Step (c :: w) rest (.token kind literal) := by
  refine .token ?_ ?_ (h.isLexeme.isLongest (List.prefix_append w rest) hle) h
  · intro hprefix
    obtain ⟨rfl, -⟩ := List.cons_prefix_cons.1 hprefix
    exact hslash rfl
  · intro hrepeats
    cases hrepeats
    exact hpoint rfl

/-- A reading and a number of characters behind the first one are what is read first from a text. -/
def Answers (c : Char) (text : List Char) (answer : Reading × Nat) : Prop :=
  Step (c :: text.take answer.2) (text.drop answer.2) answer.1

/-- A step over a span is an answer with the number of its characters behind the first. -/
theorem Step.answers {c : Char} {w rest : List Char} {reading : Reading}
    (h : Step (c :: w) rest reading) : Answers c (w ++ rest) (reading, w.length) := by
  rw [Answers, List.take_left, List.drop_left]
  exact h

/-- A point with a digit behind it. -/
theorem exists_of_beginsFraction {text : List Char} (h : beginsFraction text) :
    ∃ d rest, text = '.' :: d :: rest ∧ d.isDigit := by
  unfold beginsFraction at h
  split at h
  · next d rest => exact ⟨d, rest, rfl, h⟩
  · cases h

/-- What is read from a point is what is read first: the point, a fraction, or a repeated point. -/
theorem readPoint_answers (text : List Char) : Answers '.' text (readPoint text) := by
  obtain ⟨w, rest, rfl, hrun, hw, -⟩ := exists_run Char.isDigit text
  have hcomment (u : List Char) : ¬['/', '/'] <+: '.' :: u := by
    intro h
    cases (List.cons_prefix_cons.1 h).1
  have hle : ∀ w', (classOf '.').Tail w' → w' <+: w ++ rest → w'.length ≤ w.length := by
    intro w' htail hprefix
    exact hrun ▸ length_le_run hprefix htail
  rw [readPoint, hrun, List.take_left, List.drop_left]
  by_cases hnil : w = []
  · subst hnil
    have hdot : Denotes ['.'] .dot none := .symbol (by decide)
    have hlongest := hdot.isLexeme.isLongest (List.prefix_append [] rest) hle
    refine Step.answers (.token (hcomment rest) ?_ hlongest hdot)
    intro hrepeats
    cases hrepeats with
    | mk h _ => exact h.1 rfl
  · have hdigits : Digits w := ⟨hnil, hw⟩
    rw [if_neg (by simpa using hnil)]
    split
    · next hfraction =>
      obtain ⟨d, more, rfl, hd⟩ := exists_of_beginsFraction hfraction
      exact Step.answers (.repeatedPoint (.mk hdigits hd))
    · next hfraction =>
      have hnumber := Denotes.number (.fraction hdigits) (@decimal?_mixed [] w (List.forall_mem_nil _) hdigits)
      have hlongest := hnumber.isLexeme.isLongest (List.prefix_append w rest) hle
      refine Step.answers (.token (hcomment _) ?_ hlongest hnumber)
      intro hrepeats
      cases hrepeats with
      | mk _ hd => exact hfraction hd

/-- What is read from a slash is what is read first: the slash, or a comment. -/
theorem readSlash_answers (text : List Char) : Answers '/' text (readSlash text) := by
  unfold readSlash
  split
  · next rest =>
    obtain ⟨body, more, rfl, hrun, hbody, hmore⟩ := exists_run (· != '\n') rest
    rw [hrun, Nat.add_comm]
    refine Step.answers (w := '/' :: body) (.comment ?_ ?_)
    · intro hmem
      simpa using hbody _ hmem
    · intro c hc
      simpa using hmore c hc
  · next hslash =>
    have hw : Denotes ['/'] .slash none := .symbol (by decide)
    have hlongest := hw.isLexeme.isLongest (List.nil_prefix (l := text)) fun w' htail _ =>
      Nat.le_of_eq (congrArg List.length htail)
    refine Step.answers (w := []) (.token ?_ nofun hlongest hw)
    intro hprefix
    obtain ⟨-, rest, rfl⟩ := List.cons_prefix_cons.1 hprefix
    exact hslash rest rfl

/-- What is read from a quote is what is read first: a string, or the fault of one that is not closed. -/
theorem readString_answers (text : List Char) : Answers '"' text (readString text) := by
  obtain ⟨body, rest, rfl, hrun, hbody, hrest⟩ := exists_run (· != '"') text
  have hquote : '"' ∉ body := by
    intro hmem
    simpa using hbody _ hmem
  rw [readString, hrun, List.take_left]
  cases rest with
  | nil =>
    rw [if_neg (by simp)]
    exact Step.answers (.unclosed hquote)
  | cons c rest =>
    obtain rfl : c = '"' := by simpa using hrest c rfl
    rw [if_pos (by simp)]
    have hstep := (Denotes.string hquote).step rest (by rintro ⟨⟩) (by rintro ⟨⟩) ?_
    · have hclosed := hstep.answers
      rwa [List.append_assoc, List.length_append] at hclosed
    · rintro _ ⟨body', rfl, hquote'⟩ hprefix
      have hbody' : body' <+: body ++ '"' :: rest := by
        rw [List.append_assoc] at hprefix
        exact (List.prefix_append body' ['"']).trans hprefix
      have hle := length_le_run (p := (· != '"')) hbody' fun c hc => by
        simpa using fun heq : c = '"' => hquote' (heq ▸ hc)
      rw [hrun] at hle
      simpa using hle

/-- Digits without a fraction are read as the decimal that they write. -/
theorem numeral_nil (digits : List Char) :
    numeral digits [] =
      .token .number (some (.number (Decimal.toFloat ⟨Nat.ofDigitChars 10 digits 0, 0⟩))) := by
  rw [numeral, List.append_nil]
  rfl

/-- What is read from a digit is what is read first: the longest number. -/
theorem readNumber_answers {c : Char} (hc : c.isDigit) (text : List Char) :
    Answers c text (readNumber c text) := by
  obtain ⟨w, rest, rfl, hrun, hw, hrest⟩ := exists_run Char.isDigit text
  have hclass := classOf_of_isDigit hc
  have hslash : classOf c ≠ .slash := hclass ▸ nofun
  have hpoint : classOf c ≠ .point := hclass ▸ nofun
  have hdigits : Digits (c :: w) := ⟨nofun, List.forall_mem_cons.2 ⟨hc, hw⟩⟩
  rw [readNumber, hrun, List.take_left, List.drop_left]
  dsimp only
  split
  · next hfraction =>
    obtain ⟨d, more, rfl, hd⟩ := exists_of_beginsFraction hfraction
    obtain ⟨fraction, rest, hmore, hrun', hall, -⟩ := exists_run Char.isDigit (d :: more)
    have hne : Digits fraction := by
      refine ⟨?_, hall⟩
      rintro rfl
      rw [run, List.takeWhile_cons, if_pos hd] at hrun'
      cases hrun'
    rw [List.drop_succ_cons, List.drop_zero, hrun', hmore, List.take_left]
    have hnumber := Denotes.number (.mixed hdigits hne) (decimal?_mixed hdigits.2 hne)
    have hstep := hnumber.step (c := c) (w := w ++ '.' :: fraction) rest hslash hpoint ?_
    · have hanswers := hstep.answers
      rwa [List.append_assoc, List.cons_append, List.length_append, List.length_cons,
        Nat.add_comm fraction.length, ← Nat.add_assoc] at hanswers
    · intro w' htail hprefix
      rw [hclass] at htail
      rw [List.append_assoc, List.cons_append, ← hmore] at hprefix
      rcases htail with hall' | ⟨digits, fraction', rfl, hdigits', hfraction'⟩
      · have hle := length_le_run hprefix hall'
        rw [hrun] at hle
        rw [List.length_append]
        omega
      · obtain ⟨rfl, hrest'⟩ := eq_run_of_prefix hrun hdigits' rfl hprefix
        have hle := length_le_run (List.cons_prefix_cons.1 hrest').2 hfraction'.2
        rw [hrun'] at hle
        simpa using hle
  · next hfraction =>
    have hnumber := Denotes.number (.whole hdigits) (decimal?_whole hdigits)
    rw [numeral_nil]
    refine Step.answers (hnumber.step rest hslash hpoint ?_)
    intro w' htail hprefix
    rw [hclass] at htail
    rcases htail with hall | ⟨digits, fraction, rfl, hdigits', hfraction'⟩
    · exact hrun ▸ length_le_run hprefix hall
    · -- A point with digits behind it would begin a fraction.
      obtain ⟨-, hrest'⟩ := eq_run_of_prefix hrun hdigits' rfl hprefix
      obtain ⟨d, ds, rfl, hd, -⟩ := hfraction'.exists_cons
      obtain ⟨more, rfl⟩ := hrest'
      exact absurd hd hfraction

/-- What is read from the beginning of a word is what is read first: the longest word. -/
theorem readWord_answers {c : Char} (hc : isWordStart c) (text : List Char) :
    Answers c text
      (.token (Kind.ofWord (c :: text.take (run isWordPart text))) none, run isWordPart text) := by
  obtain ⟨w, rest, rfl, hrun, hw, -⟩ := exists_run isWordPart text
  have hclass := classOf_of_isWordStart hc
  rw [hrun, List.take_left]
  refine Step.answers ((IsWord.mk hc hw).denotes.step rest (hclass ▸ nofun) (hclass ▸ nofun) ?_)
  intro w' htail hprefix
  rw [hclass] at htail
  exact hrun ▸ length_le_run hprefix htail

/-- An operator is read with an equal sign if one follows, and alone if none does. -/
theorem operator_answers {c : Char} {alone withEqual : Kind} (hclass : classOf c = .operator alone withEqual)
    (halone : ([c], alone) ∈ symbols) (hequal : ([c, '='], withEqual) ∈ symbols) (text : List Char) :
    Answers c text
      (if text.head? = some '=' then (.token withEqual none, 1) else (.token alone none, 0)) := by
  have hslash : classOf c ≠ .slash := hclass ▸ nofun
  have hpoint : classOf c ≠ .point := hclass ▸ nofun
  split
  · next hhead =>
    obtain ⟨rest, rfl⟩ := List.head?_eq_some_iff.1 hhead
    refine Step.answers (w := ['=']) ((Denotes.symbol hequal).step rest hslash hpoint ?_)
    intro w' htail _
    rw [hclass] at htail
    rcases htail with rfl | rfl <;> simp
  · next hhead =>
    refine Step.answers (w := []) ((Denotes.symbol halone).step text hslash hpoint ?_)
    intro w' htail hprefix
    rw [hclass] at htail
    rcases htail with rfl | rfl
    · exact Nat.le_refl 0
    · -- The text would begin with the equal sign.
      obtain ⟨rest, rfl⟩ := hprefix
      exact absurd rfl hhead

/-- What is read first from a text is a step. -/
theorem readFrom_answers (c : Char) (text : List Char) : Answers c text (readFrom c text) := by
  have hhas := classOf_has c
  rw [readFrom_eq]
  cases hclass : classOf c with
  | blank =>
    rw [hclass] at hhas
    exact Step.answers (w := []) (.blank hhas)
  | punctuation kind =>
    rw [hclass] at hhas
    refine Step.answers (w := []) ((Denotes.symbol hhas).step text (hclass ▸ nofun) (hclass ▸ nofun) ?_)
    intro w' htail _
    rw [hclass] at htail
    exact Nat.le_of_eq (congrArg List.length htail)
  | operator alone withEqual =>
    rw [hclass] at hhas
    exact operator_answers hclass hhas.1 hhas.2 text
  | point =>
    rw [hclass] at hhas
    cases hhas
    exact readPoint_answers text
  | slash =>
    rw [hclass] at hhas
    cases hhas
    exact readSlash_answers text
  | quote =>
    rw [hclass] at hhas
    cases hhas
    exact readString_answers text
  | digit =>
    rw [hclass] at hhas
    exact readNumber_answers hhas text
  | word =>
    rw [hclass] at hhas
    exact readWord_answers hhas text
  | other =>
    refine Step.answers (w := []) (.unexpected ?_ ?_)
    · intro hmem
      rw [classOf_of_mem_blanks hmem] at hclass
      cases hclass
    · intro w h
      obtain ⟨_, _, heq, htail⟩ := h.exists_tail
      cases heq
      rw [hclass] at htail
      exact htail

/-! ## Only one piece can be read first -/

/-- A blank is read alone. -/
theorem readFrom_blank {c : Char} (h : c ∈ blanks) (rest : List Char) :
    readFrom c rest = (.blank, 0) := by
  rw [readFrom_eq, classOf_of_mem_blanks h]

/-- A comment is read up to the end of its line. -/
theorem readFrom_comment {body rest : List Char} (h : '\n' ∉ body)
    (hrest : ∀ c ∈ rest.head?, c = '\n') :
    readFrom '/' ('/' :: body ++ rest) = (.blank, body.length + 1) := by
  have hrun : run (· != '\n') (body ++ rest) = body.length := by
    refine run_eq_length (fun c hc => ?_) fun c hc => ?_
    · simpa using fun heq : c = '\n' => h (heq ▸ hc)
    · simpa using hrest c hc
  show readSlash ('/' :: (body ++ rest)) = _
  rw [readSlash, hrun, Nat.add_comm]

/-- A string that is not closed is read up to the end. -/
theorem readFrom_unclosed {body : List Char} (h : '"' ∉ body) :
    readFrom '"' body = (.fault .unterminatedString, body.length) := by
  have hrun : run (· != '"') body = body.length := by
    have hall : ∀ c ∈ body, (c != '"') = true := by
      intro c hc
      simpa using fun heq : c = '"' => h (heq ▸ hc)
    have hrun := @run_eq_length (· != '"') body [] hall nofun
    rwa [List.append_nil] at hrun
  show readString body = _
  rw [readString, hrun, if_neg (Nat.lt_irrefl _)]

/-- A fraction with a second one behind it is read as a fault, up to the second point. -/
theorem readFrom_repeatedPoint {digits : List Char} {d : Char} (rest : List Char) (h : Digits digits)
    (hd : d.isDigit) :
    readFrom '.' (digits ++ '.' :: d :: rest) = (.fault .multipleDots, digits.length) := by
  have hrun : run Char.isDigit (digits ++ '.' :: d :: rest) = digits.length :=
    run_eq_length h.2 (by rintro _ ⟨⟩; rfl)
  have hfraction : beginsFraction ('.' :: d :: rest) := hd
  show readPoint (digits ++ '.' :: d :: rest) = _
  rw [readPoint, hrun, List.drop_left, if_neg (by simpa using h.1), if_pos hfraction]

/-- A character that starts no token is read as unexpected. -/
theorem readFrom_unexpected {c : Char} (hblank : c ∉ blanks) (h : ∀ w, ¬IsLexeme (c :: w))
    (text : List Char) : readFrom c text = (.fault .unexpectedCharacter, 0) := by
  have hclass : classOf c = .other := by
    have hhas := classOf_has c
    generalize classOf c = k at hhas ⊢
    cases k with
    | blank => exact absurd hhas hblank
    | punctuation kind => exact absurd (.symbol hhas) (h [])
    | operator alone withEqual => exact absurd (.symbol hhas.1) (h [])
    | point => cases hhas; exact absurd (@IsLexeme.symbol ['.'] .dot (by decide)) (h [])
    | slash => cases hhas; exact absurd (@IsLexeme.symbol ['/'] .slash (by decide)) (h [])
    | quote => cases hhas; exact absurd (@IsLexeme.string [] nofun) (h ['"'])
    | digit => exact absurd (.number (.whole ⟨nofun, List.forall_mem_singleton.2 hhas⟩)) (h [])
    | word => exact absurd (.word (.mk hhas nofun)) (h [])
    | other => rfl
  rw [readFrom_eq, hclass]

/-- Two longest lexemes of a text are equally long. -/
theorem IsLongest.length_eq {w w' text : List Char} (h : IsLongest w text) (h' : IsLongest w' text) :
    w.length = w'.length :=
  Nat.le_antisymm (h'.length_le h.isLexeme h.isPrefix) (h.length_le h'.isLexeme h'.isPrefix)

/-- The longest lexeme is read. -/
theorem readFrom_token {c : Char} {w rest : List Char} {kind : Kind} {literal : Option Literal}
    (hcomment : ¬['/', '/'] <+: c :: (w ++ rest)) (hpoint : ¬RepeatsPoint (c :: w) rest)
    (h : IsLongest (c :: w) (c :: (w ++ rest))) (hw : Denotes (c :: w) kind literal) :
    readFrom c (w ++ rest) = (.token kind literal, w.length) := by
  obtain ⟨d, tail, heq, htail⟩ := h.isLexeme.exists_tail
  cases heq
  obtain ⟨u, rest', htext, hlength⟩ : ∃ u rest', w ++ rest = u ++ rest' ∧
      u.length = (readFrom c (w ++ rest)).2 :=
    ⟨_, _, (List.take_append_drop _ _).symm, List.length_take_of_le (readFrom_le c (w ++ rest))⟩
  have hstep := readFrom_answers c (w ++ rest)
  rw [Answers, ← hlength, htext, List.take_left, List.drop_left, ← htext] at hstep
  suffices hread : (readFrom c (w ++ rest)).1 = .token kind literal ∧ u.length = w.length from
    Prod.ext hread.1 (hlength.symm.trans hread.2)
  generalize (readFrom c (w ++ rest)).1 = reading at hstep
  rw [htext] at h hcomment
  clear hlength
  cases hstep with
  | blank hblank =>
    rw [classOf_of_mem_blanks hblank] at htail
    exact htail.elim
  | comment _ _ => exact absurd (by simp) hcomment
  | token _ _ h' hu =>
    have hlength := h.length_eq h'
    obtain ⟨rfl, rfl⟩ := List.append_inj htext (Nat.succ.inj hlength)
    have hdenoted := hw.eq_denoted.symm.trans hu.eq_denoted
    cases hdenoted
    exact ⟨rfl, rfl⟩
  | unclosed hquote =>
    -- The lexeme is a closed string, so its second quote is in the text.
    obtain ⟨body, rfl, -⟩ := htail
    rw [List.append_nil] at htext
    exact absurd (by rw [← htext]; simp) hquote
  | repeatedPoint hrepeats =>
    cases hrepeats with
    | @mk _ d more hdigits hd =>
    -- The lexeme is the whole fraction: no shorter one is the longest, and all of it are digits.
    have hle := h.length_le (.number (.fraction hdigits)) (List.prefix_append _ _)
    have hrun : run Char.isDigit (u ++ '.' :: d :: more) = u.length :=
      run_eq_length hdigits.2 (by rintro _ ⟨⟩; rfl)
    have hge := length_le_run (List.cons_prefix_cons.1 h.isPrefix).2 htail
    rw [hrun] at hge
    obtain ⟨rfl, rfl⟩ := List.append_inj htext (Nat.le_antisymm hge (Nat.le_of_succ_le_succ hle))
    exact absurd (.mk hdigits hd) hpoint
  | unexpected _ hnone => exact absurd hw.isLexeme (hnone w)

/-- What is read first has a first character. -/
theorem Step.exists_cons {span rest : List Char} {reading : Reading} (h : Step span rest reading) :
    ∃ c w, span = c :: w := by
  cases h with
  | blank | comment | unclosed | unexpected => exact ⟨_, _, rfl⟩
  | token _ _ h _ =>
    obtain ⟨c, w, rfl, -⟩ := h.isLexeme.exists_tail
    exact ⟨c, w, rfl⟩
  | repeatedPoint h => cases h; exact ⟨_, _, rfl⟩

/-- Only what is read first from a text is a step. -/
theorem Step.readFrom_eq {c : Char} {w rest : List Char} {reading : Reading}
    (h : Step (c :: w) rest reading) : readFrom c (w ++ rest) = (reading, w.length) := by
  cases h with
  | blank h => exact readFrom_blank h rest
  | comment h hrest => exact readFrom_comment h hrest
  | token hcomment hpoint h hw => exact readFrom_token hcomment hpoint h hw
  | unclosed h => rw [List.append_nil]; exact readFrom_unclosed h
  | repeatedPoint h =>
    cases h with
    | mk h hd => exact readFrom_repeatedPoint _ h hd
  | unexpected hblank h => exact readFrom_unexpected hblank h rest

/-- The first piece of a text is the step from it. -/
theorem Step.pieces_eq {span rest : List Char} {reading : Reading} (h : Step span rest reading) :
    pieces (span ++ rest) = ⟨span, reading⟩ :: pieces rest := by
  obtain ⟨c, w, rfl⟩ := h.exists_cons
  rw [List.cons_append, pieces_cons, h.readFrom_eq, List.take_left, List.drop_left]

/-! ## All items -/

/-- What is scanned from a text are the items of its pieces. -/
theorem Scans.eq_ofPieces {line : Nat} {text : List Char} {items : List Item}
    (h : Scans line text items) : items = Item.ofPieces line (pieces text) := by
  induction h with
  | done line => rfl
  | blank h _ ih => rw [h.pieces_eq, Item.ofPieces]; exact ih
  | token h _ ih | fault h _ ih => rw [h.pieces_eq, Item.ofPieces, ih]; rfl

/-- A step and the items of the rest are the items of the text. -/
theorem Step.scans {span rest : List Char} {reading : Reading} (h : Step span rest reading)
    (line : Nat)
    (hrest : Scans (line + span.count '\n') rest
      (Item.ofPieces (line + span.count '\n') (pieces rest))) :
    Scans line (span ++ rest) (Item.ofPieces line (pieces (span ++ rest))) := by
  rw [h.pieces_eq, Item.ofPieces]
  cases reading with
  | blank => exact .blank h hrest
  | token kind literal => exact .token h hrest
  | fault cause => exact .fault h hrest

/-- The items of the pieces of a text are scanned from it. -/
theorem scans_ofPieces (line : Nat) (text : List Char) :
    Scans line text (Item.ofPieces line (pieces text)) := by
  -- A step takes at least one character off the text, so the induction is on its length.
  induction hn : text.length using Nat.strongRecOn generalizing line text with
  | ind n ih =>
    cases text with
    | nil => exact .done line
    | cons c text =>
      have hstep : Step _ _ _ := readFrom_answers c text
      have hshorter : (text.drop (readFrom c text).2).length < n := by
        rw [List.length_drop, ← hn, List.length_cons]
        omega
      have hscans := hstep.scans line (ih _ hshorter _ _ rfl)
      rwa [List.cons_append, List.take_append_drop] at hscans

/-- Scanning is the reading of the lexical grammar by longest match: a source has exactly one list of
items by the grammar, the one that it is read as. Its faults are those of the grammar as well, an open
quote, a repeated fraction point and a character that starts no token. -/
theorem scans_iff_eq_items (source : String) (items : List Item) :
    Scans 1 source.toList items ↔ items = Source.items source := by
  constructor
  · exact Scans.eq_ofPieces
  · rintro rfl
    exact scans_ofPieces 1 source.toList

/-- Reading goes on at the second point, and the last fraction has no other behind it. -/
example : (Source.items ".5.6.7").length = 4 ∧
    (Source.faults ".5.6.7").map (·.cause) = [.multipleDots, .multipleDots] := by
  decide +kernel

end LoxLang.Lexical
