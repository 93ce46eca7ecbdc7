import LoxLang.Proofs.Token.Scanner

/-!
# The lexeme at a place

Offsets that lie between characters are known from the text behind them (`Stands`): there, a slice is a text
and the bytes ahead are those of the text. The tests of the scanner look at bytes, but none of them tells the
characters outside of ASCII apart, nor the bytes of such a character (`OfAscii`), so a run of bytes is a run of
whole characters (`skipWhile_run`, `skipString_run`, `skipComment_run`).

From a place in front of a character, the scanner goes over the piece that `readFrom` reads there, and no
misstep happens (`scanToken_eq`).
-/

namespace LoxLang

namespace Scanner

open Lexical Piece

/-! ## Bytes of characters -/

/-- The bytes of a text begin with those of its first character. -/
theorem bytes_cons (c : Char) (text : List Char) :
    bytes (c :: text) = String.utf8EncodeChar c ++ bytes text :=
  List.flatMap_cons

/-- The bytes of two texts in a row are those of each. -/
theorem bytes_append (text more : List Char) : bytes (text ++ more) = bytes text ++ bytes more :=
  List.flatMap_append

/-- A text has the bytes of its first character and those of the rest. -/
theorem size_cons (c : Char) (text : List Char) : size (c :: text) = c.utf8Size + size text := by
  rw [size, bytes_cons, List.length_append, String.length_utf8EncodeChar]
  rfl

/-- Two texts in a row have the bytes of both. -/
theorem size_append (text more : List Char) : size (text ++ more) = size text + size more := by
  rw [size, bytes_append, List.length_append]
  rfl

/-- A character has a first byte. -/
theorem exists_first (c : Char) (text : List Char) :
    ∃ b v, bytes (c :: text) = b :: v ∧ b ∈ String.utf8EncodeChar c := by
  obtain ⟨b, v, hc⟩ := List.exists_cons_of_length_pos (l := String.utf8EncodeChar c) <| by
    rw [String.length_utf8EncodeChar]
    exact c.utf8Size_pos
  refine ⟨b, v ++ bytes text, ?_, ?_⟩
  · rw [bytes_cons, hc, List.cons_append]
  · rw [hc]
    exact List.mem_cons_self

/-- A text is known from its bytes. -/
theorem bytes_injective : Function.Injective bytes := by
  intro text more h
  have hstring : String.ofList text = String.ofList more := by
    rw [← String.toByteArray_inj, String.toByteArray_ofList, String.toByteArray_ofList]
    exact congrArg List.toByteArray h
  exact String.ofList_injective hstring

/-- There is no character without bytes. -/
theorem length_le_size (text : List Char) : text.length ≤ size text := by
  induction text with
  | nil => exact Nat.le_refl 0
  | cons c text ih =>
    have hpos := c.utf8Size_pos
    rw [size_cons, List.length_cons]
    omega

/-- A text with characters has bytes. -/
theorem size_pos {w : List Char} (hw : w ≠ []) : 0 < size w :=
  Nat.lt_of_lt_of_le (List.length_pos_iff.2 hw) (length_le_size w)

/-- The size of a text is the number of bytes of its string. -/
theorem utf8ByteSize_ofList (w : List Char) : (String.ofList w).utf8ByteSize = size w := by
  rw [← String.size_toByteArray, String.toByteArray_ofList]
  exact List.size_toByteArray

/-- The character that a byte stands for has the number of the byte. -/
theorem toNat_ascii (b : UInt8) : (ascii b).toNat = b.toNat :=
  UInt8.toNat_toUInt32 b

/-- Bytes that stand for one character are the same. -/
theorem ascii_injective : Function.Injective ascii := by
  intro b d h
  rw [← UInt8.toNat_inj, ← toNat_ascii, h, toNat_ascii]

/-- A character of ASCII has one byte. -/
theorem size_singleton {c : Char} (hc : c.toNat ≤ 127) : size [c] = 1 := by
  rw [size_cons, Char.utf8Size_eq_one_iff.2 (UInt32.le_iff_toNat_le.2 hc)]
  rfl

/-- The bytes of a character are the character itself, or stand for no character of ASCII as it does. -/
theorem eq_ascii_or_of_mem {c : Char} {b : UInt8} (hb : b ∈ String.utf8EncodeChar c) :
    c = ascii b ∨ 127 < c.toNat ∧ 127 < (ascii b).toNat := by
  rw [String.utf8EncodeChar, Char.toNat_val] at hb
  split at hb
  · next hascii =>
    left
    apply Char.toNat_inj.1
    rw [toNat_ascii, List.mem_singleton.1 hb, UInt8.toNat_ofNat', Nat.mod_eq_of_lt (by omega)]
  · right
    refine ⟨by omega, ?_⟩
    rw [toNat_ascii]
    split at hb
    · simp only [List.mem_cons, List.not_mem_nil, or_false] at hb
      rcases hb with rfl | rfl <;> rw [UInt8.toNat_ofNat'] <;> omega
    split at hb
    · simp only [List.mem_cons, List.not_mem_nil, or_false] at hb
      rcases hb with rfl | rfl | rfl <;> rw [UInt8.toNat_ofNat'] <;> omega
    · simp only [List.mem_cons, List.not_mem_nil, or_false] at hb
      rcases hb with rfl | rfl | rfl | rfl <;> rw [UInt8.toNat_ofNat'] <;> omega

/-- What does not tell the characters outside of ASCII apart. -/
def OfAscii {γ : Type} (f : Char → γ) : Prop :=
  ∀ c d : Char, 127 < c.toNat → 127 < d.toNat → f c = f d

/-- Such a function can be asked about the bytes of a character. -/
theorem OfAscii.apply_ascii {γ : Type} {f : Char → γ} (hf : OfAscii f) {c : Char} {b : UInt8}
    (hb : b ∈ String.utf8EncodeChar c) : f (ascii b) = f c := by
  rcases eq_ascii_or_of_mem hb with rfl | ⟨hc, hb⟩
  · rfl
  · exact hf _ _ hb hc

/-- A test that fails outside of ASCII, or what it asks about one character of ASCII. -/
theorem ofAscii_of_le {test : Char → Bool} (h : ∀ c, test c → c.toNat ≤ 127) : OfAscii test := by
  have hfalse : ∀ c : Char, 127 < c.toNat → test c = false := fun c hc =>
    Bool.eq_false_iff.2 fun htest => Nat.not_lt_of_le (h c htest) hc
  exact fun c d hc hd => (hfalse c hc).trans (hfalse d hd).symm

/-- Comparing with a character of ASCII tells no others apart. -/
theorem ofAscii_ne {d : Char} (hd : d.toNat ≤ 127) : OfAscii (· != d) := by
  have hne : ∀ c : Char, 127 < c.toNat → (c != d) = true := fun c hc =>
    bne_iff_ne.2 fun h => Nat.not_lt_of_le (h ▸ hd) hc
  exact fun c d hc hd => (hne c hc).trans (hne d hd).symm

/-- Digits are characters of ASCII. -/
theorem toNat_le_of_isDigit {c : Char} (h : c.isDigit) : c.toNat ≤ 127 := by
  change (48 ≤ c.val && c.val ≤ 57) = true at h
  rw [Bool.and_eq_true, decide_eq_true_eq, decide_eq_true_eq] at h
  exact Nat.le_trans (UInt32.le_iff_toNat_le.1 h.2) (by decide)

/-- Letters are characters of ASCII. -/
theorem toNat_le_of_isAlpha {c : Char} (h : c.isAlpha) : c.toNat ≤ 127 := by
  change (decide (65 ≤ c.val ∧ c.val ≤ 90) || (97 ≤ c.val && c.val ≤ 122)) = true at h
  rw [Bool.or_eq_true, Bool.and_eq_true, decide_eq_true_eq, decide_eq_true_eq, decide_eq_true_eq] at h
  rcases h with h | h <;> exact Nat.le_trans (UInt32.le_iff_toNat_le.1 h.2) (by decide)

/-- The characters of words are characters of ASCII. -/
theorem toNat_le_of_isWordPart {c : Char} (h : isWordPart c) : c.toNat ≤ 127 := by
  rw [isWordPart, Char.isAlphanum, Bool.or_eq_true, Bool.or_eq_true, beq_iff_eq] at h
  rcases h with (h | h) | rfl
  · exact toNat_le_of_isAlpha h
  · exact toNat_le_of_isDigit h
  · decide

/-- No lexeme and no blank begins outside of ASCII. -/
theorem classOf_eq_other {c : Char} (hc : 127 < c.toNat) : classOf c = .other := by
  have hblanks : ∀ c ∈ blanks, c.toNat ≤ 127 := by simp [blanks]
  have hsymbols : ∀ p ∈ symbols, ∀ c ∈ p.1, c.toNat ≤ 127 := by simp [symbols]
  have hhas := classOf_has c
  cases h : classOf c <;> rw [h] at hhas
  all_goals refine absurd hc (Nat.not_lt_of_le ?_)
  case blank => exact hblanks c hhas
  case punctuation kind => exact hsymbols _ hhas c List.mem_cons_self
  case operator alone withEqual => exact hsymbols _ hhas.1 c List.mem_cons_self
  case digit => exact toNat_le_of_isDigit hhas
  case word =>
    rw [CharClass.Has, isWordStart, Bool.or_eq_true, beq_iff_eq] at hhas
    rcases hhas with hhas | rfl
    · exact toNat_le_of_isAlpha hhas
    · decide
  all_goals
    obtain rfl := hhas
    decide

/-- The characters outside of ASCII are all of one class. -/
theorem ofAscii_classOf : OfAscii classOf :=
  fun _ _ hc hd => (classOf_eq_other hc).trans (classOf_eq_other hd).symm

/-! ## Offsets between characters -/

/-- At the offset, which lies between two characters, `rest` is what follows. -/
def Stands (text : List Char) (offset : Nat) (rest : List Char) : Prop :=
  ∃ before, text = before ++ rest ∧ size before = offset

section
variable {text rest w : List Char} {offset : Nat}

/-- Before the first byte, the whole text is what follows. -/
theorem stands_origin (text : List Char) : Stands text 0 text :=
  ⟨[], rfl, rfl⟩

/-- The bytes of a text are those before an offset and those behind. -/
theorem Stands.size_eq (h : Stands text offset rest) : size text = offset + size rest := by
  obtain ⟨before, rfl, rfl⟩ := h
  exact size_append before rest

/-- An offset moves over a text that stands at it. -/
theorem Stands.move (h : Stands text offset (w ++ rest)) : Stands text (offset + size w) rest := by
  obtain ⟨before, rfl, rfl⟩ := h
  exact ⟨before ++ w, (List.append_assoc _ _ _).symm, size_append before w⟩

/-- What follows can be cut behind any of its characters. -/
theorem Stands.cut {c : Char} (h : Stands text offset (c :: rest)) (n : Nat) :
    Stands text offset ((c :: rest.take n) ++ rest.drop n) := by
  rw [List.cons_append, List.take_append_drop]
  exact h

/-- The bytes behind the offset are those of what follows. -/
theorem Stands.drop_bytes (h : Stands text offset rest) : (bytes text).drop offset = bytes rest := by
  obtain ⟨before, rfl, rfl⟩ := h
  rw [bytes_append]
  exact List.drop_left

/-- Dropping the bytes of a text leaves what follows it. -/
theorem dropBytes_append (before rest : List Char) : dropBytes (size before) (before ++ rest) = .ok rest := by
  induction before with
  | nil => cases rest <;> rfl
  | cons c before ih =>
    have hpos := c.utf8Size_pos
    obtain ⟨n, hn⟩ : ∃ n, size (c :: before) = n + 1 :=
      ⟨size (c :: before) - 1, by rw [size_cons]; omega⟩
    have hle : c.utf8Size ≤ n + 1 := by rw [← hn, size_cons]; omega
    rw [hn, List.cons_append, dropBytes, if_pos hle, ← hn, size_cons, Nat.add_sub_cancel_left, ih]

/-- Taking the bytes of a text gives the text. -/
theorem takeBytes_append (w rest : List Char) : takeBytes (size w) (w ++ rest) = .ok w := by
  induction w with
  | nil => cases rest <;> rfl
  | cons c w ih =>
    have hpos := c.utf8Size_pos
    obtain ⟨n, hn⟩ : ∃ n, size (c :: w) = n + 1 := ⟨size (c :: w) - 1, by rw [size_cons]; omega⟩
    have hle : c.utf8Size ≤ n + 1 := by rw [← hn, size_cons]; omega
    rw [hn, List.cons_append, takeBytes, if_pos hle, ← hn, size_cons, Nat.add_sub_cancel_left, ih]
    rfl

/-- At an offset between characters, the bytes before can be dropped. -/
theorem Stands.dropBytes_eq (h : Stands text offset rest) : dropBytes offset text = .ok rest := by
  obtain ⟨before, rfl, rfl⟩ := h
  exact dropBytes_append before rest

/-- Between two offsets that lie between characters, there is a text. -/
theorem Stands.slice_eq (h : Stands text offset (w ++ rest)) :
    slice text offset (offset + size w) = .ok w := by
  rw [slice, if_pos (Nat.le_add_right _ _), Nat.add_sub_cancel_left, h.dropBytes_eq]
  exact takeBytes_append w rest

/-- The bytes between two offsets are those of the text between them. -/
theorem Stands.byteSlice_eq (h : Stands text offset (w ++ rest)) :
    byteSlice text offset (offset + size w) = .ok (bytes w) := by
  have hsize := h.size_eq
  rw [size_append] at hsize
  have hdrop := h.drop_bytes
  rw [byteSlice, if_pos ⟨Nat.le_add_right _ _, by omega⟩, List.drop_take, Nat.add_sub_cancel_left, hdrop,
    bytes_append]
  exact congrArg Except.ok List.take_left

end

/-! ## Single bytes -/

section
variable {text : List Char} {s : Place} {u v : List UInt8} {b : UInt8} {bound : Nat}

/-- What was answered is what the rest goes on with. -/
theorem ok_bind {ε α β : Type} (a : α) (f : α → Except ε β) : (Except.ok a >>= f) = f a :=
  rfl

/-- The byte at an offset is the first one behind it. -/
theorem byteAt_of_drop {offset : Nat} (h : (bytes text).drop offset = b :: v) :
    byteAt text offset = .ok b := by
  have hget : (bytes text)[offset]? = some b := by
    rw [← List.head?_drop, h]
    rfl
  rw [byteAt, hget]

/-- An offset is at the end if no byte is behind it. -/
theorem size_le_iff {offset : Nat} : size text ≤ offset ↔ (bytes text).drop offset = [] :=
  List.drop_eq_nil_iff.symm

/-- An offset with a byte behind it is not at the end. -/
theorem not_size_le {offset : Nat} (h : (bytes text).drop offset = b :: v) : ¬size text ≤ offset := by
  rw [size_le_iff, h]
  exact List.cons_ne_nil b v

/-- Peeking gives the first byte behind the place, and zero at the end. -/
theorem peek_of_drop (h : (bytes text).drop s.curr = v) : peek text s = .ok (v.headD 0) := by
  cases v with
  | nil => rw [peek, if_pos (size_le_iff.2 h)]; rfl
  | cons b v =>
    rw [peek, if_neg (not_size_le h)]
    exact byteAt_of_drop h

/-- Peeking further gives the second byte behind the place, and zero where there is none. -/
theorem peekNext_of_drop (h : (bytes text).drop s.curr = v) : peekNext text s = .ok (v.tail.headD 0) := by
  have htail : (bytes text).drop (s.curr + 1) = v.tail := by rw [← List.tail_drop, h]
  rw [peekNext]
  cases hv : v.tail with
  | nil => rw [if_pos (size_le_iff.2 (htail.trans hv))]; rfl
  | cons b v =>
    rw [if_neg (not_size_le (htail.trans hv))]
    exact byteAt_of_drop (htail.trans hv)

/-- Advancing gives the first byte behind the place and moves over it. -/
theorem advance_of_drop (h : (bytes text).drop s.curr = b :: v) :
    advance text s = .ok (b, { s with curr := s.curr + 1 }) := by
  rw [advance, byteAt_of_drop h]
  rfl

/-- Behind the next byte are the others. -/
theorem drop_succ (h : (bytes text).drop s.curr = b :: v) : (bytes text).drop (s.curr + 1) = v := by
  rw [← List.tail_drop, h]
  rfl

/-- A byte is matched if it is the first one behind the place. -/
theorem matchByte_of_drop (expected : UInt8) (h : (bytes text).drop s.curr = v) :
    matchByte text expected s =
      .ok (if v.head? = some expected then (true, { s with curr := s.curr + 1 }) else (false, s)) := by
  cases v with
  | nil => rw [matchByte, if_pos (size_le_iff.2 h)]; rfl
  | cons b v =>
    rw [matchByte, if_neg (not_size_le h), peek_of_drop h, ok_bind, advance_of_drop h]
    by_cases hb : b = expected
    · simp [hb, ok_bind, pure, Except.pure]
    · simp [hb, pure, Except.pure]

/-- A run of bytes that satisfy a test is gone over, up to the first that does not. -/
theorem skipWhile_of_drop {test : UInt8 → Bool} (h : (bytes text).drop s.curr = u ++ v)
    (hu : ∀ b ∈ u, test b) (hv : ¬test (v.headD 0)) (hbound : u.length < bound) :
    skipWhile text test bound s = .ok { s with curr := s.curr + u.length } := by
  induction bound generalizing s u with
  | zero => cases hbound
  | succ bound ih =>
    cases u with
    | nil =>
      rw [skipWhile, peek_of_drop h, ok_bind, List.nil_append, if_neg hv]
      rfl
    | cons b u =>
      obtain ⟨hb, hu⟩ := List.forall_mem_cons.1 hu
      have hrest := ih (s := { s with curr := s.curr + 1 }) (drop_succ h) hu (Nat.lt_of_succ_lt_succ hbound)
      rw [skipWhile, peek_of_drop h, ok_bind, List.cons_append, List.headD_cons, if_pos hb,
        advance_of_drop h, ok_bind]
      refine hrest.trans ?_
      simp only [List.length_cons, Nat.add_assoc, Nat.add_comm 1]

end

/-! ## Runs of characters -/

section
variable {text rest w : List Char} {s : Place} {bound : Nat}

/-- What a function that looks at ASCII only says about the first byte is what it says about the first
character. -/
theorem OfAscii.apply_headD {γ : Type} {f : Char → γ} (hf : OfAscii f) (rest : List Char) :
    f (ascii ((bytes rest).headD 0)) = f (rest.headD (ascii 0)) := by
  cases rest with
  | nil => rfl
  | cons c rest =>
    obtain ⟨b, v, hbytes, hb⟩ := exists_first c rest
    rw [hbytes]
    exact hf.apply_ascii hb

/-- Each byte of characters that satisfy such a test satisfies it. -/
theorem OfAscii.forall_bytes {p : Char → Bool} (hp : OfAscii p) (hw : ∀ c ∈ w, p c) :
    ∀ b ∈ bytes w, p (ascii b) := by
  intro b hb
  obtain ⟨c, hc, hb⟩ := List.mem_flatMap.1 hb
  rw [hp.apply_ascii hb]
  exact hw c hc

/-- The place behind a text that stands at it. -/
def past (s : Place) (w : List Char) : Place :=
  { s with curr := s.curr + size w, line := s.line + w.count '\n' }

/-- A place moves over two texts in a row as over both together. -/
theorem past_append (s : Place) (u w : List Char) : past (past s u) w = past s (u ++ w) := by
  simp only [past, size_append, List.count_append, Nat.add_assoc]

/-- Behind a text without newlines, the line is the same. -/
theorem past_eq {p : Char → Bool} (s : Place) (hw : ∀ c ∈ w, p c) (hp : p '\n' = false) :
    past s w = { s with curr := s.curr + size w } := by
  have hcount : w.count '\n' = 0 := by
    refine List.count_eq_zero.2 fun hmem => ?_
    rw [hw _ hmem] at hp
    cases hp
  rw [past, hcount, Nat.add_zero]

/-- Behind a text that stands at a place, what follows the text stands. -/
theorem Stands.past (h : Stands text s.curr (w ++ rest)) : Stands text (past s w).curr rest :=
  h.move

/-- A run of characters is gone over byte by byte. -/
theorem skipWhile_run {p : Char → Bool} (hp : OfAscii p) (hzero : p (ascii 0) = false)
    (hnewline : p '\n' = false) (h : Stands text s.curr (w ++ rest)) (hw : ∀ c ∈ w, p c)
    (hrest : ∀ c ∈ rest.head?, p c = false) (hbound : size text < bound) :
    skipWhile text (fun b => p (ascii b)) bound s = .ok (past s w) := by
  have hdrop := h.drop_bytes
  have hsize := h.size_eq
  rw [bytes_append] at hdrop
  rw [size_append] at hsize
  rw [past_eq s hw hnewline]
  refine skipWhile_of_drop hdrop (hp.forall_bytes hw) ?_ (show size w < bound by omega)
  rw [hp.apply_headD, Bool.not_eq_true]
  cases rest with
  | nil => exact hzero
  | cons c rest => exact hrest c rfl

/-- The newlines of a text are those among its bytes. -/
theorem countP_bytes (w : List Char) : (bytes w).countP (ascii · = '\n') = w.count '\n' := by
  induction w with
  | nil => rfl
  | cons c w ih =>
    rw [bytes_cons, List.countP_append, ih, List.count_cons, Nat.add_comm]
    congr 1
    by_cases hc : c = '\n'
    · subst hc
      decide
    · rw [if_neg (by simpa using hc), List.countP_eq_zero]
      intro b hb
      have hascii := (ofAscii_ne (d := '\n') (by decide)).apply_ascii hb
      rw [bne_iff_ne.2 hc, bne_iff_ne] at hascii
      simpa using hascii

/-- A string is skipped up to the first quote or to the end, and the newlines in it are counted. -/
theorem skipString_of_drop {u v : List UInt8} (h : (bytes text).drop s.curr = u ++ v)
    (hu : ∀ b ∈ u, ascii b ≠ '"') (hv : ∀ b ∈ v.head?, ascii b = '"') (hbound : u.length < bound) :
    skipString text bound s =
      .ok { s with curr := s.curr + u.length, line := s.line + u.countP (ascii · = '\n') } := by
  induction bound generalizing s u with
  | zero => cases hbound
  | succ bound ih =>
    cases u with
    | nil =>
      cases v with
      | nil => rw [skipString, if_pos (size_le_iff.2 h)]; rfl
      | cons b v =>
        rw [skipString, if_neg (not_size_le h), peek_of_drop h, ok_bind]
        exact if_pos (hv b rfl)
    | cons b u =>
      obtain ⟨hb, hu⟩ := List.forall_mem_cons.1 hu
      have hshort : u.length < bound := Nat.lt_of_succ_lt_succ hbound
      rw [skipString, if_neg (not_size_le h), peek_of_drop h, ok_bind, List.cons_append,
        List.headD_cons, if_neg hb, advance_of_drop h, ok_bind]
      by_cases hline : ascii b = '\n'
      · have hrest := ih (s := { s with curr := s.curr + 1, line := s.line + 1 }) (drop_succ h) hu hshort
        simp only [hline, if_true]
        refine hrest.trans ?_
        simp [hline, Nat.add_assoc, Nat.add_comm 1]
      · have hrest := ih (s := { s with curr := s.curr + 1 }) (drop_succ h) hu hshort
        simp only [hline, if_false]
        refine hrest.trans ?_
        simp [hline, Nat.add_assoc, Nat.add_comm 1]

/-- A string is gone over up to its quote, or up to the end. -/
theorem skipString_run (h : Stands text s.curr (w ++ rest)) (hw : ∀ c ∈ w, c != '"')
    (hrest : ∀ c ∈ rest.head?, c = '"') (hbound : size text < bound) :
    skipString text bound s = .ok (past s w) := by
  have hdrop := h.drop_bytes
  have hsize := h.size_eq
  rw [bytes_append] at hdrop
  rw [size_append] at hsize
  have hquote : OfAscii (· != '"') := ofAscii_ne (by decide)
  have hv : ∀ b ∈ (bytes rest).head?, ascii b = '"' := by
    cases rest with
    | nil => nofun
    | cons c rest =>
      obtain rfl := hrest c rfl
      rintro b ⟨⟩
      rfl
  rw [skipString_of_drop hdrop (fun b hb => bne_iff_ne.1 (hquote.forall_bytes hw b hb)) hv
    (show size w < bound by omega), countP_bytes]
  rfl

/-- Where no character is a newline, no byte is one. -/
theorem findIdx?_eq_none {w : List Char} (hw : ∀ c ∈ w, c != '\n') :
    (bytes w).findIdx? (ascii · = '\n') = none := by
  refine List.findIdx?_eq_none_iff.2 fun b hb => ?_
  simpa using (ofAscii_ne (d := '\n') (by decide)).forall_bytes hw b hb

/-- A comment goes up to the next newline, or up to the end. -/
theorem skipComment_run (h : Stands text s.curr (w ++ rest)) (hw : ∀ c ∈ w, c != '\n')
    (hrest : ∀ c ∈ rest.head?, c = '\n') : skipComment text s = .ok (past s w) := by
  have hsize := h.size_eq
  rw [size_append] at hsize
  rw [skipComment, if_pos (by omega), h.drop_bytes, bytes_append, List.findIdx?_append, findIdx?_eq_none hw,
    Option.none_or, past_eq s hw rfl]
  cases rest with
  | nil =>
    obtain hend : s.curr + size w = size text := hsize.symm
    rw [hend]
    rfl
  | cons c rest =>
    obtain rfl := hrest c rfl
    show Except.ok { s with curr := s.curr + (0 + size w) } = _
    rw [Nat.zero_add]

end

/-! ## The lexeme at a place -/

/-- What is left behind a text that was read. -/
def outcome : Reading → Place → Verdict × Place
  | .blank, s => (.ok (), s)
  | .token kind literal, s => emit kind literal s
  | .fault cause, s => refuse cause s

/-- A reading and a number of characters behind the place, as an outcome. -/
def settled (s : Place) (rest : List Char) (answer : Reading × Nat) : Except Misstep (Verdict × Place) :=
  .ok (outcome answer.1 (past s (rest.take answer.2)))

/-- The place is behind the first character of a lexeme. -/
structure Behind (text : List Char) (s : Place) (c : Char) (rest : List Char) : Prop where
  start : Stands text s.start (c :: rest)
  curr : s.curr = s.start + size [c]

section
variable {text rest w : List Char} {s : Place} {c : Char} {bound : Nat}

/-- Behind its first character, the rest of a lexeme stands at the place. -/
theorem Behind.stands (h : Behind text s c rest) : Stands text s.curr rest :=
  h.curr ▸ Stands.move (w := [c]) h.start

/-- Behind more of a lexeme, the place is as many bytes behind its beginning. -/
theorem Behind.curr_past (h : Behind text s c rest) (w : List Char) :
    (past s w).curr = s.start + size (c :: w) := by
  show s.curr + size w = _
  rw [h.curr, Nat.add_assoc, ← size_append, List.singleton_append]

/-- The slice from the beginning of a lexeme to the place is what was read of it. -/
theorem Behind.slice_eq (h : Behind text s c (w ++ rest)) :
    slice text (past s w).start (past s w).curr = .ok (c :: w) := by
  rw [h.curr_past]
  exact Stands.slice_eq (w := c :: w) h.start

/-- The bytes from the beginning of a lexeme to the place are those of what was read of it. -/
theorem Behind.byteSlice_eq (h : Behind text s c (w ++ rest)) :
    byteSlice text (past s w).start (past s w).curr = .ok (bytes (c :: w)) := by
  rw [h.curr_past]
  exact Stands.byteSlice_eq (w := c :: w) h.start

/-- Asking for a digit tells no characters outside of ASCII apart. -/
theorem ofAscii_isDigit : OfAscii Char.isDigit :=
  ofAscii_of_le fun _ => toNat_le_of_isDigit

/-- A point and a digit are seen two bytes ahead. -/
theorem fraction_iff (rest : List Char) :
    (ascii ((bytes rest).headD 0) = '.' ∧ (ascii ((bytes rest).tail.headD 0)).isDigit) ↔
      beginsFraction rest := by
  have hpoint := (ofAscii_ne (d := '.') (by decide)).apply_headD rest
  cases rest with
  | nil => decide
  | cons c rest =>
    by_cases hc : c = '.'
    · -- A point is one byte, so the byte behind it is the first of the next character.
      subst hc
      have hdigit := ofAscii_isDigit.apply_headD rest
      have hbytes : bytes ('.' :: rest) = 46 :: bytes rest := bytes_cons '.' rest
      rw [hbytes, List.tail_cons, hdigit]
      cases rest with
      | nil => decide
      | cons d rest => exact and_iff_right rfl
    · have hne : ascii ((bytes (c :: rest)).headD 0) ≠ '.' := by
        rw [← bne_iff_ne, hpoint]
        simpa using hc
      refine iff_of_false (fun hboth => hne hboth.1) ?_
      simp [beginsFraction, hc]

/-- A reading that ends behind a text is settled with the place behind that text. -/
theorem settled_append (s : Place) (w rest : List Char) (reading : Reading) :
    settled s (w ++ rest) (reading, w.length) = .ok (outcome reading (past s w)) := by
  rw [settled, List.take_left]

/-- A lexeme that writes a decimal is read as its number. -/
theorem emitNumber_eq {d : Decimal} (h : Behind text s c (w ++ rest)) (hd : decimal? (c :: w) = some d) :
    emitNumber text (past s w) =
      settled s (w ++ rest) (.token .number (some (.number d.toFloat)), w.length) := by
  rw [emitNumber, h.slice_eq, ok_bind, hd, settled_append]
  rfl

/-- A number, once its first digits were gone over. -/
theorem parseNumber_run (leadingDot : Bool) (h : Behind text s c (w ++ rest)) (hw : ∀ c ∈ w, c.isDigit)
    (hrest : ∀ c ∈ rest.head?, c.isDigit = false) (hbound : size text < bound) :
    parseNumber text bound leadingDot s =
      if beginsFraction rest ∧ leadingDot then .ok (outcome (.fault .multipleDots) (past s w))
      else if beginsFraction rest then do
        let (_, point) ← advance text (past s w)
        let last ← skipWhile text (fun b => (ascii b).isDigit) bound point
        emitNumber text last
      else emitNumber text (past s w) := by
  have hpast := h.stands.past.drop_bytes
  rw [parseNumber, skipWhile_run ofAscii_isDigit rfl rfl h.stands hw hrest hbound, ok_bind,
    peek_of_drop hpast, ok_bind, peekNext_of_drop hpast, ok_bind]
  simp only [fraction_iff]
  split
  · rfl
  split
  · rfl
  · rfl

/-- A number that begins with a digit. -/
theorem parseNumber_digit (h : Behind text s c rest) (hc : c.isDigit) (hbound : size text < bound) :
    parseNumber text bound false s = settled s rest (readNumber c rest) := by
  obtain ⟨w, rest, rfl, hrun, hw, hrest⟩ := exists_run Char.isDigit rest
  have hdigits : Digits (c :: w) := ⟨nofun, List.forall_mem_cons.2 ⟨hc, hw⟩⟩
  rw [parseNumber_run false h hw hrest hbound, if_neg (by simp), readNumber, hrun, List.take_left,
    List.drop_left]
  dsimp only
  split
  · next hfraction =>
    obtain ⟨d, more, rfl, hd⟩ := exists_of_beginsFraction hfraction
    obtain ⟨fraction, rest, hmore, hrun', hall, hrest'⟩ := exists_run Char.isDigit (d :: more)
    have hne : Digits fraction := by
      refine ⟨?_, hall⟩
      rintro rfl
      rw [run, List.takeWhile_cons, if_pos hd] at hrun'
      cases hrun'
    rw [List.drop_succ_cons, List.drop_zero, hrun', hmore, List.take_left]
    rw [hmore] at h
    have hpoint : advance text (past s w) = .ok (46, past s (w ++ ['.'])) := by
      rw [advance_of_drop h.stands.past.drop_bytes, ← past_append]
      rfl
    have hstands : Stands text (past s (w ++ ['.'])).curr (fraction ++ rest) := by
      refine Stands.past ?_
      rw [List.append_assoc]
      exact h.stands
    have htext : w ++ '.' :: (fraction ++ rest) = (w ++ '.' :: fraction) ++ rest := by
      rw [List.append_assoc, List.cons_append]
    have hlength : w.length + 1 + fraction.length = (w ++ '.' :: fraction).length := by
      rw [List.length_append, List.length_cons]
      omega
    rw [htext] at h
    rw [hpoint, ok_bind, skipWhile_run ofAscii_isDigit rfl rfl hstands hall hrest' hbound, ok_bind, past_append,
      List.append_assoc, List.singleton_append, htext, hlength]
    exact emitNumber_eq h (decimal?_mixed hdigits.2 hne)
  · next hfraction =>
    rw [numeral_nil]
    exact emitNumber_eq h (decimal?_whole hdigits)

/-- A number that begins with a point, behind which there is a digit. -/
theorem parseNumber_point (h : Behind text s '.' rest) (hdigit : ∃ d ∈ rest.head?, d.isDigit)
    (hbound : size text < bound) : parseNumber text bound true s = settled s rest (readPoint rest) := by
  obtain ⟨w, rest, rfl, hrun, hw, hrest⟩ := exists_run Char.isDigit rest
  have hdigits : Digits w := by
    refine ⟨?_, hw⟩
    rintro rfl
    obtain ⟨d, hhead, hd⟩ := hdigit
    exact Bool.false_ne_true ((hrest d hhead).symm.trans hd)
  rw [parseNumber_run true h hw hrest hbound, readPoint, hrun, List.take_left, List.drop_left,
    if_neg (show ¬w.length = 0 by simpa using hdigits.1)]
  by_cases hfraction : beginsFraction rest
  · rw [if_pos ⟨hfraction, rfl⟩, if_pos hfraction, settled_append]
  · rw [if_neg (fun hboth => hfraction hboth.1), if_neg hfraction, if_neg hfraction]
    exact emitNumber_eq h (@decimal?_mixed [] w (List.forall_mem_nil _) hdigits)

/-- A string is read as the pieces read it, and the slice between its quotes is its text. -/
theorem parseString_eq (h : Behind text s '"' rest) (hbound : size text < bound) :
    parseString text bound s = settled s rest (readString rest) := by
  obtain ⟨w, rest, rfl, hrun, hw, hrest⟩ := exists_run (· != '"') rest
  have hpast := h.stands.past
  have hquote : ∀ c ∈ rest.head?, c = '"' := fun c hc => by simpa using hrest c hc
  rw [parseString, skipString_run h.stands hw hquote hbound, ok_bind, readString, hrun, List.take_left]
  cases rest with
  | nil =>
    rw [if_pos (size_le_iff.2 hpast.drop_bytes), if_neg (by simp), settled_append]
    rfl
  | cons c rest =>
    obtain rfl := hquote c rfl
    have hadvance : advance text (past s w) = .ok (34, past s (w ++ ['"'])) := by
      rw [advance_of_drop hpast.drop_bytes, ← past_append]
      rfl
    have hcurr : (past s (w ++ ['"'])).curr - 1 = s.start + 1 + size w := by
      show s.curr + size (w ++ ['"']) - 1 = _
      rw [h.curr, size_append]
      show s.start + 1 + (size w + 1) - 1 = _
      omega
    have hbody : slice text (s.start + 1) ((past s (w ++ ['"'])).curr - 1) = .ok w := by
      rw [hcurr]
      exact Stands.slice_eq (Stands.move (w := ['"']) h.start)
    have htext : w ++ '"' :: rest = (w ++ ['"']) ++ rest := by rw [List.append_assoc]; rfl
    have hlength : w.length + 1 = (w ++ ['"']).length := by rw [List.length_append]; rfl
    rw [if_neg (not_size_le hpast.drop_bytes), hadvance, ok_bind, if_pos (by simp), htext,
      hlength, settled_append]
    refine (congrArg (· >>= _) hbody).trans ?_
    rfl

/-- The kind of a word is known from its bytes. -/
theorem kindOf_bytes (w : List Char) : kindOf (bytes w) = Kind.ofWord w := by
  rw [kindOf, Kind.ofWord]
  congr 1
  induction Kind.words with
  | nil => rfl
  | cons entry table ih =>
    have hbeq : (bytes w == bytes entry.1) = (w == entry.1) := by
      rw [Bool.eq_iff_iff, beq_iff_eq, beq_iff_eq]
      exact bytes_injective.eq_iff
    rw [List.map_cons, List.lookup_cons, List.lookup_cons, ih, hbeq]

/-- Asking for the characters of words tells no characters outside of ASCII apart. -/
theorem ofAscii_isWordPart : OfAscii isWordPart :=
  ofAscii_of_le fun _ => toNat_le_of_isWordPart

/-- A word is read as the pieces read it. -/
theorem parseWord_eq (h : Behind text s c rest) (hbound : size text < bound) :
    parseWord text bound s =
      settled s rest
        (.token (Kind.ofWord (c :: rest.take (run isWordPart rest))) none, run isWordPart rest) := by
  obtain ⟨w, rest, rfl, hrun, hw, hrest⟩ := exists_run isWordPart rest
  rw [parseWord, skipWhile_run ofAscii_isWordPart rfl rfl h.stands hw hrest hbound, ok_bind, h.byteSlice_eq,
    ok_bind, kindOf_bytes, hrun, List.take_left, settled_append]
  rfl

end

/-! ## One lexeme -/

section
variable {text rest : List Char} {s : Place} {c : Char} {bound : Nat}

/-- The next byte is one of ASCII exactly if the next character is. -/
theorem head?_bytes_iff {b : UInt8} (hb : (ascii b).toNat ≤ 127) (rest : List Char) :
    (bytes rest).head? = some b ↔ rest.head? = some (ascii b) := by
  cases rest with
  | nil => simp [bytes]
  | cons c rest =>
    obtain ⟨first, v, hbytes, hfirst⟩ := exists_first c rest
    rw [hbytes, List.head?_cons, List.head?_cons, Option.some_inj, Option.some_inj]
    have hcases := eq_ascii_or_of_mem hfirst
    constructor
    · rintro rfl
      exact hcases.resolve_right fun hlarge => by omega
    · rintro rfl
      have heq := hcases.resolve_right fun hlarge => by omega
      exact (ascii_injective heq).symm

/-- A single character of ASCII that is no newline moves the place by one byte. -/
theorem past_singleton (s : Place) (hc : c.toNat ≤ 127) (hnewline : c ≠ '\n') :
    past s [c] = { s with curr := s.curr + 1 } := by
  rw [past, size_singleton hc, List.count_singleton, if_neg (by simpa using hnewline)]
  rfl

/-- The next character, if it is one of ASCII, is gone over by its byte. -/
theorem matchByte_eq {b : UInt8} (hb : (ascii b).toNat ≤ 127) (hnewline : ascii b ≠ '\n')
    (h : Stands text s.curr rest) :
    matchByte text b s =
      .ok (if rest.head? = some (ascii b) then (true, past s [ascii b]) else (false, s)) := by
  rw [matchByte_of_drop b h.drop_bytes, past_singleton s hb hnewline]
  simp only [head?_bytes_iff hb]

/-- A reading that goes no further is settled at the place. -/
theorem settled_zero (s : Place) (rest : List Char) (reading : Reading) :
    settled s rest (reading, 0) = .ok (outcome reading s) :=
  settled_append s [] rest reading

/-- An operator is read with an equals sign if one follows. -/
theorem scanFrom_operator {alone withEqual : Kind} (h : Behind text s c rest) :
    (do
      let (equal, s) ← matchByte text 61 s
      return emit (if equal then withEqual else alone) none s) =
    settled s rest (if rest.head? = some '=' then (.token withEqual none, 1) else (.token alone none, 0)) := by
  rw [matchByte_eq (by decide) (by decide) h.stands]
  by_cases hequal : rest.head? = some '='
  · obtain ⟨rest, rfl⟩ := List.head?_eq_some_iff.1 hequal
    rfl
  · rw [if_neg hequal, settled_zero]
    rw [if_neg (show ¬rest.head? = some (ascii 61) from hequal)]
    rfl

/-- A point is read as the pieces read it, alone or with the digits behind it. -/
theorem scanFrom_point (h : Behind text s '.' rest) (hbound : size text < bound) :
    (do
      if (ascii (← peek text s)).isDigit then parseNumber text bound true s
      else return emit .dot none s) = settled s rest (readPoint rest) := by
  rw [peek_of_drop h.stands.drop_bytes, ok_bind, ofAscii_isDigit.apply_headD]
  split
  · next hdigit =>
    refine parseNumber_point h ?_ hbound
    cases rest with
    | nil => cases hdigit
    | cons d rest => exact ⟨d, rfl, hdigit⟩
  · next hdigit =>
    have hrun : run Char.isDigit rest = 0 := by
      cases rest with
      | nil => rfl
      | cons d rest =>
        rw [List.headD_cons] at hdigit
        rw [run, List.takeWhile_cons_of_neg hdigit, List.length_nil]
    rw [readPoint, hrun, if_pos rfl, settled_zero]
    rfl

/-- A slash is read as the pieces read it, alone or as the beginning of a comment. -/
theorem scanFrom_slash (h : Behind text s '/' rest) :
    (do
      let (comment, s) ← matchByte text 47 s
      if comment then return (.ok (), ← skipComment text s) else return emit .slash none s) =
    settled s rest (readSlash rest) := by
  rw [matchByte_eq (by decide) (by decide) h.stands, ok_bind]
  by_cases hslash : rest.head? = some '/'
  · obtain ⟨rest, rfl⟩ := List.head?_eq_some_iff.1 hslash
    obtain ⟨w, rest, rfl, hrun, hw, hrest⟩ := exists_run (· != '\n') rest
    have hcomment := skipComment_run (w := w) (Stands.past (w := ['/']) h.stands) hw fun c hc => by
      simpa using hrest c hc
    rw [readSlash, hrun, Nat.add_comm]
    refine Eq.trans ?_ (settled_append s ('/' :: w) rest .blank).symm
    refine (congrArg (· >>= _) hcomment).trans ?_
    rw [past_append]
    rfl
  · have hread : readSlash rest = (.token .slash none, 0) := by
      unfold readSlash
      split
      · exact absurd rfl hslash
      · rfl
    rw [hread, settled_zero, if_neg (show ¬rest.head? = some (ascii 47) from hslash)]
    rfl

/-- What a character begins is read as the pieces read it. -/
theorem scanFrom_eq {b : UInt8} (hb : ascii b = c) (h : Behind text s c rest)
    (hblank : classOf c ≠ .blank) (hother : classOf c ≠ .other) (hbound : size text < bound) :
    scanFrom text bound b s = settled s rest (readFrom c rest) := by
  have hhas := classOf_has c
  rw [scanFrom, hb, readFrom_eq]
  cases hclass : classOf c with
  | blank => exact absurd hclass hblank
  | other => exact absurd hclass hother
  | punctuation kind => rfl
  | operator alone withEqual => exact scanFrom_operator h
  | point =>
    rw [hclass] at hhas
    obtain rfl := hhas
    exact scanFrom_point h hbound
  | slash =>
    rw [hclass] at hhas
    obtain rfl := hhas
    exact scanFrom_slash h
  | quote =>
    rw [hclass] at hhas
    obtain rfl := hhas
    exact parseString_eq h hbound
  | digit =>
    rw [hclass] at hhas
    exact parseNumber_digit h hhas hbound
  | word => exact parseWord_eq h hbound

/-- A character that nothing begins with is skipped with all its bytes. -/
theorem skipCharacter_eq (h : Stands text s.start (c :: rest)) :
    skipCharacter text s = .ok { s with curr := s.start + size [c] } := by
  rw [skipCharacter, h.dropBytes_eq, ok_bind, size_cons]
  rfl

/-- The lexeme at a place is the piece that is read from the text behind it, and the place moves behind it. -/
theorem scanToken_eq (h : Stands text s.curr (c :: rest)) (hstart : s.start = s.curr)
    (hbound : size text < bound) :
    scanToken text bound s =
      .ok (outcome (readFrom c rest).1 (past s (c :: rest.take (readFrom c rest).2))) := by
  obtain ⟨b, v, hbytes, hb⟩ := exists_first c rest
  rw [scanToken, advance_of_drop (h.drop_bytes.trans hbytes), ok_bind]
  dsimp only
  by_cases hother : classOf c = .other
  · -- The place is inside of the character, unless this has one byte only; it is left from its start.
    have hnewline : c ≠ '\n' := by
      rintro rfl
      cases hother
    rw [scanFrom, ofAscii_classOf.apply_ascii hb, hother, readFrom_eq, hother]
    dsimp only
    rw [skipCharacter_eq (hstart ▸ h), ok_bind, List.take_zero, past, ← hstart, List.count_singleton,
      if_neg (by simpa using hnewline)]
    rfl
  have hascii : c.toNat ≤ 127 := by
    exact Nat.le_of_not_lt fun hlarge => hother (classOf_eq_other hlarge)
  have hfirst : ascii b = c := by
    rcases eq_ascii_or_of_mem hb with hc | hlarge
    · exact hc.symm
    · omega
  by_cases hblank : classOf c = .blank
  · rw [scanFrom, hfirst, hblank, readFrom_eq, hblank]
    dsimp only
    rw [List.take_zero]
    by_cases hnewline : c = '\n'
    · subst hnewline
      rfl
    · rw [if_neg hnewline, past_singleton s hascii hnewline]
      rfl
  · have hnewline : c ≠ '\n' := by
      rintro rfl
      exact hblank rfl
    have hbehind : Behind text (past s [c]) c rest := ⟨hstart ▸ h, by rw [past, hstart]⟩
    rw [← past_singleton s hascii hnewline, scanFrom_eq hfirst hbehind hblank hother hbound, settled,
      past_append]
    rfl

end

end Scanner

end LoxLang
