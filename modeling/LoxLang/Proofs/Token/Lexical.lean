import LoxLang.Proofs.Token.Newline

/-!
# The lexical grammar

What the tokens of a source are, without a word about how they are found. `IsLexeme` says which stretches
of source are tokens and `Denotes` what they stand for. `Step` says what is read first from a text: a
blank, a comment, the longest prefix that is a lexeme (`IsLongest`), or one of three faults. `Scans` goes
through a whole text and lists its items.

Three rules stand against the longest match. A comment begins with a lexeme, the slash. A fraction with a
second one directly behind it is no number but a fault, and reading goes on at the second point. And a
quote that is not closed begins a fault although a quote begins lexemes.

The lexemes that begin with a character depend on its class only: `IsLexeme.exists_tail` says what can
follow it. A lexeme denotes one kind and one literal (`Denotes.eq_denoted`).
-/

namespace LoxLang.Lexical

open LoxLang.Piece

/-! ## Lexemes -/

/-- The punctuators and operators. -/
def symbols : List (List Char × Kind) :=
  [(['('], .leftParen), ([')'], .rightParen), (['\x7b'], .leftBrace), (['\x7d'], .rightBrace),
    ([','], .comma), (['.'], .dot), (['-'], .minus), (['+'], .plus), ([';'], .semicolon),
    (['/'], .slash), (['*'], .star), (['!'], .bang), (['!', '='], .bangEqual), (['='], .equal),
    (['=', '='], .equalEqual), (['>'], .greater), (['>', '='], .greaterEqual), (['<'], .less),
    (['<', '='], .lessEqual)]

/-- A run of digits, at least one. -/
def Digits (w : List Char) : Prop :=
  w ≠ [] ∧ ∀ c ∈ w, c.isDigit

/-- The lexemes of numbers: `12`, `12.5` and `.5`. -/
inductive IsNumber : List Char → Prop where
  | whole {digits : List Char} (h : Digits digits) : IsNumber digits
  | mixed {digits fraction : List Char} (h : Digits digits) (hfraction : Digits fraction) :
      IsNumber (digits ++ '.' :: fraction)
  | fraction {fraction : List Char} (h : Digits fraction) : IsNumber ('.' :: fraction)

/-- A letter or an underscore, and any number of letters, digits and underscores. -/
inductive IsWord : List Char → Prop where
  | mk {c : Char} {rest : List Char} (hc : isWordStart c) (hrest : ∀ d ∈ rest, isWordPart d) :
      IsWord (c :: rest)

/-- The stretches of source that are tokens. -/
inductive IsLexeme : List Char → Prop where
  | symbol {w : List Char} {kind : Kind} (h : (w, kind) ∈ symbols) : IsLexeme w
  | number {w : List Char} (h : IsNumber w) : IsLexeme w
  | string {body : List Char} (h : '"' ∉ body) : IsLexeme ('"' :: (body ++ ['"']))
  | word {w : List Char} (h : IsWord w) : IsLexeme w

/-- The decimal that is written by digits with at most one point before, among or behind them. -/
def decimal? (w : List Char) : Option Decimal :=
  let whole := w.takeWhile Char.isDigit
  match w.dropWhile Char.isDigit with
  | [] => if whole = [] then none else some ⟨Nat.ofDigitChars 10 whole 0, 0⟩
  | '.' :: fraction =>
    if (whole = [] ∧ fraction = []) ∨ ¬fraction.all Char.isDigit then none
    else some ⟨Nat.ofDigitChars 10 (whole ++ fraction) 0, -(fraction.length : Int)⟩
  | _ => none

/-- The kind and the literal of a lexeme. A word is of the kind of its entry in the table of reserved
words exactly if it has one. -/
inductive Denotes : List Char → Kind → Option Literal → Prop where
  | symbol {w : List Char} {kind : Kind} (h : (w, kind) ∈ symbols) : Denotes w kind none
  | number {w : List Char} {d : Decimal} (h : IsNumber w) (hd : decimal? w = some d) :
      Denotes w .number (some (.number d.toFloat))
  | string {body : List Char} (h : '"' ∉ body) :
      Denotes ('"' :: (body ++ ['"'])) .string (some (.string (String.ofList body)))
  | reserved {w : List Char} {kind : Kind} (h : IsWord w) (hw : (w, kind) ∈ Kind.words) :
      Denotes w kind none
  | identifier {w : List Char} (h : IsWord w) (hw : ∀ kind, (w, kind) ∉ Kind.words) :
      Denotes w .identifier none

/-! ## Reading a source -/

/-- The lexeme is a prefix of the text, and no longer prefix is one. -/
structure IsLongest (w text : List Char) : Prop where
  isLexeme : IsLexeme w
  isPrefix : w <+: text
  length_le : ∀ {w' : List Char}, IsLexeme w' → w' <+: text → w'.length ≤ w.length

/-- The characters between tokens. -/
def blanks : List Char := [' ', '\t', '\r', '\n']

/-- A fraction with a second one directly behind it. -/
inductive RepeatsPoint : List Char → List Char → Prop where
  | mk {digits : List Char} {d : Char} {rest : List Char} (h : Digits digits) (hd : d.isDigit) :
      RepeatsPoint ('.' :: digits) ('.' :: d :: rest)

/-- What is read first from a text, given as a span and the rest behind it. -/
inductive Step : List Char → List Char → Reading → Prop where
  | blank {c : Char} {rest : List Char} (h : c ∈ blanks) : Step [c] rest .blank
  | comment {body rest : List Char} (h : '\n' ∉ body) (hrest : ∀ c ∈ rest.head?, c = '\n') :
      Step ('/' :: '/' :: body) rest .blank
  | token {w rest : List Char} {kind : Kind} {literal : Option Literal}
      (hcomment : ¬['/', '/'] <+: w ++ rest) (hpoint : ¬RepeatsPoint w rest)
      (h : IsLongest w (w ++ rest)) (hw : Denotes w kind literal) :
      Step w rest (.token kind literal)
  | unclosed {body : List Char} (h : '"' ∉ body) :
      Step ('"' :: body) [] (.fault .unterminatedString)
  | repeatedPoint {w rest : List Char} (h : RepeatsPoint w rest) : Step w rest (.fault .multipleDots)
  | unexpected {c : Char} {rest : List Char} (hblank : c ∉ blanks) (h : ∀ w, ¬IsLexeme (c :: w)) :
      Step [c] rest (.fault .unexpectedCharacter)

/-- The items of a text that begins on a line. -/
inductive Scans : Nat → List Char → List Item → Prop where
  | done (line : Nat) : Scans line [] [.token (Item.endMark line)]
  | blank {line : Nat} {span rest : List Char} {items : List Item} (h : Step span rest .blank)
      (hrest : Scans (line + span.count '\n') rest items) : Scans line (span ++ rest) items
  | token {line : Nat} {span rest : List Char} {items : List Item} {kind : Kind}
      {literal : Option Literal} (h : Step span rest (.token kind literal))
      (hrest : Scans (line + span.count '\n') rest items) :
      Scans line (span ++ rest)
        (.token ⟨kind, String.ofList span, literal, line + span.count '\n'⟩ :: items)
  | fault {line : Nat} {span rest : List Char} {items : List Item} {cause : LexicalCause}
      (h : Step span rest (.fault cause))
      (hrest : Scans (line + span.count '\n') rest items) :
      Scans line (span ++ rest) (.fault ⟨cause, line + span.count '\n'⟩ :: items)

/-! ## Classes of first characters -/

/-- What a piece can be, by its first character. -/
inductive CharClass where
  | blank
  | punctuation (kind : Kind)
  | operator (alone withEqual : Kind)
  | point
  | slash
  | quote
  | digit
  | word
  | other
  deriving DecidableEq

/-- The class of a character. -/
def classOf (c : Char) : CharClass :=
  if isBlank c then .blank
  else if let some kind := punctuation? c then .punctuation kind
  else if let some (alone, withEqual) := operator? c then .operator alone withEqual
  else if c = '.' then .point
  else if c = '/' then .slash
  else if c = '"' then .quote
  else if c.isDigit then .digit
  else if isWordStart c then .word
  else .other

/-- The characters of a class. -/
def CharClass.Has : CharClass → Char → Prop
  | blank, c => c ∈ blanks
  | punctuation kind, c => ([c], kind) ∈ symbols
  | operator alone withEqual, c => ([c], alone) ∈ symbols ∧ ([c, '='], withEqual) ∈ symbols
  | point, c => c = '.'
  | slash, c => c = '/'
  | quote, c => c = '"'
  | digit, c => c.isDigit
  | word, c => isWordStart c
  | other, _ => True

/-- A character is one of those of its class. -/
theorem classOf_has (c : Char) : (classOf c).Has c := by
  unfold classOf
  split
  · next h => simpa [CharClass.Has, blanks, isBlank, or_assoc] using h
  split
  · next h =>
    unfold punctuation? at h
    repeat' split at h
    all_goals cases h
    all_goals simp_all [CharClass.Has, symbols]
  split
  · next h =>
    unfold operator? at h
    repeat' split at h
    all_goals cases h
    all_goals simp_all [CharClass.Has, symbols]
  split
  · assumption
  split
  · assumption
  split
  · assumption
  split
  · assumption
  split
  · assumption
  · trivial

/-- Blanks are of the class of blanks. -/
theorem classOf_of_mem_blanks {c : Char} (h : c ∈ blanks) : classOf c = .blank := by
  have hblank : isBlank c := by simpa [blanks, isBlank, or_assoc] using h
  rw [classOf, if_pos hblank]

/-- Digits are of the class of digits. -/
theorem classOf_of_isDigit {c : Char} (h : c.isDigit) : classOf c = .digit := by
  have hne {d : Char} (hd : d.isDigit = false) : c ≠ d := by
    rintro rfl
    exact Bool.false_ne_true (hd.symm.trans h)
  simp [classOf, isBlank, punctuation?, operator?, h, hne]

/-- No digit begins a word. -/
theorem not_isDigit_of_isWordStart {c : Char} (h : isWordStart c) : ¬c.isDigit := by
  intro hd
  rw [isWordStart, Bool.or_eq_true, beq_iff_eq] at h
  rcases h with h | rfl
  · change (decide (65 ≤ c.val ∧ c.val ≤ 90) || (97 ≤ c.val && c.val ≤ 122)) = true at h
    change (48 ≤ c.val && c.val ≤ 57) = true at hd
    simp only [Bool.or_eq_true, Bool.and_eq_true, decide_eq_true_eq, UInt32.le_iff_toNat_le,
      UInt32.reduceToNat] at h hd
    omega
  · cases hd

/-- The characters that begin words are of the class of words. -/
theorem classOf_of_isWordStart {c : Char} (h : isWordStart c) : classOf c = .word := by
  have hne {d : Char} (hd : (d.isAlpha || d == '_') = false) : c ≠ d := by
    rintro rfl
    exact Bool.false_ne_true (hd.symm.trans h)
  simp [classOf, isBlank, punctuation?, operator?, h, not_isDigit_of_isWordStart h, hne]

/-- What can follow a character of a class in a lexeme. -/
def CharClass.Tail : CharClass → List Char → Prop
  | punctuation _, w | slash, w => w = []
  | operator _ _, w => w = [] ∨ w = ['=']
  | point, w => ∀ d ∈ w, d.isDigit
  | quote, w => ∃ body, w = body ++ ['"'] ∧ '"' ∉ body
  | digit, w =>
    (∀ d ∈ w, d.isDigit) ∨
      ∃ digits fraction, w = digits ++ '.' :: fraction ∧ (∀ d ∈ digits, d.isDigit) ∧ Digits fraction
  | word, w => ∀ d ∈ w, isWordPart d
  | blank, _ | other, _ => False

/-- What follows the first character of a symbol can follow it in a lexeme. -/
theorem symbols_tail : ∀ p ∈ symbols, ∀ c w, p.1 = c :: w → (classOf c).Tail w := by
  simp [symbols, classOf, isBlank, punctuation?, operator?, CharClass.Tail]

/-- A run of digits has a first one. -/
theorem Digits.exists_cons {w : List Char} (h : Digits w) :
    ∃ d ds, w = d :: ds ∧ d.isDigit ∧ ∀ d' ∈ ds, d'.isDigit := by
  obtain ⟨hne, hall⟩ := h
  cases w with
  | nil => exact absurd rfl hne
  | cons d ds =>
    obtain ⟨hd, hds⟩ := List.forall_mem_cons.1 hall
    exact ⟨d, ds, rfl, hd, hds⟩

/-- A lexeme is a first character with what can follow one of its class. -/
theorem IsLexeme.exists_tail {w : List Char} (h : IsLexeme w) :
    ∃ c tail, w = c :: tail ∧ (classOf c).Tail tail := by
  cases h with
  | @symbol _ kind h =>
    have hne : ∀ p ∈ symbols, p.1 ≠ [] := by decide
    cases w with
    | nil => exact absurd rfl (hne _ h)
    | cons c tail => exact ⟨c, tail, rfl, symbols_tail _ h c tail rfl⟩
  | number h =>
    cases h with
    | whole h =>
      obtain ⟨d, ds, rfl, hd, hds⟩ := h.exists_cons
      exact ⟨d, ds, rfl, classOf_of_isDigit hd ▸ .inl hds⟩
    | mixed h hfraction =>
      obtain ⟨d, ds, rfl, hd, hds⟩ := h.exists_cons
      exact ⟨d, _, rfl, classOf_of_isDigit hd ▸ .inr ⟨ds, _, rfl, hds, hfraction⟩⟩
    | fraction h => exact ⟨'.', _, rfl, h.2⟩
  | string h => exact ⟨'"', _, rfl, _, rfl, h⟩
  | word h =>
    cases h with
    | mk hc hrest => exact ⟨_, _, rfl, classOf_of_isWordStart hc ▸ hrest⟩

/-! ## What a lexeme denotes -/

/-- What denotes something is a lexeme. -/
theorem Denotes.isLexeme {w : List Char} {kind : Kind} {literal : Option Literal}
    (h : Denotes w kind literal) : IsLexeme w := by
  cases h with
  | symbol h => exact .symbol h
  | number h _ => exact .number h
  | string h => exact .string h
  | reserved h _ | identifier h _ => exact .word h

/-- In a table without repeated entries, the entry of a word is what it is looked up as. -/
theorem mem_iff_lookup {table : List (List Char × Kind)} (h : (table.map Prod.fst).Nodup)
    {w : List Char} {kind : Kind} : (w, kind) ∈ table ↔ table.lookup w = some kind := by
  constructor
  · intro hmem
    obtain ⟨before, after, rfl⟩ := List.append_of_mem hmem
    refine List.lookup_eq_some_iff.2 ⟨before, after, rfl, fun p hp => ?_⟩
    rw [List.map_append, List.nodup_append] at h
    have hne := h.2.2 p.1 (List.mem_map_of_mem hp) w (by simp)
    simpa using Ne.symm hne
  · intro hlookup
    obtain ⟨before, after, rfl, -⟩ := List.lookup_eq_some_iff.1 hlookup
    simp

/-- The table of reserved words can be looked up: no word has two entries. -/
theorem mem_words_iff {w : List Char} {kind : Kind} :
    (w, kind) ∈ Kind.words ↔ Kind.words.lookup w = some kind :=
  mem_iff_lookup (by decide)

/-- The table of symbols can be looked up: no symbol has two entries. -/
theorem mem_symbols_iff {w : List Char} {kind : Kind} :
    (w, kind) ∈ symbols ↔ symbols.lookup w = some kind :=
  mem_iff_lookup (by decide)

/-- A word is of the kind that it is looked up as. -/
theorem IsWord.denotes {w : List Char} (h : IsWord w) : Denotes w (Kind.ofWord w) none := by
  cases hkind : Kind.words.lookup w with
  | some kind =>
    rw [Kind.ofWord, hkind]
    exact .reserved h (mem_words_iff.2 hkind)
  | none =>
    rw [Kind.ofWord, hkind]
    refine .identifier h fun kind hmem => ?_
    rw [mem_words_iff.1 hmem] at hkind
    cases hkind

/-- Digits before and behind a point write the decimal of all the digits, scaled by those behind it. -/
theorem decimal?_mixed {whole fraction : List Char} (hwhole : ∀ d ∈ whole, d.isDigit)
    (hfraction : Digits fraction) :
    decimal? (whole ++ '.' :: fraction) =
      some ⟨Nat.ofDigitChars 10 (whole ++ fraction) 0, -(fraction.length : Int)⟩ := by
  have htake : (whole ++ '.' :: fraction).takeWhile Char.isDigit = whole := by
    rw [List.takeWhile_append_of_pos hwhole]
    simp
  have hdrop : (whole ++ '.' :: fraction).dropWhile Char.isDigit = '.' :: fraction := by
    rw [List.dropWhile_append_of_pos hwhole]
    simp
  have hall : fraction.all Char.isDigit := List.all_eq_true.2 hfraction.2
  simp [decimal?, htake, hdrop, hall, hfraction.1]

/-- Digits without a point are the decimal of a whole number. -/
theorem decimal?_whole {digits : List Char} (h : Digits digits) :
    decimal? digits = some ⟨Nat.ofDigitChars 10 digits 0, 0⟩ := by
  have htake : digits.takeWhile Char.isDigit = digits := by
    rw [← List.append_nil digits, List.takeWhile_append_of_pos h.2]
    simp
  have hdrop : digits.dropWhile Char.isDigit = [] := by
    rw [← List.append_nil digits, List.dropWhile_append_of_pos h.2]
    simp
  simp [decimal?, htake, hdrop, h.1]

/-- What a lexeme denotes, computed from it. -/
def denoted (w : List Char) : Kind × Option Literal :=
  match decimal? w, symbols.lookup w with
  | some d, _ => (.number, some (.number d.toFloat))
  | none, some kind => (kind, none)
  | none, none =>
    if w.head? = some '"' then (.string, some (.string (String.ofList w.tail.dropLast)))
    else (Kind.ofWord w, none)

/-- A character that no symbol begins with begins none that is found in the table. -/
theorem lookup_symbols_eq_none {c : Char} {w : List Char} (h : ∀ p ∈ symbols, p.1.head? ≠ some c) :
    symbols.lookup (c :: w) = none := by
  cases hlookup : symbols.lookup (c :: w) with
  | none => rfl
  | some kind => exact absurd rfl (h _ (mem_symbols_iff.2 hlookup))

/-- What begins with neither a digit nor a point writes no decimal. -/
theorem decimal?_eq_none {c : Char} (w : List Char) (hdigit : ¬c.isDigit) (hpoint : c ≠ '.') :
    decimal? (c :: w) = none := by
  simp only [decimal?, List.takeWhile_cons, List.dropWhile_cons, hdigit]
  simp [hpoint]

/-- A word denotes its kind, reserved or not, and no literal. -/
theorem denoted_of_isWord {w : List Char} (h : IsWord w) : denoted w = (Kind.ofWord w, none) := by
  cases h with
  | @mk c rest hc _ =>
    have hsymbols : ∀ p ∈ symbols, ∀ d ∈ p.1.head?, isWordStart d = false := by
      simp [symbols, isWordStart]
    have hlookup : symbols.lookup (c :: rest) = none := by
      refine lookup_symbols_eq_none fun p hp hhead => ?_
      rw [hsymbols p hp c hhead] at hc
      cases hc
    have hdecimal : decimal? (c :: rest) = none := by
      refine decimal?_eq_none rest (not_isDigit_of_isWordStart hc) ?_
      rintro rfl
      cases hc
    have hquote : (c :: rest).head? ≠ some '"' := by
      rintro ⟨⟩
      cases hc
    simp only [denoted, hdecimal, hlookup, if_neg hquote]

/-- A lexeme denotes one kind and one literal. -/
theorem Denotes.eq_denoted {w : List Char} {kind : Kind} {literal : Option Literal}
    (h : Denotes w kind literal) : denoted w = (kind, literal) := by
  cases h with
  | symbol h =>
    have hsymbols : ∀ p ∈ symbols, decimal? p.1 = none := by decide
    simp only [denoted, hsymbols _ h, mem_symbols_iff.1 h]
  | number _ hd => simp only [denoted, hd]
  | @string body h =>
    have hlookup : symbols.lookup ('"' :: (body ++ ['"'])) = none :=
      lookup_symbols_eq_none (by decide)
    have hdecimal := decimal?_eq_none (c := '"') (body ++ ['"']) (by decide) (by decide)
    simp [denoted, hdecimal, hlookup]
  | reserved h hw =>
    rw [denoted_of_isWord h, Kind.ofWord, mem_words_iff.1 hw]
    rfl
  | identifier h hw =>
    have hnone : Kind.words.lookup w = none := by
      cases hlookup : Kind.words.lookup w with
      | none => rfl
      | some kind => exact absurd (mem_words_iff.2 hlookup) (hw kind)
    rw [denoted_of_isWord h, Kind.ofWord, hnone]
    rfl

end LoxLang.Lexical
