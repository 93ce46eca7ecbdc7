import LoxLang.Token.Item

/-!
# Source is cut at newlines

No piece goes on over a newline except a string. So a text with a newline behind it is cut as it is
without one, as long as it leaves no string open: `readFrom_append_newline` for one piece,
`pieces_append_newline` for the pieces, `Source.items_append_newline` for the items, whose lines behind
the newline are counted on from those before it (`Item.reline`).
-/

namespace LoxLang

namespace Piece

/-! ## One piece -/

/-- A run does not go on over a character that it does not take. -/
theorem run_append {p : Char → Bool} {c : Char} (hc : p c = false) (text more : List Char) :
    run p (text ++ c :: more) = run p text := by
  induction text with
  | nil => simp [run, hc]
  | cons d text ih =>
    cases hd : p d with
    | false => simp [run, hd]
    | true => simpa [run, hd] using ih

/-- A run is no longer than the text. -/
theorem run_le (p : Char → Bool) (text : List Char) : run p text ≤ text.length :=
  (List.takeWhile_prefix p).length_le

/-- A newline is no digit. -/
theorem beginsFraction_append_newline (text more : List Char) :
    beginsFraction (text ++ '\n' :: more) = beginsFraction text := by
  match text with
  | [] => rfl
  | [c] =>
    by_cases hc : c = '.'
    · subst hc; rfl
    · rw [beginsFraction.eq_2, beginsFraction.eq_2] <;> simp [hc]
  | c :: d :: text =>
    by_cases hc : c = '.'
    · subst hc; rfl
    · rw [beginsFraction.eq_2, beginsFraction.eq_2] <;> simp [hc]

/-- What begins a fraction is not empty. -/
theorem length_pos_of_beginsFraction {text : List Char} (h : beginsFraction text = true) :
    1 ≤ text.length := by
  cases text with
  | nil => cases h
  | cons c rest => simp

/-- A number does not go on over a newline. -/
theorem readNumber_append_newline (c : Char) (text more : List Char) :
    readNumber c (text ++ '\n' :: more) = readNumber c text := by
  have hle := run_le Char.isDigit text
  have hle' := run_le Char.isDigit ((text.drop (run Char.isDigit text)).drop 1)
  simp only [readNumber, run_append (show Char.isDigit '\n' = false from rfl),
    List.drop_append_of_le_length hle, List.take_append_of_le_length hle,
    beginsFraction_append_newline]
  split
  · next hfraction =>
    -- The point is a character of the text, so one can be dropped from it.
    have hpos := length_pos_of_beginsFraction hfraction
    simp only [List.drop_append_of_le_length hpos, run_append (show Char.isDigit '\n' = false from rfl),
      List.take_append_of_le_length hle']
  · rfl

/-- A point, alone or with digits, does not go on over a newline. -/
theorem readPoint_append_newline (text more : List Char) :
    readPoint (text ++ '\n' :: more) = readPoint text := by
  have hle := run_le Char.isDigit text
  simp only [readPoint, run_append (show Char.isDigit '\n' = false from rfl),
    List.drop_append_of_le_length hle, List.take_append_of_le_length hle,
    beginsFraction_append_newline]

/-- A comment ends before a newline. -/
theorem readSlash_append_newline (text more : List Char) :
    readSlash (text ++ '\n' :: more) = readSlash text := by
  cases text with
  | nil => rfl
  | cons c text =>
    by_cases hc : c = '/'
    · subst hc
      have hrun : run (· != '\n') (text ++ '\n' :: more) = run (· != '\n') text :=
        run_append rfl text more
      simp only [List.cons_append, readSlash, hrun]
    · rw [readSlash.eq_2, readSlash.eq_2] <;> simp [hc]

/-- A string that is closed ends before what follows. -/
theorem readString_append {text : List Char} (more : List Char)
    (h : (readString text).1 ≠ .fault .unterminatedString) :
    readString (text ++ more) = readString text := by
  have hlt : run (· != '"') text < text.length := by
    apply Decidable.byContradiction
    intro hge
    exact h (by simp only [readString, if_neg hge])
  have hrun : run (· != '"') (text ++ more) = run (· != '"') text := by
    clear h
    induction text with
    | nil => exact absurd hlt (Nat.lt_irrefl 0)
    | cons c text ih =>
      cases hc : (c != '"') with
      | false => simp [run, hc]
      | true =>
        simp only [run, List.cons_append, List.takeWhile_cons, hc, if_true, List.length_cons] at hlt ⊢
        exact congrArg (· + 1) (ih (Nat.lt_of_succ_lt_succ hlt))
  have hlt' : run (· != '"') text < (text ++ more).length := by
    rw [List.length_append]
    omega
  simp only [readString, hrun, if_pos hlt, if_pos hlt',
    List.take_append_of_le_length (Nat.le_of_lt hlt)]

/-- A piece that is no open string is read the same before a newline and before the end. -/
theorem readFrom_append_newline {c : Char} {text : List Char} (more : List Char)
    (h : (readFrom c text).1 ≠ .fault .unterminatedString) :
    readFrom c (text ++ '\n' :: more) = readFrom c text := by
  have hequal : (text ++ '\n' :: more).head? = some '=' ↔ text.head? = some '=' := by
    cases text <;> simp
  have hword : run isWordPart (text ++ '\n' :: more) = run isWordPart text :=
    run_append rfl text more
  unfold readFrom at h ⊢
  split
  · rfl
  split
  · rfl
  split
  · simp only [hequal]
  split
  · exact readPoint_append_newline text more
  split
  · exact readSlash_append_newline text more
  split
  · next hblank _ _ _ _ hpoint hslash hquote =>
    simp only [if_neg hblank, if_neg hpoint, if_neg hslash, if_pos hquote] at h
    exact readString_append _ h
  split
  · exact readNumber_append_newline c text more
  split
  · simp only [hword, List.take_append_of_le_length (run_le _ _)]
  · rfl

/-- A number reaches no further than the text. -/
theorem readNumber_le (c : Char) (text : List Char) : (readNumber c text).2 ≤ text.length := by
  have hle := run_le Char.isDigit text
  have hle' := run_le Char.isDigit ((text.drop (run Char.isDigit text)).drop 1)
  simp only [List.length_drop] at hle'
  simp only [readNumber]
  split
  · next hfraction =>
    -- The point of the fraction is a character of the text too.
    have hpos := length_pos_of_beginsFraction hfraction
    rw [List.length_drop] at hpos
    dsimp only
    omega
  · exact hle

/-- A point with its digits reaches no further than the text. -/
theorem readPoint_le (text : List Char) : (readPoint text).2 ≤ text.length := by
  have hle := run_le Char.isDigit text
  simp only [readPoint]
  split
  · exact Nat.zero_le _
  · split <;> exact hle

/-- A slash with its comment reaches no further than the text. -/
theorem readSlash_le (text : List Char) : (readSlash text).2 ≤ text.length := by
  cases text with
  | nil => exact Nat.zero_le _
  | cons d rest =>
    by_cases hd : d = '/'
    · subst hd
      rw [readSlash, List.length_cons, Nat.add_comm]
      exact Nat.succ_le_succ (run_le _ rest)
    · rw [readSlash.eq_2 _ (by simp [hd])]
      exact Nat.zero_le _

/-- A string reaches no further than the text, with its second quote if it has one. -/
theorem readString_le (text : List Char) : (readString text).2 ≤ text.length := by
  simp only [readString]
  split
  · assumption
  · exact run_le _ text

/-- A piece reaches no further than the text. -/
theorem readFrom_le (c : Char) (text : List Char) : (readFrom c text).2 ≤ text.length := by
  unfold readFrom
  split
  · exact Nat.zero_le _
  split
  · exact Nat.zero_le _
  split
  · split
    · next hhead =>
      obtain ⟨rest, rfl⟩ := List.head?_eq_some_iff.1 hhead
      exact Nat.succ_le_succ (Nat.zero_le _)
    · exact Nat.zero_le _
  split
  · exact readPoint_le text
  split
  · exact readSlash_le text
  split
  · exact readString_le text
  split
  · exact readNumber_le c text
  split
  · exact run_le isWordPart text
  · exact Nat.zero_le _

/-! ## All pieces -/

/-- A text that leaves no string open is cut before a newline as it is without one, and the newline is a
blank of its own. -/
theorem pieces_append_newline {text : List Char} (more : List Char)
    (h : ∀ p ∈ pieces text, p.reading ≠ .fault .unterminatedString) :
    pieces (text ++ '\n' :: more) = pieces text ++ ⟨['\n'], .blank⟩ :: pieces more := by
  -- A piece takes more than one character off the text, so the induction is on its length.
  induction hn : text.length using Nat.strongRecOn generalizing text with
  | ind n ih =>
    cases text with
    | nil => rw [List.nil_append, pieces_cons]; rfl
    | cons c rest =>
      have hle := readFrom_le c rest
      rw [pieces_cons] at h
      obtain ⟨hfirst, hothers⟩ := List.forall_mem_cons.1 h
      have hread := readFrom_append_newline more hfirst
      have hshorter : (rest.drop (readFrom c rest).2).length < n := by
        rw [List.length_drop, ← hn, List.length_cons]
        omega
      rw [List.cons_append, pieces_cons, hread, List.take_append_of_le_length hle,
        List.drop_append_of_le_length hle, ih _ hshorter hothers rfl, pieces_cons c rest,
        List.cons_append]

/-! ## No piece is the mark of the end -/

/-- Every piece was read from some character on. -/
theorem exists_readFrom_of_mem {skip : Nat} {text : List Char} {p : Piece}
    (h : p ∈ piecesAfter skip text) : ∃ c rest, p.reading = (readFrom c rest).1 := by
  induction text generalizing skip with
  | nil => simp [piecesAfter] at h
  | cons c rest ih =>
    cases skip with
    | succ skip => exact ih h
    | zero =>
      rcases List.mem_cons.1 h with rfl | h
      · exact ⟨c, rest, rfl⟩
      · exact ih h

/-- No word is the mark of the end. -/
theorem ofWord_ne_eof (word : List Char) : Kind.ofWord word ≠ .eof := by
  have hwords : ∀ p ∈ Kind.words, p.2 ≠ .eof := by decide
  unfold Kind.ofWord
  cases h : Kind.words.lookup word with
  | none => nofun
  | some kind =>
    obtain ⟨before, after, heq, _⟩ := List.lookup_eq_some_iff.1 h
    exact hwords (word, kind) (by rw [heq]; simp)

/-- No punctuator is the mark of the end. -/
theorem punctuation?_ne_eof {c : Char} {kind : Kind} (h : punctuation? c = some kind) :
    kind ≠ .eof := by
  rintro rfl
  simp only [punctuation?] at h
  repeat' split at h
  all_goals cases h

/-- No operator is the mark of the end. -/
theorem operator?_ne_eof {c : Char} {kinds : Kind × Kind} (h : operator? c = some kinds) :
    kinds.1 ≠ .eof ∧ kinds.2 ≠ .eof := by
  simp only [operator?] at h
  repeat' split at h
  all_goals cases h
  all_goals exact ⟨nofun, nofun⟩

/-- No piece is read as the mark of the end. -/
theorem readFrom_ne_eof (c : Char) (text : List Char) (literal : Option Literal) :
    (readFrom c text).1 ≠ .token .eof literal := by
  unfold readFrom
  split
  · nofun
  split
  · next hkind => simpa using fun h => absurd h (punctuation?_ne_eof hkind)
  split
  · next hkinds =>
    obtain ⟨halone, hwith⟩ := operator?_ne_eof hkinds
    split
    · simpa using fun h => absurd h hwith
    · simpa using fun h => absurd h halone
  split
  · simp only [readPoint]
    repeat' split
    all_goals nofun
  split
  · unfold readSlash
    split <;> nofun
  split
  · simp only [readString]
    split <;> nofun
  split
  · simp only [readNumber]
    split <;> nofun
  split
  · simpa using fun h => absurd h (ofWord_ne_eof _)
  · nofun

end Piece

/-! ## Items and lines -/

/-- The token with its line moved. -/
def Token.reline (move : Nat → Nat) (t : Token) : Token :=
  { t with line := move t.line }

@[simp] theorem Token.reline_kind (move : Nat → Nat) (t : Token) : (t.reline move).kind = t.kind := rfl
@[simp] theorem Token.reline_lexeme (move : Nat → Nat) (t : Token) :
    (t.reline move).lexeme = t.lexeme := rfl
@[simp] theorem Token.reline_literal (move : Nat → Nat) (t : Token) :
    (t.reline move).literal = t.literal := rfl
@[simp] theorem Token.reline_line (move : Nat → Nat) (t : Token) :
    (t.reline move).line = move t.line := rfl

/-- The fault with its line moved. -/
def LexicalFault.reline (move : Nat → Nat) (f : LexicalFault) : LexicalFault :=
  { f with line := move f.line }

namespace Item

/-- The item with its line moved. -/
def reline (move : Nat → Nat) : Item → Item
  | token t => token (t.reline move)
  | fault f => fault (f.reline move)

/-- A piece that begins some lines further down gives the item with its line moved. -/
theorem ofPiece?_add (line more : Nat) (p : Piece) :
    ofPiece? (line + more) p = (ofPiece? line p).map (reline (· + more)) := by
  simp only [ofPiece?]
  split <;> rfl

/-- Pieces that begin on a later line give the same items on later lines. -/
theorem ofPieces_add (line more : Nat) (ps : List Piece) :
    ofPieces (line + more) ps = (ofPieces line ps).map (reline (· + more)) := by
  induction ps generalizing line with
  | nil => rfl
  | cons p ps ih =>
    simp only [ofPieces]
    rw [Nat.add_right_comm, ofPiece?_add, ih]
    cases ofPiece? (line + p.span.count '\n') p <;> rfl

/-- Every row of items ends with the mark, so there is one at least. -/
theorem ofPieces_ne_nil (line : Nat) (ps : List Piece) : ofPieces line ps ≠ [] := by
  intro h
  have := getLast?_ofPieces line ps
  rw [h] at this
  cases this

/-- The items of pieces in a row: the mark of the end goes, and lines are counted on. -/
theorem ofPieces_append (line : Nat) (ps qs : List Piece) :
    ofPieces line (ps ++ qs) =
      (ofPieces line ps).dropLast ++ ofPieces (line + (ps.flatMap Piece.span).count '\n') qs := by
  induction ps generalizing line with
  | nil => rfl
  | cons p ps ih =>
    simp only [List.cons_append, ofPieces, List.flatMap_cons, List.count_append]
    rw [ih, Nat.add_assoc]
    split
    · rfl
    · rw [List.dropLast_cons_of_ne_nil (ofPieces_ne_nil _ _), List.cons_append]

/-- A fault among the pieces is a fault among the items. -/
theorem exists_fault_of_mem (line : Nat) {ps : List Piece} {p : Piece} {cause : LexicalCause}
    (hp : p ∈ ps) (hcause : p.reading = .fault cause) :
    ∃ f ∈ (ofPieces line ps).filterMap fault?, f.cause = cause := by
  induction ps generalizing line with
  | nil => cases hp
  | cons q ps ih =>
    simp only [ofPieces]
    rcases List.mem_cons.1 hp with rfl | hp
    · simp only [ofPiece?, hcause]
      exact ⟨⟨cause, line + p.span.count '\n'⟩, by simp [fault?], rfl⟩
    · obtain ⟨f, hf, hcause⟩ := ih (line + q.span.count '\n') hp
      split
      · exact ⟨f, hf, hcause⟩
      · next item _ =>
        refine ⟨f, ?_, hcause⟩
        rw [List.filterMap_cons]
        split
        · exact hf
        · exact List.mem_cons_of_mem _ hf

/-- Only the mark behind the items is of the kind of the end. -/
theorem kind_ne_eof_of_mem {line : Nat} {ps : List Piece} {t : Token}
    (hps : ∀ p ∈ ps, ∀ literal, p.reading ≠ .token .eof literal)
    (h : .token t ∈ (ofPieces line ps).dropLast) : t.kind ≠ .eof := by
  induction ps generalizing line with
  | nil => cases h
  | cons p ps ih =>
    obtain ⟨hp, hps⟩ := List.forall_mem_cons.1 hps
    simp only [ofPieces] at h
    split at h
    · exact ih hps h
    · next item hitem =>
      rw [List.dropLast_cons_of_ne_nil (ofPieces_ne_nil _ _)] at h
      rcases List.mem_cons.1 h with rfl | h
      · unfold ofPiece? at hitem
        split at hitem
        · cases hitem
        · next kind literal hreading =>
          cases hitem
          rintro rfl
          exact hp literal hreading
        · cases hitem
      · exact ih hps h

end Item

namespace Source

/-- The tokens of a source before the mark of the end. -/
def body (source : String) : List Token :=
  (items source).dropLast.filterMap Item.token?

/-- The items of a source are those before the mark, and the mark behind the last line. -/
theorem items_eq_dropLast_append (source : String) :
    items source =
      (items source).dropLast ++ [.token (Item.endMark (1 + source.toList.count '\n'))] := by
  obtain ⟨init, last, heq⟩ := List.eq_nil_or_concat (items source) |>.resolve_left
    (Item.ofPieces_ne_nil _ _)
  have hlast := getLast?_items source
  rw [List.concat_eq_append] at heq
  rw [heq, List.getLast?_concat] at hlast
  cases hlast
  rw [heq, List.dropLast_concat]

/-- The tokens of a source are those before the mark of the end, and the mark on the last line. -/
theorem tokens_eq (source : String) :
    tokens source = body source ++ [Item.endMark (1 + source.toList.count '\n')] := by
  rw [tokens, items_eq_dropLast_append, List.filterMap_append]
  rfl

/-- No token before the mark of the end is one. -/
theorem kind_ne_eof_of_mem_body {source : String} {t : Token} (h : t ∈ body source) :
    t.kind ≠ .eof := by
  obtain ⟨item, hitem, heq⟩ := List.mem_filterMap.1 h
  cases item with
  | fault f => cases heq
  | token t' =>
    cases heq
    refine Item.kind_ne_eof_of_mem (fun p hp literal => ?_) hitem
    obtain ⟨c, rest, hread⟩ := Piece.exists_readFrom_of_mem hp
    rw [hread]
    exact Piece.readFrom_ne_eof c rest literal

/-- A source that leaves no string open has, before a newline and another source, the same items but the
mark of the end; those of the other source follow, on lines counted on. -/
theorem items_append_newline {source : String} (other : String)
    (h : ∀ f ∈ faults source, f.cause ≠ .unterminatedString) :
    items (source ++ "\n" ++ other) =
      (items source).dropLast ++
        (items other).map (Item.reline (· + (1 + source.toList.count '\n'))) := by
  have hopen : ∀ p ∈ Piece.pieces source.toList, p.reading ≠ .fault .unterminatedString := by
    intro p hp hcause
    obtain ⟨f, hf, hcause⟩ := Item.exists_fault_of_mem 1 hp hcause
    exact h f hf hcause
  have htext : (source ++ "\n" ++ other).toList = source.toList ++ '\n' :: other.toList := by simp
  simp only [items, htext, Piece.pieces_append_newline _ hopen, Item.ofPieces_append,
    Piece.flatMap_span_pieces]
  rw [← Item.ofPieces_add]
  congr 1
  simp only [Item.ofPieces, Item.ofPiece?, List.count_singleton_self]
  congr 1
  omega

/-- The tokens of two sources with a newline between them. -/
theorem body_append_newline {source : String} (other : String)
    (h : ∀ f ∈ faults source, f.cause ≠ .unterminatedString) :
    body (source ++ "\n" ++ other) =
      body source ++ (body other).map (Token.reline (· + (1 + source.toList.count '\n'))) := by
  have hmap : ∀ (move : Nat → Nat) (l : List Item),
      (l.map (Item.reline move)).filterMap Item.token? =
        (l.filterMap Item.token?).map (Token.reline move) := by
    intro move l
    rw [List.filterMap_map, List.map_filterMap]
    congr 1
    funext item
    cases item <;> rfl
  have hne : (items other).map (Item.reline (· + (1 + source.toList.count '\n'))) ≠ [] := by
    rw [Ne, List.map_eq_nil_iff]
    exact Item.ofPieces_ne_nil _ _
  rw [body, items_append_newline other h, List.dropLast_append_of_ne_nil hne, List.filterMap_append,
    ← List.map_dropLast, hmap]
  rfl

/-- The lexical faults of two sources with a newline between them. -/
theorem faults_append_newline {source : String} (other : String)
    (h : ∀ f ∈ faults source, f.cause ≠ .unterminatedString) :
    faults (source ++ "\n" ++ other) =
      faults source ++
        (faults other).map (LexicalFault.reline (· + (1 + source.toList.count '\n'))) := by
  have hmap : ∀ (move : Nat → Nat) (l : List Item),
      (l.map (Item.reline move)).filterMap Item.fault? =
        (l.filterMap Item.fault?).map (LexicalFault.reline move) := by
    intro move l
    rw [List.filterMap_map, List.map_filterMap]
    congr 1
    funext item
    cases item <;> rfl
  have hmark : faults source = (items source).dropLast.filterMap Item.fault? := by
    rw [faults, items_eq_dropLast_append, List.filterMap_append, List.dropLast_concat]
    exact List.append_nil _
  rw [faults, items_append_newline other h, List.filterMap_append, hmap, ← hmark]
  rfl

end Source

end LoxLang
