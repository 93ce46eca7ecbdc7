import Mathlib.Data.List.Chain
import Mathlib.Data.List.Forall2
import LoxLang.Proofs.Token.LongestMatch

/-!
# Lexemes laid out in a text

A lexeme is read whole if the character behind it cannot go on with it: `CharClass.Stops` says which
characters these are, by the class of the lexeme's first character, and `Denotes.step_of_stops` that one of
them, or the end of the text, is enough. A blank stops every lexeme.

So a text can be put together from lexemes with gaps between them (`Laid`). A gap is made of blanks and of
comments that end with their lines, each behind a blank, and it may be empty where the next lexeme stops the
one before it (`Apart`). Such a text is read as the tokens of its lexemes, without a fault (`Laid.source`).
-/

namespace LoxLang.Lexical

open LoxLang.Piece

/-! ## What stops a lexeme -/

/-- The character behind a lexeme of the class does not go on with it, nor does it make it a comment or a
fault. -/
def CharClass.Stops : CharClass → Char → Prop
  | operator _ _, d => d ≠ '='
  | point, d | digit, d => d.isDigit = false ∧ d ≠ '.'
  | slash, d => d ≠ '/'
  | word, d => isWordPart d = false
  | blank, _ | punctuation _, _ | quote, _ | other, _ => True

/-- A blank stops every lexeme. -/
theorem stops_of_mem_blanks {d : Char} (h : d ∈ blanks) (k : CharClass) : k.Stops d := by
  have hall : ∀ d ∈ blanks, d ≠ '=' ∧ d.isDigit = false ∧ d ≠ '.' ∧ d ≠ '/' ∧ isWordPart d = false := by
    simp [blanks, isWordPart]
  obtain ⟨hequal, hdigit, hpoint, hslash, hword⟩ := hall d h
  cases k with
  | operator => exact hequal
  | point | digit => exact ⟨hdigit, hpoint⟩
  | slash => exact hslash
  | word => exact hword
  | blank | punctuation | quote | other => trivial

/-- Nothing longer than the digits of a number, or than its digits, its point and the digits behind it, can
follow the first digit if neither a digit nor a point stands behind it. -/
theorem digit_tail_le {w rest w' : List Char} (hw : CharClass.digit.Tail w)
    (hrest : ∀ d ∈ rest.head?, d.isDigit = false ∧ d ≠ '.') (hw' : CharClass.digit.Tail w')
    (hahead : w' <+: w ++ rest) : w'.length ≤ w.length := by
  have hdigits : ∀ d ∈ rest.head?, d.isDigit = false := fun d hd => (hrest d hd).1
  have hpoint (more : List Char) : ¬ '.' :: more <+: rest := by
    rintro ⟨_, rfl⟩
    exact (hrest '.' rfl).2 rfl
  rcases hw with hall | ⟨digits, fraction, rfl, hall, hfraction⟩
  · have hrun := run_eq_length hall hdigits
    rcases hw' with hall' | ⟨digits', fraction', rfl, hall', -⟩
    · exact hrun ▸ length_le_run hahead hall'
    · obtain ⟨-, hbehind⟩ := eq_run_of_prefix hrun hall' rfl hahead
      exact absurd hbehind (hpoint fraction')
  · rw [List.append_assoc, List.cons_append] at hahead
    have hrun : run Char.isDigit (digits ++ '.' :: (fraction ++ rest)) = digits.length :=
      run_eq_length hall (by rintro _ ⟨⟩; rfl)
    rcases hw' with hall' | ⟨digits', fraction', rfl, hall', hfraction'⟩
    · have hle := length_le_run hahead hall'
      rw [hrun] at hle
      rw [List.length_append]
      omega
    · obtain ⟨rfl, hbehind⟩ := eq_run_of_prefix hrun hall' rfl hahead
      have hle := length_le_run (List.cons_prefix_cons.1 hbehind).2 hfraction'.2
      rw [run_eq_length hfraction.2 hdigits] at hle
      simpa using hle

/-- Only a quote ends a string. -/
theorem quote_tail_le {w rest w' : List Char} (hw : CharClass.quote.Tail w)
    (hw' : CharClass.quote.Tail w') (hahead : w' <+: w ++ rest) : w'.length ≤ w.length := by
  obtain ⟨body, rfl, hbody⟩ := hw
  obtain ⟨body', rfl, hbody'⟩ := hw'
  have hne {l : List Char} (hl : '"' ∉ l) : ∀ c ∈ l, (c != '"') = true := by
    intro c hc
    simpa using fun heq : c = '"' => hl (heq ▸ hc)
  have hrun : run (· != '"') (body ++ ('"' :: rest)) = body.length :=
    run_eq_length (hne hbody) (by rintro _ ⟨⟩; rfl)
  rw [List.append_assoc] at hahead
  have hle := length_le_run ((List.prefix_append body' ['"']).trans hahead) (hne hbody')
  rw [List.singleton_append, hrun] at hle
  simpa using hle

/-- A lexeme is read whole if what stands behind it stops it. -/
theorem Denotes.step_of_stops {c : Char} {w rest : List Char} {kind : Kind} {literal : Option Literal}
    (h : Denotes (c :: w) kind literal) (hrest : ∀ d ∈ rest.head?, (classOf c).Stops d) :
    Step (c :: w) rest (.token kind literal) := by
  obtain ⟨_, _, heq, htail⟩ := h.isLexeme.exists_tail
  cases heq
  -- A run of characters that go on with the lexeme ends where it is stopped.
  have hle : ∀ w', (classOf c).Tail w' → w' <+: w ++ rest → w'.length ≤ w.length := by
    intro w' htail' hahead
    cases hclass : classOf c with
    | blank | other =>
      rw [hclass] at htail
      exact htail.elim
    | punctuation | slash =>
      rw [hclass] at htail'
      obtain rfl : w' = [] := htail'
      exact Nat.zero_le _
    | operator =>
      rw [hclass] at htail htail' hrest
      rcases htail' with rfl | rfl
      · exact Nat.zero_le _
      · rcases htail with rfl | rfl
        · obtain ⟨more, rfl⟩ := hahead
          exact absurd rfl (hrest '=' rfl)
        · exact Nat.le_refl _
    | point =>
      rw [hclass] at htail htail' hrest
      exact run_eq_length htail (fun d hd => (hrest d hd).1) ▸ length_le_run hahead htail'
    | quote =>
      rw [hclass] at htail htail'
      exact quote_tail_le htail htail' hahead
    | digit =>
      rw [hclass] at htail htail' hrest
      exact digit_tail_le htail hrest htail' hahead
    | word =>
      rw [hclass] at htail htail' hrest
      exact run_eq_length htail hrest ▸ length_le_run hahead htail'
  refine .token ?_ ?_ (h.isLexeme.isLongest (List.prefix_append w rest) hle) h
  · rintro ⟨more, hmore⟩
    obtain ⟨rfl, hslash⟩ := List.cons.inj hmore
    obtain rfl : w = [] := htail
    cases rest with
    | nil => cases hslash
    | cons d rest => exact hrest d rfl (List.cons.inj hslash).1.symm
  · intro hrepeats
    cases hrepeats
    exact (hrest '.' rfl).2 rfl

/-! ## Gaps -/

/-- Blanks and comments, each comment behind a blank and up to the end of its line. The newline behind a
comment is a blank of its own, so it can stand before the next one. -/
inductive IsGap : List Char → Prop where
  | nil : IsGap []
  | blank {c : Char} {gap : List Char} (hc : c ∈ blanks) (hgap : IsGap gap) : IsGap (c :: gap)
  | comment {c : Char} {body gap : List Char} (hc : c ∈ blanks) (hbody : '\n' ∉ body)
      (hgap : IsGap ('\n' :: gap)) : IsGap (c :: '/' :: '/' :: (body ++ '\n' :: gap))

/-- A gap begins with a blank. -/
theorem IsGap.head?_mem_blanks {gap : List Char} (h : IsGap gap) : ∀ d ∈ gap.head?, d ∈ blanks := by
  cases h with
  | nil => nofun
  | blank hc _ | comment hc _ _ =>
    rintro _ ⟨⟩
    exact hc

/-- A blank or a comment before a text adds no item, but the newlines in it count. -/
theorem Step.ofPieces_blank {span rest : List Char} (h : Step span rest .blank) (line : Nat) :
    Item.ofPieces line (pieces (span ++ rest)) =
      Item.ofPieces (line + span.count '\n') (pieces rest) := by
  rw [h.pieces_eq, Item.ofPieces]
  rfl

/-- A token before a text adds its item. -/
theorem Step.ofPieces_token {span rest : List Char} {kind : Kind} {literal : Option Literal}
    (h : Step span rest (.token kind literal)) (line : Nat) :
    Item.ofPieces line (pieces (span ++ rest)) =
      .token ⟨kind, String.ofList span, literal, line + span.count '\n'⟩ ::
        Item.ofPieces (line + span.count '\n') (pieces rest) := by
  rw [h.pieces_eq, Item.ofPieces]
  rfl

/-- A gap has no items. -/
theorem IsGap.ofPieces_append {gap : List Char} (h : IsGap gap) (rest : List Char) (line : Nat) :
    Item.ofPieces line (pieces (gap ++ rest)) =
      Item.ofPieces (line + gap.count '\n') (pieces rest) := by
  induction h generalizing line with
  | nil => rfl
  | @blank c gap hc _ ih =>
    have hstep : Step [c] (gap ++ rest) .blank := .blank hc
    have hcount : (c :: gap).count '\n' = [c].count '\n' + gap.count '\n' := by
      rw [← List.count_append, List.singleton_append]
    rw [hcount, ← Nat.add_assoc, ← ih]
    exact hstep.ofPieces_blank line
  | @comment c body gap hc hbody _ ih =>
    have hstep : Step [c] ('/' :: '/' :: body ++ ('\n' :: gap ++ rest)) .blank := .blank hc
    have hcomment : Step ('/' :: '/' :: body) ('\n' :: gap ++ rest) .blank :=
      .comment hbody (by rintro _ ⟨⟩; rfl)
    have htext : c :: '/' :: '/' :: (body ++ '\n' :: gap) ++ rest =
        [c] ++ ('/' :: '/' :: body ++ ('\n' :: gap ++ rest)) := by simp
    have hcount : (c :: '/' :: '/' :: (body ++ '\n' :: gap)).count '\n' =
        [c].count '\n' + (('/' :: '/' :: body).count '\n' + ('\n' :: gap).count '\n') := by
      rw [← List.count_append, ← List.count_append]
      rfl
    rw [htext, hstep.ofPieces_blank, hcomment.ofPieces_blank, ih, hcount]
    simp only [Nat.add_assoc]

/-! ## Lexemes and gaps -/

/-- The text is the lexemes with gaps before, between and behind them. -/
inductive Laid : List (List Char) → List Char → Prop where
  | nil {gap : List Char} (hgap : IsGap gap) : Laid [] gap
  | cons {gap w text : List Char} {ws : List (List Char)} (hgap : IsGap gap) (htext : Laid ws text) :
      Laid (w :: ws) (gap ++ (w ++ text))

/-- The second lexeme stops the first one, so that there may be no gap between them. -/
def Apart (w w' : List Char) : Prop :=
  ∀ c ∈ w.head?, ∀ d ∈ w'.head?, (classOf c).Stops d

/-- The token is that of the lexeme, on some line. -/
def Spells (w : List Char) (t : Token) : Prop :=
  t.lexeme = String.ofList w ∧ Denotes w t.kind t.literal

/-- The token of a lexeme is of the kind and has the literal that the lexeme denotes. -/
theorem Spells.eq_of_denotes {w : List Char} {t : Token} {kind : Kind} {literal : Option Literal}
    (h : Spells w t) (hw : Denotes w kind literal) : t.kind = kind ∧ t.literal = literal :=
  Prod.ext_iff.1 (h.2.eq_denoted.symm.trans hw.eq_denoted)

/-- A text begins with a blank or with its first lexeme. -/
theorem Laid.head?_cases {ws : List (List Char)} {text : List Char} (h : Laid ws text)
    (hws : ∀ w ∈ ws, IsLexeme w) :
    ∀ d ∈ text.head?, d ∈ blanks ∨ ∃ w ∈ ws.head?, d ∈ w.head? := by
  intro d hd
  cases h with
  | nil hgap => exact .inl (hgap.head?_mem_blanks d hd)
  | @cons gap w text ws hgap htext =>
    cases gap with
    | cons c gap => exact .inl (hgap.head?_mem_blanks d hd)
    | nil =>
      obtain ⟨c, tail, rfl, -⟩ := (hws w List.mem_cons_self).exists_tail
      exact .inr ⟨_, rfl, hd⟩

/-- Lexemes that are laid out in a text are its tokens, and the text has no lexical fault. -/
theorem Laid.exists_ofPieces {ws : List (List Char)} {text : List Char} (h : Laid ws text)
    (hws : ∀ w ∈ ws, ∃ kind literal, Denotes w kind literal) (happart : ws.IsChain Apart) (line : Nat) :
    ∃ ts last, Item.ofPieces line (pieces text) = ts.map .token ++ [.token (Item.endMark last)] ∧
      List.Forall₂ Spells ws ts := by
  induction h generalizing line with
  | @nil gap hgap =>
    have hitems := hgap.ofPieces_append [] line
    rw [List.append_nil] at hitems
    exact ⟨[], _, hitems, .nil⟩
  | @cons gap w text ws hgap htext ih =>
    obtain ⟨⟨kind, literal, hw⟩, hothers⟩ := List.forall_mem_cons.1 hws
    obtain ⟨hnext, hchain⟩ := List.isChain_cons.1 happart
    obtain ⟨c, tail, rfl, -⟩ := hw.isLexeme.exists_tail
    have hlexemes : ∀ w ∈ ws, IsLexeme w := by
      intro w hmem
      obtain ⟨kind, literal, hw⟩ := hothers w hmem
      exact hw.isLexeme
    have hstops : ∀ d ∈ text.head?, (classOf c).Stops d := by
      intro d hd
      rcases htext.head?_cases hlexemes d hd with hblank | ⟨w', hw', hd'⟩
      · exact stops_of_mem_blanks hblank _
      · exact hnext w' hw' c rfl d hd'
    obtain ⟨ts, last, hitems, hspells⟩ :=
      ih hothers hchain (line + gap.count '\n' + (c :: tail).count '\n')
    have hfirst := (hw.step_of_stops hstops).ofPieces_token (line + gap.count '\n')
    rw [hitems, ← hgap.ofPieces_append, ← List.cons_append, ← List.map_cons] at hfirst
    exact ⟨_, last, hfirst, .cons ⟨rfl, hw⟩ hspells⟩

/-- A source in which lexemes are laid out has their tokens and no lexical fault. -/
theorem Laid.source {ws : List (List Char)} {text : List Char} (h : Laid ws text)
    (hws : ∀ w ∈ ws, ∃ kind literal, Denotes w kind literal) (happart : ws.IsChain Apart) :
    Source.faults (String.ofList text) = [] ∧
      List.Forall₂ Spells ws (Source.body (String.ofList text)) := by
  obtain ⟨ts, last, hitems, hspells⟩ := h.exists_ofPieces hws happart 1
  have htokens : (ts.map Item.token).filterMap Item.token? = ts := by
    rw [List.filterMap_map]
    exact List.filterMap_some
  have hfaults : (ts.map Item.token).filterMap Item.fault? = [] := by
    rw [List.filterMap_map]
    exact List.filterMap_eq_nil_iff.2 fun _ _ => rfl
  have hsource : Source.items (String.ofList text) =
      ts.map .token ++ [.token (Item.endMark last)] := by
    rw [Source.items, String.toList_ofList, hitems]
  constructor
  · rw [Source.faults, hsource, List.filterMap_append, hfaults]
    rfl
  · rw [Source.body, hsource, List.dropLast_concat, htokens]
    exact hspells

end LoxLang.Lexical
