import Mathlib.Data.List.Forall2
import LoxLang.Proofs.Token.Layout

/-!
# Texts that are put together

What is read from a text that was put together from others. Two sources with a newline between them are read
one after the other exactly if the first leaves no string open (`Source.items_append_newline_iff`). That it is
enough is known; that it is needed comes from the line of the fault: an open string takes all that is left, so
it is reported on the last line (`Lexical.Scans.line_eq_of_unterminated`), and the newline behind it moves the
report down by one.

The lexemes of a source with separators between them are read as the tokens they came from
(`Source.items_separated`). What else was in the source does not matter, be it a fault, because a token of a
source is known from its lexeme (`Source.denotes_of_mem_body`), and because a separator begins with a blank,
which stops every lexeme.
-/

namespace LoxLang

open Lexical Piece

/-! ## Two sources and a newline -/

namespace Lexical

/-- An open string is reported on the last line of the text. -/
theorem Scans.line_eq_of_unterminated {line : Nat} {text : List Char} {items : List Item}
    (h : Scans line text items) {f : LexicalFault} (hf : .fault f ∈ items)
    (hcause : f.cause = .unterminatedString) : f.line = line + text.count '\n' := by
  induction h with
  | done => simp at hf
  | blank _ _ ih => rw [ih hf, List.count_append, Nat.add_assoc]
  | token _ _ ih =>
    obtain hf := (List.mem_cons.1 hf).resolve_left nofun
    rw [ih hf, List.count_append, Nat.add_assoc]
  | fault hstep _ ih =>
    rcases List.mem_cons.1 hf with hfirst | hf
    · cases hfirst
      cases hcause
      -- Nothing is left behind the string.
      cases hstep
      rw [List.append_nil]
    · rw [ih hf, List.count_append, Nat.add_assoc]

/-- A token is of the kind and has the literal that its lexeme denotes. -/
theorem Scans.denotes {line : Nat} {text : List Char} {items : List Item} (h : Scans line text items)
    {t : Token} (ht : .token t ∈ items) (hkind : t.kind ≠ .eof) :
    Denotes t.lexeme.toList t.kind t.literal := by
  induction h with
  | done =>
    obtain ⟨⟩ := List.mem_singleton.1 ht
    exact absurd rfl hkind
  | blank _ _ ih => exact ih ht
  | token hstep _ ih =>
    rcases List.mem_cons.1 ht with hfirst | ht
    · cases hfirst
      cases hstep with
      | token _ _ _ hw => rwa [String.toList_ofList]
    · exact ih ht
  | fault _ _ ih => exact ih ((List.mem_cons.1 ht).resolve_left nofun)

end Lexical

namespace Source

/-- The faults of a source are those among its items. -/
theorem mem_faults_iff {source : String} {f : LexicalFault} :
    f ∈ faults source ↔ .fault f ∈ items source := by
  rw [faults, List.mem_filterMap]
  constructor
  · rintro ⟨_ | f, hmem, ⟨⟩⟩
    exact hmem
  · exact fun hmem => ⟨.fault f, hmem, rfl⟩

/-- Scanning is compositional at newlines. A source ends with the mark of the end; and the items of two sources
with a newline between them are those of the first without the mark and those of the second, on lines counted
on from the first, exactly if the first leaves no string open. Other faults of either source make no
difference. -/
theorem items_append_newline_iff (source other : String) :
    ∃ before, items source = before ++ [.token (Item.endMark (1 + source.toList.count '\n'))] ∧
      (items (source ++ "\n" ++ other) =
          before ++ (items other).map (Item.reline (· + (1 + source.toList.count '\n'))) ↔
        ∀ f ∈ faults source, f.cause ≠ .unterminatedString) := by
  refine ⟨_, items_eq_dropLast_append source, fun hitems f hf hcause => ?_, items_append_newline other⟩
  -- The fault would be reported on the last line of both texts, which have not as many lines.
  have hmem : .fault f ∈ (items source).dropLast := by
    have hf := mem_faults_iff.1 hf
    rw [items_eq_dropLast_append] at hf
    exact (List.mem_append.1 hf).resolve_right (by simp)
  have hboth : .fault f ∈ items (source ++ "\n" ++ other) := hitems ▸ List.mem_append_left _ hmem
  have hline := (scans_ofPieces 1 source.toList).line_eq_of_unterminated (mem_faults_iff.1 hf) hcause
  have hline' := (scans_ofPieces 1 _).line_eq_of_unterminated hboth hcause
  have htext : (source ++ "\n" ++ other).toList = source.toList ++ '\n' :: other.toList := by simp
  rw [htext, List.count_append, List.count_cons_self] at hline'
  omega

end Source

/-! ## Separators -/

namespace Lexical

/-- Blanks, and comments that are closed by a newline, in any order. -/
inductive IsFiller : List Char → Prop where
  | nil : IsFiller []
  | blank {c : Char} {rest : List Char} (hc : c ∈ blanks) (hrest : IsFiller rest) : IsFiller (c :: rest)
  | comment {body rest : List Char} (hbody : '\n' ∉ body) (hrest : IsFiller rest) :
      IsFiller ('/' :: '/' :: (body ++ '\n' :: rest))

/-- Blanks and closed comments, a blank first. -/
inductive IsSeparator : List Char → Prop where
  | mk {c : Char} {rest : List Char} (hc : c ∈ blanks) (hrest : IsFiller rest) : IsSeparator (c :: rest)

/-- The text is the lexemes in their order, with a separator between any two neighbours. -/
inductive Separated : List (List Char) → List Char → Prop where
  | nil : Separated [] []
  | single (w : List Char) : Separated [w] w
  | cons (w : List Char) {w' separator text : List Char} {ws : List (List Char)}
      (hseparator : IsSeparator separator) (htext : Separated (w' :: ws) text) :
      Separated (w :: w' :: ws) (w ++ (separator ++ text))

/-- A blank before a filler makes it a gap. -/
theorem IsFiller.isGap {rest : List Char} (h : IsFiller rest) {c : Char} (hc : c ∈ blanks) :
    IsGap (c :: rest) := by
  induction h generalizing c with
  | nil => exact .blank hc .nil
  | blank hc' _ ih => exact .blank hc (ih hc')
  | comment hbody _ ih => exact .comment hc hbody (ih (by decide))

/-- A separator is a gap, since its first blank stands before the first comment. -/
theorem IsSeparator.isGap {separator : List Char} (h : IsSeparator separator) : IsGap separator := by
  cases h with
  | mk hc hrest => exact hrest.isGap hc

/-- A separator stops whatever stands before it. -/
theorem IsSeparator.stops {separator : List Char} (h : IsSeparator separator) (text : List Char)
    (k : CharClass) : ∀ d ∈ (separator ++ text).head?, k.Stops d := by
  cases h with
  | mk hc _ =>
    rintro _ ⟨⟩
    exact stops_of_mem_blanks hc k

/-- A lexeme that is stopped is read as the token it denotes, and the rest on the lines behind it. -/
theorem Denotes.ofPieces_append {w rest : List Char} {kind : Kind} {literal : Option Literal}
    (h : Denotes w kind literal) (hrest : ∀ k : CharClass, ∀ d ∈ rest.head?, k.Stops d) (line : Nat) :
    Item.ofPieces line (pieces (w ++ rest)) =
      .token ⟨kind, String.ofList w, literal, line + w.count '\n'⟩ ::
        Item.ofPieces (line + w.count '\n') (pieces rest) := by
  obtain ⟨c, tail, rfl, -⟩ := h.isLexeme.exists_tail
  exact (h.step_of_stops (hrest _)).ofPieces_token line

/-- Lexemes with separators between them are read as their tokens, whatever the line they begin on. -/
theorem Separated.exists_ofPieces {ws : List (List Char)} {text : List Char} (h : Separated ws text)
    (hws : ∀ w ∈ ws, ∃ kind literal, Denotes w kind literal) (line : Nat) :
    ∃ ts, Item.ofPieces line (pieces text) =
        ts.map .token ++ [.token (Item.endMark (line + text.count '\n'))] ∧
      List.Forall₂ Spells ws ts := by
  induction h generalizing line with
  | nil => exact ⟨[], rfl, .nil⟩
  | single w =>
    obtain ⟨kind, literal, hw⟩ := hws w List.mem_cons_self
    have hend : ∀ k : CharClass, ∀ d ∈ ([] : List Char).head?, k.Stops d := fun _ => nofun
    have hitems := hw.ofPieces_append hend line
    rw [List.append_nil] at hitems
    exact ⟨[⟨kind, String.ofList w, literal, line + w.count '\n'⟩], hitems, .cons ⟨rfl, hw⟩ .nil⟩
  | @cons w w' separator text ws hseparator _ ih =>
    obtain ⟨⟨kind, literal, hw⟩, hothers⟩ := List.forall_mem_cons.1 hws
    obtain ⟨ts, hitems, hspells⟩ := ih hothers (line + w.count '\n' + separator.count '\n')
    have hfirst := hw.ofPieces_append (hseparator.stops text) line
    rw [hseparator.isGap.ofPieces_append, hitems] at hfirst
    refine ⟨⟨kind, String.ofList w, literal, line + w.count '\n'⟩ :: ts, ?_, .cons ⟨rfl, hw⟩ hspells⟩
    rw [hfirst, List.count_append, List.count_append, ← Nat.add_assoc, ← Nat.add_assoc]
    rfl

end Lexical

/-! ## The lexemes of a source -/

/-- What there is to a token but its line. -/
def Token.content (t : Token) : Kind × String × Option Literal :=
  (t.kind, t.lexeme, t.literal)

/-- Tokens that the lexemes of others spell are those others, but for their lines. -/
theorem Lexical.map_content_of_spells {tokens ts : List Token}
    (hdenotes : ∀ t ∈ tokens, Denotes t.lexeme.toList t.kind t.literal)
    (h : List.Forall₂ Spells (tokens.map (·.lexeme.toList)) ts) :
    ts.map Token.content = tokens.map Token.content := by
  induction tokens generalizing ts with
  | nil =>
    obtain rfl := List.forall₂_nil_left_iff.1 h
    rfl
  | cons t tokens ih =>
    obtain ⟨ht, hothers⟩ := List.forall_mem_cons.1 hdenotes
    obtain ⟨u, ts, hu, hts, rfl⟩ := List.forall₂_cons_left_iff.1 h
    obtain ⟨hkind, hliteral⟩ := hu.eq_of_denotes ht
    have hlexeme : u.lexeme = t.lexeme := hu.1.trans String.ofList_toList
    rw [List.map_cons, List.map_cons, ih hothers hts, Token.content, Token.content, hkind, hlexeme, hliteral]

namespace Source

/-- A token of a source is known from its lexeme. -/
theorem denotes_of_mem_body {source : String} {t : Token} (h : t ∈ body source) :
    Denotes t.lexeme.toList t.kind t.literal := by
  obtain ⟨item, hitem, heq⟩ := List.mem_filterMap.1 h
  cases item with
  | fault f => cases heq
  | token t' =>
    cases heq
    have hmem : .token t ∈ items source := (List.dropLast_sublist _).mem hitem
    exact (scans_ofPieces 1 source.toList).denotes hmem (kind_ne_eof_of_mem_body h)

/-- Rescanning lexemes gives their tokens again. Whatever the source, and whatever faults it has, put its
lexemes in a row, each two apart by a separator. The text is read without a fault: its items are tokens of the
same kinds, lexemes and literals in the same order, and the mark of the end. -/
theorem items_separated {source : String} {text : List Char}
    (h : Separated ((body source).map (·.lexeme.toList)) text) :
    faults (String.ofList text) = [] ∧
      ∃ ts : List Token, ts.map Token.content = (body source).map Token.content ∧
        items (String.ofList text) =
          ts.map .token ++ [.token (Item.endMark (1 + text.count '\n'))] := by
  have hdenotes : ∀ t ∈ body source, Denotes t.lexeme.toList t.kind t.literal :=
    fun t => denotes_of_mem_body
  obtain ⟨ts, hitems, hspells⟩ :=
    h.exists_ofPieces (List.forall_mem_map.2 fun t ht => ⟨_, _, hdenotes t ht⟩) 1
  have hsource : items (String.ofList text) =
      ts.map .token ++ [.token (Item.endMark (1 + text.count '\n'))] := by
    rw [items, String.toList_ofList, hitems]
  refine ⟨List.eq_nil_iff_forall_not_mem.2 fun f hf => ?_, ts, map_content_of_spells hdenotes hspells,
    hsource⟩
  rw [mem_faults_iff, hsource] at hf
  simp at hf

/-- A number that is cut off by a repeated point, a point behind a number, a string over two lines that looks
like a comment, and faults of all three kinds. -/
theorem items_separated_faultySource :
    (faults "1.2.3/7. .5.5 @\"//\n\"=\"").map (·.cause) =
        [.multipleDots, .unexpectedCharacter, .unterminatedString] ∧
      Separated ((body "1.2.3/7. .5.5 @\"//\n\"=\"").map (·.lexeme.toList))
        "1.2 .3\t/ //half\n7\n.\r//\n//\n .5 \"//\n\" =".toList ∧
      faults "1.2 .3\t/ //half\n7\n.\r//\n//\n .5 \"//\n\" =" = [] := by
  have hblank {c : Char} (hc : c ∈ blanks) : IsSeparator [c] := .mk hc .nil
  have hseparated : Separated ((body "1.2.3/7. .5.5 @\"//\n\"=\"").map (·.lexeme.toList))
      "1.2 .3\t/ //half\n7\n.\r//\n//\n .5 \"//\n\" =".toList := by
    have hwords : (body "1.2.3/7. .5.5 @\"//\n\"=\"").map (·.lexeme.toList) =
        [['1', '.', '2'], ['.', '3'], ['/'], ['7'], ['.'], ['.', '5'], ['"', '/', '/', '\n', '"'], ['=']] := by
      decide +kernel
    have hhalf : IsSeparator (' ' :: '/' :: '/' :: ("half".toList ++ ['\n'])) :=
      .mk (by decide) (.comment (by decide) .nil)
    have hempty : '\n' ∉ ([] : List Char) := nofun
    have htwo : IsSeparator ['\r', '/', '/', '\n', '/', '/', '\n', ' '] :=
      .mk (by decide) (.comment hempty (.comment hempty (.blank (by decide) .nil)))
    rw [hwords]
    exact .cons _ (hblank (by decide)) (.cons _ (hblank (by decide)) (.cons _ hhalf
      (.cons _ (hblank (by decide)) (.cons _ htwo (.cons _ (hblank (by decide))
        (.cons _ (hblank (by decide)) (.single _)))))))
  have hrescan := items_separated hseparated
  rw [String.ofList_toList] at hrescan
  exact ⟨by decide +kernel, hseparated, hrescan.1⟩

end Source

end LoxLang
