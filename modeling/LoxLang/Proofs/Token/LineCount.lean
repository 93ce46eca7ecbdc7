import LoxLang.Proofs.Token.Tiling

/-!
# Items stand on the line where they end

The scanner counts newlines as it goes: in white space and inside of strings. Comments hold none, since a comment
ends before its newline. So the line at a place is known from the text before it, and what a call answers
stands on the line that is reached behind its span (`ExactLine`): a string that goes over several lines stands on
the last of them. The pieces before an item are in the text before it, whatever they are, which makes this an
induction over the pieces. Lines never decrease, as a piece can only add to them.
-/

namespace LoxLang

namespace Item

/-- The line of an item. -/
def line : Item → Nat
  | token t => t.line
  | fault f => f.line

/-- The item of a piece stands on the line that it is given. -/
theorem line_of_ofPiece? {last : Nat} {p : Piece} {item : Item} (h : ofPiece? last p = some item) :
    item.line = last := by
  unfold ofPiece? at h
  split at h <;> cases h <;> rfl

/-- The items of pieces stand on the line where the pieces begin or behind it. -/
theorem le_line_of_mem {first : Nat} {ps : List Piece} {item : Item} (h : item ∈ ofPieces first ps) :
    first ≤ item.line := by
  induction ps generalizing first with
  | nil =>
    obtain rfl := List.mem_singleton.1 h
    exact Nat.le_refl first
  | cons p ps ih =>
    rw [ofPieces] at h
    split at h
    · exact Nat.le_trans (Nat.le_add_right _ _) (ih h)
    · next item' hitem =>
      rcases List.mem_cons.1 h with rfl | h
      · exact line_of_ofPiece? hitem ▸ Nat.le_add_right _ _
      · exact Nat.le_trans (Nat.le_add_right _ _) (ih h)

/-- Along the items of pieces in a row the lines never decrease. -/
theorem pairwise_line_ofPieces (first : Nat) (ps : List Piece) :
    (ofPieces first ps).Pairwise fun item other => item.line ≤ other.line := by
  induction ps generalizing first with
  | nil => exact List.pairwise_singleton _ _
  | cons p ps ih =>
    rw [ofPieces]
    split
    · exact ih _
    · next item hitem =>
      refine List.pairwise_cons.2 ⟨fun other hother => ?_, ih _⟩
      rw [line_of_ofPiece? hitem]
      exact le_line_of_mem hother

end Item

namespace Scanner

/-- What a call answers stands on the line that is reached at the end of its span: there are as many newlines in
the text up to there as lines before that one. The mark of the end has no span, and all of the text is before
it. -/
structure ExactLine (text : List Char) (call : Call) : Prop where
  spanned : ∀ item first last, call.item = some item → call.own = some (first, last) →
    ∃ before, slice text 0 last = .ok before ∧ item.line = 1 + before.count '\n'
  unspanned : call.own = none → call.item = some (.token (Item.endMark (1 + text.count '\n')))

/-- Each call that answers pieces stands on its exact line, whatever text is before them. -/
theorem exactLine_of_mem_callsOf {text before : List Char} {ps : List Piece}
    (htext : text = before ++ ps.flatMap Piece.span) (skipped : List (Nat × Nat)) :
    ∀ call ∈ callsOf (size before) (1 + before.count '\n') skipped ps, ExactLine text call := by
  induction ps generalizing before skipped with
  | nil =>
    refine List.forall_mem_singleton.2 ⟨?_, fun _ => ?_⟩
    · rintro _ _ _ - ⟨⟩
    · rw [htext, List.flatMap_nil, List.append_nil]
  | cons p ps ih =>
    have hbehind : text = (before ++ p.span) ++ ps.flatMap Piece.span := by
      rw [htext, List.flatMap_cons, List.append_assoc]
    have hmore := ih hbehind
    rw [size_append, List.count_append, ← Nat.add_assoc] at hmore
    rw [callsOf]
    cases hitem : Item.ofPiece? (1 + before.count '\n' + p.span.count '\n') p with
    | none => exact hmore _
    | some item =>
      refine List.forall_mem_cons.2 ⟨⟨?_, by rintro ⟨⟩⟩, hmore []⟩
      rintro _ _ _ ⟨⟩ ⟨⟩
      have hstands : Stands text 0 ((before ++ p.span) ++ ps.flatMap Piece.span) :=
        hbehind ▸ stands_origin text
      have hslice := hstands.slice_eq
      rw [Nat.zero_add, size_append] at hslice
      refine ⟨before ++ p.span, hslice, ?_⟩
      rw [Item.line_of_ofPiece? hitem, List.count_append, Nat.add_assoc]

/-- Calls on a source answer its items, each on the line where it ends. -/
theorem exists_calls_exactLine (source : String) :
    ∃ answers : List Call,
      (∀ more, calls source.toList (source.utf8ByteSize + 1) (answers.length + more) origin =
        .ok (answers ++ List.replicate more silent)) ∧
      answers.map Call.item = (Source.items source).map some ∧
      ∀ call ∈ answers, ExactLine source.toList call := by
  have hsize : size source.toList = source.utf8ByteSize := by
    rw [← utf8ByteSize_ofList, String.ofList_toList]
  have hbound : size source.toList < source.utf8ByteSize + 1 := hsize ▸ Nat.lt_succ_self _
  have hawaits : Awaits source.toList origin (callsOf 0 1 [] (Piece.pieces source.toList)) :=
    .inr ⟨_, stands_origin source.toList, rfl⟩
  have htext : source.toList = [] ++ (Piece.pieces source.toList).flatMap Piece.span := by
    rw [List.nil_append, Piece.flatMap_span_pieces]
  exact ⟨_, hawaits.calls_eq hbound, map_item_callsOf 0 1 [] _, exactLine_of_mem_callsOf htext []⟩

end Scanner

end LoxLang
