import LoxLang.Proofs.Token.ScannerLexeme

/-!
# The scanner tiles its input

What calls answer is known from the pieces of the text (`callsOf`): one item after the other, each behind the
blanks that were skipped before it. `Awaits` says this of a place between two calls, and is kept by each
(`Awaits.next_eq`); from it follows what any number of calls answers (`Awaits.calls_eq`) and what they give in
all (`Awaits.drain_eq`).

The spans of the calls are those of the pieces (`flatMap_spans_callsOf`), so they tile the text: none is empty,
each begins where the one before it ends, and their texts, one behind the other, are the whole
(`calls_tile_source`).
-/

namespace LoxLang

namespace Scanner

open Lexical Piece

/-! ## The calls that pieces answer -/

/-- The calls that answer pieces which begin at an offset and on a line, behind blanks that were skipped. -/
def callsOf (offset line : Nat) (skipped : List (Nat × Nat)) : List Piece → List Call
  | [] => [⟨some (.token (Item.endMark line)), skipped, none⟩]
  | p :: ps =>
    let behind := offset + size p.span
    let last := line + p.span.count '\n'
    match Item.ofPiece? last p with
    | none => callsOf behind last (skipped ++ [(offset, behind)]) ps
    | some item => ⟨some item, skipped, some (offset, behind)⟩ :: callsOf behind last [] ps

/-- The calls answer the items of the pieces. -/
theorem map_item_callsOf (offset line : Nat) (skipped : List (Nat × Nat)) (ps : List Piece) :
    (callsOf offset line skipped ps).map Call.item = (Item.ofPieces line ps).map some := by
  induction ps generalizing offset line skipped with
  | nil => rfl
  | cons p ps ih =>
    rw [callsOf, Item.ofPieces]
    cases Item.ofPiece? (line + p.span.count '\n') p with
    | none => exact ih _ _ _
    | some item => rw [List.map_cons, List.map_cons, ih]

/-- A call that answers nothing. -/
def silent : Call :=
  ⟨none, [], none⟩

/-- What is still to be answered from a place between two calls. -/
def Awaits (text : List Char) (s : Place) (answers : List Call) : Prop :=
  (size text < s.curr ∧ answers = []) ∨
    ∃ rest, Stands text s.curr rest ∧ answers = callsOf s.curr s.line [] (pieces rest)

section
variable {text rest : List Char} {s : Place} {bound : Nat}

/-- A round goes over one piece, and it is the last one unless the piece is a blank. -/
theorem nextLoop_round {c : Char} {reading : Reading} {n : Nat} (h : Stands text s.curr (c :: rest))
    (hread : readFrom c rest = (reading, n)) (hbound : size text < bound) (rounds : Nat)
    (skipped : List (Nat × Nat)) :
    let w := c :: rest.take n
    let s' := past { s with start := s.curr, pending := none } w
    nextLoop text bound (rounds + 1) skipped s =
      match Item.ofPiece? s'.line ⟨w, reading⟩ with
      | none => nextLoop text bound rounds (skipped ++ [(s.curr, s'.curr)]) s'
      | some item => .ok (⟨some item, skipped, some (s.curr, s'.curr)⟩, s') := by
  intro w s'
  have hsize := h.size_eq
  have hpos := c.utf8Size_pos
  rw [size_cons] at hsize
  have hscan : scanToken text bound { s with start := s.curr, pending := none } = .ok (outcome reading s') := by
    rw [scanToken_eq (s := { s with start := s.curr, pending := none }) h rfl hbound, hread]
  have hlexeme : slice text s.curr s'.curr = .ok w := (h.cut n).slice_eq
  rw [nextLoop, if_neg (by omega), if_neg (by omega), hscan, ok_bind]
  cases reading with
  | blank => rfl
  | fault cause => rfl
  | token kind literal =>
    refine (congrArg (· >>= _) hlexeme).trans ?_
    rfl

/-- The rounds of a call answer the first call of the pieces that are ahead. -/
theorem nextLoop_eq (rounds : Nat) (h : Stands text s.curr rest) (skipped : List (Nat × Nat))
    (hbound : size text < bound) (hrounds : rest.length < rounds) :
    ∃ call more s', callsOf s.curr s.line skipped (pieces rest) = call :: more ∧
      nextLoop text bound rounds skipped s = .ok (call, s') ∧ Awaits text s' more := by
  induction rounds generalizing s rest skipped with
  | zero => cases hrounds
  | succ rounds ih =>
    cases rest with
    | nil =>
      have hend : s.curr = size text := h.size_eq.symm
      rw [nextLoop, if_neg (by omega), if_pos hend]
      exact ⟨_, _, _, rfl, rfl, .inl ⟨by rw [hend]; exact Nat.lt_succ_self _, rfl⟩⟩
    | cons c rest =>
      cases hread : readFrom c rest with
      | mk reading n =>
      have hbehind := (h.cut n).move
      rw [nextLoop_round h hread hbound, pieces_cons, hread, callsOf]
      dsimp only [past]
      cases Item.ofPiece? (s.line + (c :: rest.take n).count '\n') ⟨c :: rest.take n, reading⟩ with
      | none =>
        -- A blank makes for another round, with fewer characters ahead.
        refine ih (s := past { s with start := s.curr, pending := none } (c :: rest.take n)) hbehind _ ?_
        exact Nat.lt_of_le_of_lt (List.drop_sublist n rest).length_le (Nat.lt_of_succ_lt_succ hrounds)
      | some item => exact ⟨_, _, _, rfl, rfl, .inr ⟨_, hbehind, rfl⟩⟩

/-- One call answers the first of what is awaited, and the rest is awaited behind it. -/
theorem Awaits.next_eq {answers : List Call} (h : Awaits text s answers) (hbound : size text < bound) :
    ∃ s', next text bound s = .ok (answers.headD silent, s') ∧ Awaits text s' answers.tail := by
  rcases h with ⟨hend, rfl⟩ | ⟨rest, hrest, rfl⟩
  · obtain ⟨bound, rfl⟩ : ∃ n, bound = n + 1 := ⟨bound - 1, by omega⟩
    refine ⟨s, ?_, .inl ⟨hend, rfl⟩⟩
    rw [next, nextLoop, if_pos hend]
    rfl
  · have hsize := hrest.size_eq
    have hle := length_le_size rest
    obtain ⟨call, more, s', hcalls, hnext, hmore⟩ :=
      nextLoop_eq bound hrest [] hbound (by omega)
    rw [hcalls]
    exact ⟨s', hnext, hmore⟩

/-- Calls answer what is awaited, and nothing from then on. -/
theorem Awaits.calls_eq {answers : List Call} (h : Awaits text s answers) (hbound : size text < bound)
    (more : Nat) :
    calls text bound (answers.length + more) s = .ok (answers ++ List.replicate more silent) := by
  induction answers generalizing s with
  | nil =>
    induction more generalizing s with
    | zero => rfl
    | succ more ih =>
      obtain ⟨s', hnext, hrest⟩ := h.next_eq hbound
      have hcalls := ih hrest
      rw [List.length_nil, Nat.zero_add] at hcalls ⊢
      rw [calls, hnext, ok_bind]
      dsimp only
      rw [hcalls]
      rfl
  | cons call answers ih =>
    obtain ⟨s', hnext, hrest⟩ := h.next_eq hbound
    rw [List.length_cons, Nat.add_right_comm, calls, hnext, ok_bind]
    dsimp only
    rw [ih hrest]
    rfl

/-- Calls up to the first that answers nothing collect the tokens and the faults. -/
theorem Awaits.drain_eq {answers : List Call} {items : List Item} {rounds : Nat} (h : Awaits text s answers)
    (hitems : answers.map Call.item = items.map some) (hbound : size text < bound)
    (hrounds : items.length < rounds) :
    drain text bound rounds s = .ok (items.filterMap Item.token?, items.filterMap Item.fault?) := by
  induction items generalizing s answers rounds with
  | nil =>
    obtain rfl := List.map_eq_nil_iff.1 hitems
    obtain ⟨rounds, rfl⟩ : ∃ n, rounds = n + 1 := ⟨rounds - 1, by omega⟩
    obtain ⟨s', hnext, -⟩ := h.next_eq hbound
    rw [drain, hnext, ok_bind]
    rfl
  | cons item items ih =>
    obtain ⟨call, answers, rfl, hitem, hitems⟩ := List.map_eq_cons_iff.1 hitems
    obtain ⟨rounds, rfl⟩ : ∃ n, rounds = n + 1 := ⟨rounds - 1, by omega⟩
    obtain ⟨s', hnext, hrest⟩ := h.next_eq hbound
    have hdrain := ih hrest hitems (Nat.lt_of_succ_lt_succ hrounds)
    rw [drain, hnext, ok_bind]
    dsimp only [List.headD_cons]
    rw [hitem]
    cases item with
    | token t =>
      dsimp only
      rw [hdrain]
      rfl
    | fault f =>
      dsimp only
      rw [hdrain]
      rfl

end

/-! ## Spans -/

/-- The spans of texts that stand one behind the other from an offset on. -/
def spansOf (offset : Nat) : List (List Char) → List (Nat × Nat)
  | [] => []
  | w :: ws => (offset, offset + size w) :: spansOf (offset + size w) ws

/-- Spans that are not empty, the first from one offset on, each from the end of the one before it on, and
the last up to another offset. -/
def Tiles (first : Nat) : List (Nat × Nat) → Nat → Prop
  | [], last => first = last
  | span :: spans, last => span.1 = first ∧ span.1 < span.2 ∧ Tiles span.2 spans last

/-- The texts that blanks are: single characters, and comments. -/
inductive IsSkipped : List Char → Prop where
  | blank {c : Char} (h : c ∈ blanks) : IsSkipped [c]
  | comment {body : List Char} (h : '\n' ∉ body) : IsSkipped ('/' :: '/' :: body)

/-- A call tells the truth about its spans: it skipped blanks, a token has a span, which is its lexeme, and a
fault has one, but not the mark of the end. -/
structure Truthful (text : List Char) (call : Call) : Prop where
  skipped : ∀ span ∈ call.skipped, ∃ w, slice text span.1 span.2 = .ok w ∧ IsSkipped w
  token : ∀ t, call.item = some (.token t) → t.kind ≠ .eof →
    ∃ span, call.own = some span ∧ slice text span.1 span.2 = .ok t.lexeme.toList
  fault : ∀ f, call.item = some (.fault f) → call.own.isSome
  eof : ∀ t, call.item = some (.token t) → t.kind = .eof → call.own = none

/-- The spans of the calls are those of the pieces. -/
theorem flatMap_spans_callsOf (offset line : Nat) (skipped : List (Nat × Nat)) (ps : List Piece) :
    (callsOf offset line skipped ps).flatMap Call.spans =
      skipped ++ spansOf offset (ps.map Piece.span) := by
  induction ps generalizing offset line skipped with
  | nil => simp [callsOf, spansOf, Call.spans]
  | cons p ps ih =>
    rw [callsOf, List.map_cons, spansOf]
    cases Item.ofPiece? (line + p.span.count '\n') p with
    | none =>
      dsimp only
      rw [ih, List.append_assoc, List.singleton_append]
    | some item =>
      dsimp only
      rw [List.flatMap_cons, ih, Call.spans, List.nil_append, List.append_assoc]
      rfl

/-- Spans of texts that are not empty tile the stretch that the texts take up together. -/
theorem tiles_spansOf (offset : Nat) {ws : List (List Char)} (hws : ∀ w ∈ ws, w ≠ []) :
    Tiles offset (spansOf offset ws) (offset + size ws.flatten) := by
  induction ws generalizing offset with
  | nil => rfl
  | cons w ws ih =>
    obtain ⟨hw, hws⟩ := List.forall_mem_cons.1 hws
    rw [List.flatten_cons, size_append, ← Nat.add_assoc]
    exact ⟨rfl, Nat.lt_add_of_pos_right (size_pos hw), ih (offset + size w) hws⟩

section
variable {text : List Char} {offset : Nat}

/-- The texts in the spans of texts that stand one behind the other are those texts. -/
theorem mapM_slice_spansOf {ws : List (List Char)} (h : Stands text offset ws.flatten) :
    (spansOf offset ws).mapM (fun span => slice text span.1 span.2) = .ok ws := by
  induction ws generalizing offset with
  | nil => rfl
  | cons w ws ih =>
    have hslice := h.slice_eq
    rw [spansOf, List.mapM_cons]
    dsimp only
    rw [hslice, ok_bind, ih h.move]
    rfl

/-- The ends of the spans lie between characters. -/
theorem exists_stands_of_mem_spansOf {ws : List (List Char)} {span : Nat × Nat}
    (h : Stands text offset ws.flatten) (hspan : span ∈ spansOf offset ws) :
    (∃ rest, Stands text span.1 rest) ∧ ∃ rest, Stands text span.2 rest := by
  induction ws generalizing offset with
  | nil => cases hspan
  | cons w ws ih =>
    rcases List.mem_cons.1 hspan with rfl | hspan
    · exact ⟨⟨_, h⟩, ⟨_, h.move⟩⟩
    · exact ih h.move hspan

/-- An offset behind whole characters of the source is a position of it, so its lexemes can be cut there. -/
theorem Stands.isValid {source : String} {rest : List Char} (h : Stands source.toList offset rest) :
    String.Pos.Raw.IsValid source ⟨offset⟩ := by
  obtain ⟨before, heq, rfl⟩ := h
  refine String.Pos.Raw.isValid_iff_exists_append.2 ⟨String.ofList before, String.ofList rest, ?_, ?_⟩
  · rw [← String.ofList_append, ← heq, String.ofList_toList]
  · rw [String.rawEndPos, utf8ByteSize_ofList]

end

/-! ## Calls and the text -/

/-- Every piece is a step from some text. -/
theorem exists_step_of_mem {skip : Nat} {text : List Char} {p : Piece} (h : p ∈ piecesAfter skip text) :
    ∃ rest, Step p.span rest p.reading := by
  induction text generalizing skip with
  | nil => cases skip <;> cases h
  | cons c rest ih =>
    cases skip with
    | succ skip => exact ih h
    | zero =>
      rcases List.mem_cons.1 h with rfl | h
      · exact ⟨_, readFrom_answers c rest⟩
      · exact ih h

/-- A step that reads a blank takes one blank character, or a whole comment. -/
theorem isSkipped_of_step {w rest : List Char} (h : Step w rest .blank) : IsSkipped w := by
  cases h with
  | blank h => exact .blank h
  | comment h _ => exact .comment h

/-- The calls that the pieces of a text answer are truthful, with what was skipped before them taken into account.
-/
theorem truthful_of_mem_callsOf {text : List Char} {offset line : Nat} {skipped : List (Nat × Nat)}
    {ps : List Piece} (h : Stands text offset (ps.flatMap Piece.span))
    (hps : ∀ p ∈ ps, ∃ rest, Step p.span rest p.reading)
    (heof : ∀ p ∈ ps, ∀ literal, p.reading ≠ .token .eof literal)
    (hskipped : ∀ span ∈ skipped, ∃ w, slice text span.1 span.2 = .ok w ∧ IsSkipped w) :
    ∀ call ∈ callsOf offset line skipped ps, Truthful text call := by
  induction ps generalizing offset line skipped with
  | nil =>
    intro call hcall
    obtain rfl := List.mem_singleton.1 hcall
    refine ⟨hskipped, ?_, nofun, fun _ _ _ => rfl⟩
    rintro _ ⟨⟩ hkind
    exact absurd rfl hkind
  | cons p ps ih =>
    obtain ⟨span, reading⟩ := p
    obtain ⟨hp, hsteps⟩ := List.forall_mem_cons.1 hps
    obtain ⟨hkind, hkinds⟩ := List.forall_mem_cons.1 heof
    have hslice := h.slice_eq
    have hbehind := h.move
    cases reading with
    | blank =>
      refine ih hbehind hsteps hkinds (List.forall_mem_append.2 ⟨hskipped, List.forall_mem_singleton.2 ?_⟩)
      obtain ⟨rest, hstep⟩ := hp
      exact ⟨span, hslice, isSkipped_of_step hstep⟩
    | token kind literal =>
      refine List.forall_mem_cons.2 ⟨⟨hskipped, ?_, nofun, ?_⟩, ih hbehind hsteps hkinds nofun⟩
      · rintro t ⟨⟩ -
        refine ⟨_, rfl, ?_⟩
        rw [String.toList_ofList]
        exact hslice
      · rintro t ⟨⟩ rfl
        exact absurd rfl (hkind literal)
    | fault cause =>
      exact List.forall_mem_cons.2 ⟨⟨hskipped, nofun, fun _ _ => rfl, nofun⟩, ih hbehind hsteps hkinds nofun⟩

/-- For every source, calls answer its items one by one, the mark of the end last, and nothing from then on,
without a misstep. The spans that they go over tile the source, with all ends between characters; a token has
its lexeme for a span, and what is skipped is blank. Draining the calls gives the tokens and the faults. -/
theorem calls_tile_source (source : String) (bound : Nat) (hbound : source.utf8ByteSize < bound) :
    ∃ answers : List Call,
      (∀ more, calls source.toList bound (answers.length + more) origin =
        .ok (answers ++ List.replicate more silent)) ∧
      answers.map Call.item = (Source.items source).map some ∧
      (∃ items line, Source.items source = items ++ [.token (Item.endMark line)] ∧
        ∀ t, .token t ∈ items → t.kind ≠ .eof) ∧
      Tiles 0 (answers.flatMap Call.spans) source.utf8ByteSize ∧
      (∀ span ∈ answers.flatMap Call.spans,
        String.Pos.Raw.IsValid source ⟨span.1⟩ ∧ String.Pos.Raw.IsValid source ⟨span.2⟩) ∧
      (∃ texts,
        (answers.flatMap Call.spans).mapM (fun span => slice source.toList span.1 span.2) = .ok texts ∧
          texts.flatten = source.toList) ∧
      (∀ call ∈ answers, Truthful source.toList call) ∧
      ∀ rounds, answers.length < rounds →
        drain source.toList bound rounds origin = .ok (Source.tokens source, Source.faults source) := by
  have hsize : size source.toList = source.utf8ByteSize := by
    rw [← utf8ByteSize_ofList, String.ofList_toList]
  rw [← hsize] at hbound
  have hstands : Stands source.toList 0 ((pieces source.toList).map Piece.span).flatten := by
    rw [← List.flatMap_def, flatMap_span_pieces]
    exact stands_origin source.toList
  have hawaits : Awaits source.toList origin (callsOf 0 1 [] (pieces source.toList)) :=
    .inr ⟨_, stands_origin source.toList, rfl⟩
  -- The pieces have the same items as the source, and the spans of the calls are where their texts stand.
  have hitems := map_item_callsOf 0 1 [] (pieces source.toList)
  have hspans := flatMap_spans_callsOf 0 1 [] (pieces source.toList)
  rw [List.nil_append] at hspans
  have hsteps : ∀ p ∈ pieces source.toList, ∃ rest, Step p.span rest p.reading :=
    fun _ => exists_step_of_mem
  have heof : ∀ p ∈ pieces source.toList, ∀ literal, p.reading ≠ .token .eof literal := by
    intro p hp literal
    obtain ⟨c, rest, hread⟩ := exists_readFrom_of_mem hp
    rw [hread]
    exact readFrom_ne_eof c rest literal
  have hne : ∀ w ∈ (pieces source.toList).map Piece.span, w ≠ [] := by
    refine List.forall_mem_map.2 fun p hp => ?_
    obtain ⟨rest, hstep⟩ := hsteps p hp
    obtain ⟨c, w, hspan⟩ := hstep.exists_cons
    exact hspan ▸ nofun
  refine ⟨callsOf 0 1 [] (pieces source.toList), hawaits.calls_eq hbound, hitems, ?_, ?_, ?_, ?_, ?_, ?_⟩
  · refine ⟨_, _, Source.items_eq_dropLast_append source, fun t ht => ?_⟩
    exact Item.kind_ne_eof_of_mem heof ht
  · rw [hspans, ← hsize]
    have htiles := tiles_spansOf 0 hne
    rwa [← List.flatMap_def, flatMap_span_pieces, Nat.zero_add] at htiles
  · rw [hspans]
    intro span hspan
    obtain ⟨⟨_, hfirst⟩, ⟨_, hlast⟩⟩ := exists_stands_of_mem_spansOf hstands hspan
    exact ⟨hfirst.isValid, hlast.isValid⟩
  · rw [hspans]
    refine ⟨_, mapM_slice_spansOf hstands, ?_⟩
    rw [← List.flatMap_def, flatMap_span_pieces]
  · exact truthful_of_mem_callsOf (List.flatMap_def ▸ hstands) hsteps heof nofun
  · intro rounds hrounds
    refine hawaits.drain_eq hitems hbound ?_
    have hlength := congrArg List.length hitems
    rw [List.length_map, List.length_map] at hlength
    exact hlength ▸ hrounds

/-- Two characters of two bytes, of which one is skipped whole and one is in a comment, a repeated point and an
open string. -/
theorem calls_tile_source_multibyte :
    "é // ß\n.5.5\"\n".utf8ByteSize < 16 ∧ ∃ answers : List Call,
      calls "é // ß\n.5.5\"\n".toList 16 7 origin = .ok (answers ++ [silent, silent]) ∧
      answers.flatMap Call.spans =
        [(0, 2), (2, 3), (3, 8), (8, 9), (9, 11), (11, 13), (13, 15)] ∧
      drain "é // ß\n.5.5\"\n".toList 16 6 origin =
        .ok (Source.tokens "é // ß\n.5.5\"\n", Source.faults "é // ß\n.5.5\"\n") := by
  have hbound : "é // ß\n.5.5\"\n".utf8ByteSize < 16 := by decide +kernel
  obtain ⟨answers, hcalls, hitems, -, -, -, -, -, hdrain⟩ := calls_tile_source _ 16 hbound
  have hlength : answers.length = 5 := by
    have hitems := congrArg List.length hitems
    rw [List.length_map, List.length_map] at hitems
    exact hitems.trans (by decide +kernel)
  have hcalls := hcalls 2
  rw [hlength] at hcalls
  have hspans : (calls "é // ß\n.5.5\"\n".toList 16 7 origin).toOption.map (·.flatMap Call.spans) =
      some [(0, 2), (2, 3), (3, 8), (8, 9), (9, 11), (11, 13), (13, 15)] := by
    decide +kernel
  rw [hcalls] at hspans
  have hall : (answers ++ [silent, silent]).flatMap Call.spans = _ := Option.some.inj hspans
  rw [List.flatMap_append] at hall
  exact ⟨hbound, answers, hcalls, (List.append_nil _).symm.trans hall, hdrain 6 (by rw [hlength]; decide)⟩

end Scanner

end LoxLang
