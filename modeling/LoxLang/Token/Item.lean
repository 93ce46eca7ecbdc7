import LoxLang.Token.Piece

/-!
# Reading source into tokens

An item is what reading a source yields: a token or a lexical fault, on the line where its span ends.
Blanks yield none, and the last item is the mark of the end. `Source.items` lists the items of a
source, `Source.tokens` the tokens among them and `Source.faults` the faults.
-/

namespace LoxLang

/-- A lexical fault and its line. -/
structure LexicalFault where
  cause : LexicalCause
  line : Nat
  deriving DecidableEq, Repr

/-- A token or a lexical fault. -/
inductive Item where
  | token (t : Token)
  | fault (f : LexicalFault)
  deriving DecidableEq

namespace Item

/-- The token of an item that is one. -/
def token? : Item → Option Token
  | token t => some t
  | fault _ => none

/-- The fault of an item that is one. -/
def fault? : Item → Option LexicalFault
  | token _ => none
  | fault f => some f

/-- The mark behind the last token of a source that ends on a line. -/
def endMark (line : Nat) : Token :=
  ⟨.eof, "", none, line⟩

/-- The item of a piece that ends on a line; a blank has none. -/
def ofPiece? (line : Nat) (p : Piece) : Option Item :=
  match p.reading with
  | .blank => none
  | .token kind literal => some (.token ⟨kind, String.ofList p.span, literal, line⟩)
  | .fault cause => some (.fault ⟨cause, line⟩)

/-- The items of pieces that begin on a line, each on the line where its span ends. -/
def ofPieces (line : Nat) : List Piece → List Item
  | [] => [.token (endMark line)]
  | p :: rest =>
    let last := line + p.span.count '\n'
    match ofPiece? last p with
    | none => ofPieces last rest
    | some item => item :: ofPieces last rest

end Item

namespace Source

/-- The items of a source, whose first line is line 1. -/
def items (source : String) : List Item :=
  Item.ofPieces 1 (Piece.pieces source.toList)

/-- The tokens of a source, the mark of the end included. -/
def tokens (source : String) : List Token :=
  (items source).filterMap Item.token?

/-- The lexical faults of a source. -/
def faults (source : String) : List LexicalFault :=
  (items source).filterMap Item.fault?

end Source

/-- The items of pieces end with the mark of the end, on the line that the pieces end on. -/
theorem Item.getLast?_ofPieces (line : Nat) (ps : List Piece) :
    (Item.ofPieces line ps).getLast? =
      some (.token (endMark (line + (ps.flatMap Piece.span).count '\n'))) := by
  induction ps generalizing line with
  | nil => simp [ofPieces]
  | cons p rest ih =>
    have hlast := ih (line + p.span.count '\n')
    rw [Nat.add_assoc, ← List.count_append, ← List.flatMap_cons] at hlast
    simp only [ofPieces]
    split
    · exact hlast
    · rw [List.getLast?_cons, hlast]; rfl

/-- The last item of a source is the mark of the end, on the last line. -/
theorem Source.getLast?_items (source : String) :
    (items source).getLast? =
      some (.token (Item.endMark (1 + source.toList.count '\n'))) := by
  rw [items, Item.getLast?_ofPieces, Piece.flatMap_span_pieces]

end LoxLang
