import LoxLang.Token.Basic

/-!
# Cutting source into pieces

Source text is cut into pieces from the front. A piece is a blank (white space or a comment), a token,
or a fault that reading steps over. `readFrom c rest` says what the piece beginning with `c` is and how
many characters of `rest` belong to it; `pieces` cuts a whole text. The pieces tile the text: their
spans, one after the other, are the text (`flatMap_span_pieces`), and none is empty.
-/

namespace LoxLang

/-- Why a stretch of source is no token. -/
inductive LexicalCause where
  | unterminatedString
  | multipleDots
  | unexpectedCharacter
  deriving DecidableEq, Repr

/-- The text of a lexical fault. -/
def LexicalCause.message : LexicalCause → String
  | unterminatedString => "Unterminated string."
  | multipleDots => "Multiple dots in number."
  | unexpectedCharacter => "Unexpected character."

/-- What a piece of source is read as. -/
inductive Reading where
  | blank
  | token (kind : Kind) (literal : Option Literal)
  | fault (cause : LexicalCause)
  deriving DecidableEq

/-- A stretch of source and what it is read as. -/
structure Piece where
  span : List Char
  reading : Reading
  deriving DecidableEq

namespace Piece

/-! ## Character classes -/

/-- The characters a word can begin with. -/
def isWordStart (c : Char) : Bool :=
  c.isAlpha || c == '_'

/-- The characters a word can go on with. -/
def isWordPart (c : Char) : Bool :=
  c.isAlphanum || c == '_'

/-- White space inside a line, and the end of a line. -/
def isBlank (c : Char) : Bool :=
  c == ' ' || c == '\t' || c == '\r' || c == '\n'

/-- The tokens of one character that begin no longer token. -/
def punctuation? (c : Char) : Option Kind :=
  if c = '(' then some .leftParen
  else if c = ')' then some .rightParen
  else if c = '\x7b' then some .leftBrace
  else if c = '\x7d' then some .rightBrace
  else if c = ',' then some .comma
  else if c = '-' then some .minus
  else if c = '+' then some .plus
  else if c = ';' then some .semicolon
  else if c = '*' then some .star
  else none

/-- The operators that an equals sign can follow, alone and with it. -/
def operator? (c : Char) : Option (Kind × Kind) :=
  if c = '!' then some (.bang, .bangEqual)
  else if c = '=' then some (.equal, .equalEqual)
  else if c = '<' then some (.less, .lessEqual)
  else if c = '>' then some (.greater, .greaterEqual)
  else none

/-! ## Reading one piece -/

/-- How many characters at the front satisfy a test. -/
def run (p : Char → Bool) (cs : List Char) : Nat :=
  (cs.takeWhile p).length

/-- A point with a digit behind it. -/
def beginsFraction : List Char → Bool
  | '.' :: d :: _ => d.isDigit
  | _ => false

/-- The number written by digits before and after a point. -/
def numeral (whole fraction : List Char) : Reading :=
  let d : Decimal := ⟨Nat.ofDigitChars 10 (whole ++ fraction) 0, -(fraction.length : Int)⟩
  .token .number (some (.number d.toFloat))

/-- A number that begins with the digit `c`: digits, and a fraction if a point and a digit follow. -/
def readNumber (c : Char) (rest : List Char) : Reading × Nat :=
  let n := run Char.isDigit rest
  let whole := c :: rest.take n
  let after := rest.drop n
  if beginsFraction after then
    let k := run Char.isDigit (after.drop 1)
    (numeral whole ((after.drop 1).take k), n + 1 + k)
  else (numeral whole [], n)

/-- What follows a point: the digits of a fraction, unless a second fraction follows them. -/
def readPoint (rest : List Char) : Reading × Nat :=
  let n := run Char.isDigit rest
  if n = 0 then (.token .dot none, 0)
  else if beginsFraction (rest.drop n) then (.fault .multipleDots, n)
  else (numeral [] (rest.take n), n)

/-- What follows a quote: everything up to the next quote, or all the rest if there is none. -/
def readString (rest : List Char) : Reading × Nat :=
  let n := run (· != '"') rest
  if n < rest.length then
    (.token .string (some (.string (String.ofList (rest.take n)))), n + 1)
  else (.fault .unterminatedString, n)

/-- What follows a slash: a second slash makes it a comment up to the end of the line. -/
def readSlash : List Char → Reading × Nat
  | '/' :: rest => (.blank, 1 + run (· != '\n') rest)
  | _ => (.token .slash none, 0)

/-- What the piece that begins with `c` is read as, and how many of the characters behind `c` belong
to it. -/
def readFrom (c : Char) (rest : List Char) : Reading × Nat :=
  if isBlank c then (.blank, 0)
  else if let some kind := punctuation? c then (.token kind none, 0)
  else if let some (alone, withEqual) := operator? c then
    if rest.head? = some '=' then (.token withEqual none, 1) else (.token alone none, 0)
  else if c = '.' then readPoint rest
  else if c = '/' then readSlash rest
  else if c = '"' then readString rest
  else if c.isDigit then readNumber c rest
  else if isWordStart c then
    let n := run isWordPart rest
    (.token (Kind.ofWord (c :: rest.take n)) none, n)
  else (.fault .unexpectedCharacter, 0)

/-! ## Cutting a whole text -/

/-- The pieces of a text whose first `skip` characters belong to a piece already cut. -/
def piecesAfter : Nat → List Char → List Piece
  | _, [] => []
  | skip + 1, _ :: rest => piecesAfter skip rest
  | 0, c :: rest =>
    let (reading, n) := readFrom c rest
    ⟨c :: rest.take n, reading⟩ :: piecesAfter n rest

/-- The pieces of a text. -/
def pieces (text : List Char) : List Piece :=
  piecesAfter 0 text

/-- The pieces behind the characters to be skipped are those of what is left. -/
theorem piecesAfter_eq_pieces_drop (skip : Nat) (text : List Char) :
    piecesAfter skip text = pieces (text.drop skip) := by
  induction text generalizing skip with
  | nil => simp [piecesAfter, pieces]
  | cons c rest ih =>
    cases skip with
    | zero => rfl
    | succ skip => simp [piecesAfter, ih]

@[simp] theorem pieces_nil : pieces [] = [] := rfl

/-- The first piece of a text, and the pieces of what is left. -/
theorem pieces_cons (c : Char) (rest : List Char) :
    pieces (c :: rest) =
      ⟨c :: rest.take (readFrom c rest).2, (readFrom c rest).1⟩ ::
        pieces (rest.drop (readFrom c rest).2) := by
  rw [← piecesAfter_eq_pieces_drop]; rfl

/-- The spans of the pieces, put together, are the text behind the characters to be skipped. -/
theorem flatMap_span_piecesAfter (skip : Nat) (text : List Char) :
    (piecesAfter skip text).flatMap Piece.span = text.drop skip := by
  induction text generalizing skip with
  | nil => simp [piecesAfter]
  | cons c rest ih =>
    cases skip with
    | zero => simp [piecesAfter, ih]
    | succ skip => simp [piecesAfter, ih]

/-- The spans of the pieces of a text, one after the other, are the text. -/
theorem flatMap_span_pieces (text : List Char) : (pieces text).flatMap Piece.span = text := by
  simp [pieces, flatMap_span_piecesAfter]

end Piece

end LoxLang
