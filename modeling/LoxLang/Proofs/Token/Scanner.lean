import LoxLang.Proofs.Token.LongestMatch

/-!
# Scanning bytes

`Piece.pieces` cuts a text into pieces of characters. Here the same is done in the way a machine does it: the
text is a row of bytes, its UTF-8 encoding, and what is known between two steps is a few offsets into it. All
that may go wrong with offsets is an outcome of its own (`Misstep`): an index behind the last byte, a slice
whose ends do not lie between characters, a lexeme that is no number, and a loop that goes on for too long.

`next` answers the next item, and nothing once the mark of the end was answered. A call keeps the spans that it
went over, those of blanks apart from that of its item (`Call`).
-/

namespace LoxLang

/-- Why scanning breaks off. -/
inductive Misstep where
  | outOfRange
  | offBoundary
  | unreadable
  | unfinished
  deriving DecidableEq, Repr

/-- What is known between two steps: where the lexeme began, the next byte, the line, and the token that was
recognised. -/
structure Place where
  start : Nat
  curr : Nat
  line : Nat
  pending : Option (Kind × Option Literal)

/-- What a call answers, the spans of blanks it went over, and the span of what it answers. -/
structure Call where
  item : Option Item
  skipped : List (Nat × Nat)
  own : Option (Nat × Nat)

/-- The spans that a call went over. -/
def Call.spans (call : Call) : List (Nat × Nat) :=
  call.skipped ++ call.own.toList

namespace Scanner

open Lexical Piece

/-- The bytes of a text. -/
def bytes (text : List Char) : List UInt8 :=
  text.flatMap String.utf8EncodeChar

/-- The number of bytes of a text. -/
def size (text : List Char) : Nat :=
  (bytes text).length

/-- The character that a byte stands for if it stands for one alone. -/
def ascii (b : UInt8) : Char :=
  Char.ofUInt8 b

/-! ## Slices -/

/-- What follows a number of bytes, which have to be whole characters. -/
def dropBytes : Nat → List Char → Except Misstep (List Char)
  | 0, text => .ok text
  | _ + 1, [] => .error .outOfRange
  | n + 1, c :: text =>
    if c.utf8Size ≤ n + 1 then dropBytes (n + 1 - c.utf8Size) text else .error .offBoundary

/-- The characters in a number of bytes, which have to be whole characters. -/
def takeBytes : Nat → List Char → Except Misstep (List Char)
  | 0, _ => .ok []
  | _ + 1, [] => .error .outOfRange
  | n + 1, c :: text =>
    if c.utf8Size ≤ n + 1 then return c :: (← takeBytes (n + 1 - c.utf8Size) text)
    else .error .offBoundary

/-- The text between two offsets. -/
def slice (text : List Char) (first last : Nat) : Except Misstep (List Char) :=
  if first ≤ last then do takeBytes (last - first) (← dropBytes first text) else .error .outOfRange

/-- The bytes between two offsets. -/
def byteSlice (text : List Char) (first last : Nat) : Except Misstep (List UInt8) :=
  if first ≤ last ∧ last ≤ size text then .ok (((bytes text).take last).drop first)
  else .error .outOfRange

/-! ## Single bytes -/

section
variable (text : List Char)

/-- The byte at an offset. -/
def byteAt (offset : Nat) : Except Misstep UInt8 :=
  match (bytes text)[offset]? with
  | some b => .ok b
  | none => .error .outOfRange

/-- The next byte, which has to be there; the place moves behind it. -/
def advance (s : Place) : Except Misstep (UInt8 × Place) := do
  let b ← byteAt text s.curr
  return (b, { s with curr := s.curr + 1 })

/-- The next byte, or zero at the end. -/
def peek (s : Place) : Except Misstep UInt8 :=
  if size text ≤ s.curr then .ok 0 else byteAt text s.curr

/-- The byte behind the next one, or zero at the end. -/
def peekNext (s : Place) : Except Misstep UInt8 :=
  if size text ≤ s.curr + 1 then .ok 0 else byteAt text (s.curr + 1)

/-- Moves behind the next byte if it is the given one. -/
def matchByte (expected : UInt8) (s : Place) : Except Misstep (Bool × Place) :=
  if size text ≤ s.curr then .ok (false, s)
  else do
    if (← peek text s) = expected then
      let (_, s) ← advance text s
      return (true, s)
    else return (false, s)

/-- Moves over bytes that satisfy a test, in at most `bound` rounds. -/
def skipWhile (test : UInt8 → Bool) : Nat → Place → Except Misstep Place
  | 0, _ => .error .unfinished
  | bound + 1, s => do
    if test (← peek text s) then
      let (_, s) ← advance text s
      skipWhile test bound s
    else return s

/-! ## Lexemes -/

/-- What becomes of a lexeme: it is left to the place what token it is, or it is a fault. -/
abbrev Verdict := Except LexicalFault Unit

/-- The token that the lexeme is. -/
def emit (kind : Kind) (literal : Option Literal) (s : Place) : Verdict × Place :=
  (.ok (), { s with pending := some (kind, literal) })

/-- The fault that the lexeme is. -/
def refuse (cause : LexicalCause) (s : Place) : Verdict × Place :=
  (.error ⟨cause, s.line⟩, s)

/-- The number that the lexeme writes. -/
def emitNumber (s : Place) : Except Misstep (Verdict × Place) := do
  match decimal? (← slice text s.start s.curr) with
  | some d => return emit .number (some (.number d.toFloat)) s
  | none => .error .unreadable

/-- A number, behind its first byte. -/
def parseNumber (bound : Nat) (leadingDot : Bool) (s : Place) : Except Misstep (Verdict × Place) := do
  let whole ← skipWhile text (fun b => (ascii b).isDigit) bound s
  let fraction := ascii (← peek text whole) = '.' ∧ (ascii (← peekNext text whole)).isDigit
  if fraction ∧ leadingDot then return refuse .multipleDots whole
  else
    let last ←
      if fraction then do
        let (_, point) ← advance text whole
        skipWhile text (fun b => (ascii b).isDigit) bound point
      else pure whole
    emitNumber text last

/-- The rest of a string up to its quote; newlines in it are counted. -/
def skipString : Nat → Place → Except Misstep Place
  | 0, _ => .error .unfinished
  | bound + 1, s => do
    if size text ≤ s.curr then return s
    else if ascii (← peek text s) = '"' then return s
    else
      let (b, s) ← advance text s
      skipString bound (if ascii b = '\n' then { s with line := s.line + 1 } else s)

/-- A string, behind its first quote. -/
def parseString (bound : Nat) (s : Place) : Except Misstep (Verdict × Place) := do
  let s ← skipString text bound s
  if size text ≤ s.curr then return refuse .unterminatedString s
  else
    let (_, s) ← advance text s
    let body ← slice text (s.start + 1) (s.curr - 1)
    return emit .string (some (.string (String.ofList body))) s

/-- The kind of a word that is given by its bytes. -/
def kindOf (word : List UInt8) : Kind :=
  ((Kind.words.map fun entry => (bytes entry.1, entry.2)).lookup word).getD .identifier

/-- A word, behind its first byte. -/
def parseWord (bound : Nat) (s : Place) : Except Misstep (Verdict × Place) := do
  let s ← skipWhile text (fun b => isWordPart (ascii b)) bound s
  return emit (kindOf (← byteSlice text s.start s.curr)) none s

/-- A comment, behind its second slash: the place moves to the next newline, or to the end. -/
def skipComment (s : Place) : Except Misstep Place :=
  if s.curr ≤ size text then
    match ((bytes text).drop s.curr).findIdx? (ascii · = '\n') with
    | some n => .ok { s with curr := s.curr + n }
    | none => .ok { s with curr := size text }
  else .error .outOfRange

/-- A character that nothing begins with: the place moves behind the whole of it. -/
def skipCharacter (s : Place) : Except Misstep Place := do
  match ← dropBytes s.start text with
  | c :: _ => return { s with curr := s.start + c.utf8Size }
  | [] => return s

/-- What a first byte and those behind it are. -/
def scanFrom (bound : Nat) (first : UInt8) (s : Place) : Except Misstep (Verdict × Place) := do
  match classOf (ascii first) with
  | .blank => return (.ok (), if ascii first = '\n' then { s with line := s.line + 1 } else s)
  | .punctuation kind => return emit kind none s
  | .operator alone withEqual =>
    let (equal, s) ← matchByte text 61 s
    return emit (if equal then withEqual else alone) none s
  | .point =>
    if (ascii (← peek text s)).isDigit then parseNumber text bound true s
    else return emit .dot none s
  | .slash =>
    let (comment, s) ← matchByte text 47 s
    if comment then return (.ok (), ← skipComment text s) else return emit .slash none s
  | .quote => parseString text bound s
  | .digit => parseNumber text bound false s
  | .word => parseWord text bound s
  | .other => return refuse .unexpectedCharacter (← skipCharacter text s)

/-- The lexeme at the place. -/
def scanToken (bound : Nat) (s : Place) : Except Misstep (Verdict × Place) := do
  let (first, s) ← advance text s
  scanFrom text bound first s

/-! ## Items -/

/-- The rounds of one call: blanks are gone over, behind those that were skipped already. -/
def nextLoop (bound : Nat) : Nat → List (Nat × Nat) → Place → Except Misstep (Call × Place)
  | 0, _, _ => .error .unfinished
  | rounds + 1, skipped, s =>
    if size text < s.curr then .ok (⟨none, skipped, none⟩, s)
    else if s.curr = size text then
      .ok (⟨some (.token (Item.endMark s.line)), skipped, none⟩, { s with curr := s.curr + 1 })
    else do
      let (verdict, s) ← scanToken text bound { s with start := s.curr, pending := none }
      match verdict with
      | .error fault => return (⟨some (.fault fault), skipped, some (s.start, s.curr)⟩, s)
      | .ok () =>
        match s.pending with
        | some (kind, literal) =>
          let lexeme ← slice text s.start s.curr
          return (⟨some (.token ⟨kind, String.ofList lexeme, literal, s.line⟩), skipped,
            some (s.start, s.curr)⟩, { s with pending := none })
        | none => nextLoop bound rounds (skipped ++ [(s.start, s.curr)]) s

/-- One call. -/
def next (bound : Nat) (s : Place) : Except Misstep (Call × Place) :=
  nextLoop text bound bound [] s

/-- A number of calls. -/
def calls (bound : Nat) : Nat → Place → Except Misstep (List Call)
  | 0, _ => .ok []
  | n + 1, s => do
    let (call, s) ← next text bound s
    return call :: (← calls bound n s)

/-- Calls up to the first that answers nothing, at most `rounds` of them: the tokens and the faults. -/
def drain (bound : Nat) : Nat → Place → Except Misstep (List Token × List LexicalFault)
  | 0, _ => .error .unfinished
  | rounds + 1, s => do
    let (call, s) ← next text bound s
    match call.item with
    | none => return ([], [])
    | some (.token t) =>
      let (tokens, faults) ← drain bound rounds s
      return (t :: tokens, faults)
    | some (.fault f) =>
      let (tokens, faults) ← drain bound rounds s
      return (tokens, f :: faults)

end

/-- The place before the first byte. -/
def origin : Place :=
  ⟨0, 0, 1, none⟩

end Scanner

end LoxLang
