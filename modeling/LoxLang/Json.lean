import LoxLang.Number.Decimal

/-!
# JSON documents

A document keeps its members in the order they were given. `compact` writes it without blanks and
`indented` with two blanks for each level; an empty array or object has no line of its own. A number
is written with the fewest digits that read back and always as one with a fraction or an exponent;
what is no finite number is written as `null`.
-/

namespace LoxLang

/-- A JSON document; members of an object are kept in order. -/
inductive Json where
  | null
  | bool (b : Bool)
  | natural (n : Nat)
  | number (x : Float)
  | string (s : String)
  | array (items : List Json)
  | object (members : List (String × Json))

namespace Json

/-! ## Numbers -/

/-- Exponents of the leading digit from the first to the second are written without one. -/
def plainExponents : Int × Int := (-5, 15)

/-- A decimal with its point behind the leading digit and its exponent after it. -/
def scientific (d : Decimal) (exponent : Int) : List Char :=
  let mantissa := match d.digitChars with
    | [] => []
    | [c] => [c]
    | c :: cs => c :: '.' :: cs
  let mark := if exponent < 0 then ['e', '-'] else ['e', '+']
  mantissa ++ mark ++ Nat.toDigits 10 exponent.natAbs

/-- The text of a decimal as a JSON number. -/
def decimalText (d : Decimal) : List Char :=
  let exponent := (d.digitChars.length : Int) - 1 + d.exponent
  if plainExponents.1 ≤ exponent ∧ exponent ≤ plainExponents.2 then
    if d.exponent < 0 then d.plain else d.plain ++ ['.', '0']
  else scientific d exponent

/-- The text of a number; of two equally near shortest decimals the even one is taken. -/
def numberText (x : Float) : String :=
  match NumberClass.of x with
  | .nan | .infinite _ => "null"
  | .finite negative rank =>
    String.ofList ((if negative then ['-'] else []) ++ decimalText (Decimal.shortest .even rank))

/-! ## Strings -/

/-- Two lower-case hexadecimal digits. -/
def hexPair (n : Nat) : List Char :=
  [Nat.digitChar (n / 16 % 16), Nat.digitChar (n % 16)]

/-- A character inside a quoted string. -/
def escapeChar (c : Char) : List Char :=
  if c = '"' then ['\\', '"']
  else if c = '\\' then ['\\', '\\']
  else if c.toNat = 8 then ['\\', 'b']
  else if c = '\t' then ['\\', 't']
  else if c = '\n' then ['\\', 'n']
  else if c.toNat = 12 then ['\\', 'f']
  else if c = '\r' then ['\\', 'r']
  else if c.toNat < 32 then '\\' :: 'u' :: '0' :: '0' :: hexPair c.toNat
  else [c]

/-- A string in quotes. -/
def quote (s : String) : String :=
  String.ofList ('"' :: s.toList.flatMap escapeChar ++ ['"'])

/-! ## Documents -/

mutual

/-- A document without blanks. -/
def compact : Json → String
  | .null => "null"
  | .bool b => if b then "true" else "false"
  | .natural n => toString n
  | .number x => numberText x
  | .string s => quote s
  | .array items => "[" ++ String.intercalate "," (compactItems items) ++ "]"
  | .object members => "\x7b" ++ String.intercalate "," (compactMembers members) ++ "\x7d"

/-- The items of an array without blanks. -/
def compactItems : List Json → List String
  | [] => []
  | item :: rest => compact item :: compactItems rest

/-- The members of an object without blanks. -/
def compactMembers : List (String × Json) → List String
  | [] => []
  | (key, item) :: rest => (quote key ++ ":" ++ compact item) :: compactMembers rest

end

/-- The start of a line `depth` levels deep. -/
def newline (depth : Nat) : String :=
  "\n" ++ String.ofList (List.replicate (2 * depth) ' ')

/-- Lines between two brackets, each one level deeper than the brackets. -/
def bracketed (depth : Nat) (left right : String) : List String → String
  | [] => left ++ right
  | lines =>
    let start := newline (depth + 1)
    left ++ start ++ String.intercalate ("," ++ start) lines ++ newline depth ++ right

mutual

/-- A document `depth` levels deep, one item a line. -/
def indentedAt (depth : Nat) : Json → String
  | .array items => bracketed depth "[" "]" (indentedItems (depth + 1) items)
  | .object members => bracketed depth "\x7b" "\x7d" (indentedMembers (depth + 1) members)
  | .null => "null"
  | .bool b => if b then "true" else "false"
  | .natural n => toString n
  | .number x => numberText x
  | .string s => quote s

/-- The items of an array, each `depth` levels deep. -/
def indentedItems (depth : Nat) : List Json → List String
  | [] => []
  | item :: rest => indentedAt depth item :: indentedItems depth rest

/-- The members of an object, each `depth` levels deep. -/
def indentedMembers (depth : Nat) : List (String × Json) → List String
  | [] => []
  | (key, item) :: rest =>
    (quote key ++ ": " ++ indentedAt depth item) :: indentedMembers depth rest

end

/-- A document with one item a line. -/
def indented (doc : Json) : String :=
  indentedAt 0 doc

end Json

end LoxLang
