import LoxLang.Number.Magnitude

/-!
# Decimals

A decimal is a whole number of digits scaled by a power of ten. `Decimal.rank` reads one as the
nearest binary64 magnitude; `Decimal.shortest` goes the other way and gives, of the decimals that
read back as a magnitude, one with the fewest digits, and of those the one nearest to the magnitude.
It searches the decimal grids from coarse to fine and tries the two neighbours of the magnitude on
each, so that what it returns reads back because it was tried; the exact expansion stands behind the
search. `Decimal.plain` writes a decimal without an exponent.
-/

namespace LoxLang

/-- The value `digits * 10 ^ exponent`. -/
structure Decimal where
  digits : Nat
  exponent : Int
  deriving DecidableEq, Repr

/-- Which of two equally near decimals of the fewest digits is chosen. -/
inductive TieRule where
  /-- The larger one. -/
  | up
  /-- The one whose last digit is even. -/
  | even
  deriving DecidableEq, Repr

namespace Decimal

/-- The rank of the magnitude nearest to a decimal. -/
def rank (d : Decimal) : Nat :=
  match d.exponent with
  | .ofNat e => Magnitude.nearest (d.digits * Nat.pow 10 e) 1
  | .negSucc e => Magnitude.nearest d.digits (Nat.pow 10 (e + 1))

/-- The number a decimal is read as. -/
def toFloat (d : Decimal) : Float :=
  Float.ofBits d.rank.toUInt64

/-- The magnitude of a rank, written out in full. -/
def exact (rank : Nat) : Decimal :=
  ⟨Magnitude.units rank * Nat.pow 5 1074, -1074⟩

/-- The decimal exponent of the leading digit of `num / den`, a positive ratio. -/
def leadingExponent (num den : Nat) : Int :=
  if den ≤ num then ((Nat.toDigits 10 (num / den)).length : Int) - 1
  else -((Nat.toDigits 10 ((den - 1) / num)).length : Int)

/-- The magnitude of a rank over `10 ^ exponent`, as a ratio. -/
def ratioAt (rank : Nat) : Int → Nat × Nat
  | .ofNat e => (Magnitude.units rank, Magnitude.one * Nat.pow 10 e)
  | .negSucc e => (Magnitude.units rank * Nat.pow 10 (e + 1), Magnitude.one)

/-- The decimal `digits * 10 ^ exponent` of a grid with `count` digits, whose upper end is written
with one digit. -/
def onGrid (count digits : Nat) (exponent : Int) : Decimal :=
  if digits = Nat.pow 10 count then ⟨1, exponent + count⟩ else ⟨digits, exponent⟩

/-- The neighbour of a magnitude on the grid of `count` digits at `exponent` that reads back as the
magnitude; the nearer one if both do. -/
def hit? (tie : TieRule) (rank count : Nat) (exponent : Int) : Option Decimal :=
  let (num, den) := ratioAt rank exponent
  let low := num / den
  let rest := num % den
  let below := onGrid count low exponent
  let above := onGrid count (low + 1) exponent
  if below.rank = rank then
    if above.rank = rank then
      if 2 * rest < den then some below
      else if den < 2 * rest then some above
      else match tie with
        | .up => some above
        | .even => some (if low % 2 = 0 then below else above)
    else some below
  else if above.rank = rank then some above
  else none

/-- The decimal of fewest digits that reads back as the magnitude of a rank. -/
def shortest (tie : TieRule) (rank : Nat) : Decimal :=
  if rank = 0 then ⟨0, 0⟩
  else
    let leading := leadingExponent (Magnitude.units rank) Magnitude.one
    let grids := (List.range 17).map (· + 1)
    (grids.findSome? fun count => hit? tie rank count (leading - count + 1)).getD (exact rank)

/-- The digits of a decimal, most significant first. -/
def digitChars (d : Decimal) : List Char :=
  Nat.toDigits 10 d.digits

/-- Digits with a point before the last `places` of them, padded with zeros to at least one digit
before the point. -/
def pointed (digits : List Char) (places : Nat) : List Char :=
  let padded := List.replicate (places + 1 - digits.length) '0' ++ digits
  padded.take (padded.length - places) ++ '.' :: padded.drop (padded.length - places)

/-- A decimal without an exponent: whole ones have no point. -/
def plain (d : Decimal) : List Char :=
  match d.exponent with
  | .ofNat e => d.digitChars ++ List.replicate e '0'
  | .negSucc e => pointed d.digitChars (e + 1)

end Decimal

end LoxLang
