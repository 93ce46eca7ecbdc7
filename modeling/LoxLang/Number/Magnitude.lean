/-!
# Magnitudes of binary64 numbers

A binary64 number is a sign and a magnitude. The magnitudes are counted upward from zero: the
magnitude of rank `r` is what a word holds when its sign bit is clear and its other bits are `r`, so
ranks order magnitudes as their values do. `units r` is the value of rank `r` in units of the least
positive magnitude, and `nearest num den` is the rank whose value is nearest to the ratio
`num / den`, a tie going to the even rank. `infinite` is the first rank past the finite ones, and a
ratio that rounds past the largest finite magnitude is read as `infinite`.
-/

namespace LoxLang

/-- Quotient rounded to the nearest natural number, a half going to the even one. -/
def roundHalfEven (num den : Nat) : Nat :=
  let low := num / den
  let rest := num % den
  if 2 * rest < den then low
  else if den < 2 * rest then low + 1
  else low + low % 2

namespace Magnitude

/-- Number of ranks that share one exponent field. -/
def binade : Nat := Nat.pow 2 52

/-- The rank of infinity; the finite magnitudes are those below it. -/
def infinite : Nat := 2047 * binade

/-- How many units of the least positive magnitude make one. -/
def one : Nat := Nat.pow 2 1074

/-- The value of a rank in units of the least positive magnitude. -/
def units (rank : Nat) : Nat :=
  let exponent := rank / binade
  let fraction := rank % binade
  if exponent = 0 then fraction else (binade + fraction) * Nat.pow 2 (exponent - 1)

/-- The rank nearest to the ratio `num / den`, a tie going to the even rank.

The ratio is cut to 53 binary digits, or to a whole number of units where that is coarser; counting
`shift` whole binades below the result makes the rounded digits themselves the rest of the rank, and
a carry out of the digits is a carry into the exponent. -/
def nearest (num den : Nat) : Nat :=
  let scaled := num * one
  let shift := Nat.log2 (scaled / den) - 52
  min infinite (shift * binade + roundHalfEven scaled (den * Nat.pow 2 shift))

/-- The magnitude as a whole number, if it is one. -/
def whole? (rank : Nat) : Option Nat :=
  if units rank % one = 0 then some (units rank / one) else none

end Magnitude

/-- What a binary64 number is, read off its word. -/
inductive NumberClass where
  | nan
  | infinite (negative : Bool)
  | finite (negative : Bool) (rank : Nat)
  deriving DecidableEq, Repr

/-- The class of a number: the top bit of its word is the sign, the rest the rank. -/
def NumberClass.of (x : Float) : NumberClass :=
  let word := x.toBits.toNat
  let negative := decide (Nat.pow 2 63 ≤ word)
  let rank := word % Nat.pow 2 63
  if rank < Magnitude.infinite then .finite negative rank
  else if rank = Magnitude.infinite then .infinite negative
  else .nan

end LoxLang
