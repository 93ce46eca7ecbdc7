import LoxLang.Number.Decimal

/-!
# Number texts

How a number is written depends on where it is written; a `NumberStyle` holds the decisions, and
`NumberStyle.render` writes a number by them. Every style writes a number that is not whole with the
fewest digits that read back, without an exponent.
-/

namespace LoxLang

/-- The decisions of a number text. -/
structure NumberStyle where
  /-- The word for a number that is none. -/
  nan : String
  /-- The word for infinity, without its sign. -/
  infinity : String
  /-- Whole numbers below this bound are written exactly; all of them if there is no bound. -/
  exactBelow : Option Nat
  /-- What follows a whole number written exactly. -/
  wholeSuffix : String
  /-- Whether the sign of a negative zero is written. -/
  signedZero : Bool
  deriving DecidableEq, Repr

namespace NumberStyle

/-- The sign in front of a magnitude. -/
def sign (negative : Bool) : List Char :=
  if negative then ['-'] else []

/-- The text of a finite number of the given sign and rank. -/
def renderFinite (style : NumberStyle) (negative : Bool) (rank : Nat) : List Char :=
  let inShortest := sign negative ++ (Decimal.shortest .up rank).plain
  match Magnitude.whole? rank with
  | none => inShortest
  | some n =>
    if style.exactBelow.all (n < ·) then
      let shown := negative && (style.signedZero || n != 0)
      sign shown ++ Nat.toDigits 10 n ++ style.wholeSuffix.toList
    else inShortest

/-- The text of a number. -/
def render (style : NumberStyle) (x : Float) : String :=
  match NumberClass.of x with
  | .nan => style.nan
  | .infinite negative => String.ofList (sign negative) ++ style.infinity
  | .finite negative rank => String.ofList (style.renderFinite negative rank)

end NumberStyle

end LoxLang
