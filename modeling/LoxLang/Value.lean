import LoxLang.Json
import LoxLang.Number.Style

/-!
# Values

What an expression evaluates to: a number, a string, a truth value or null. Values are compared by
`Value.equals`, which is equality of numbers where both are numbers (so a NaN equals nothing and the two
zeros are equal) and never holds between values of different types. `DecidableEq` on values is
identity and compares numbers by their words.
-/

namespace LoxLang

/-- A value of the language. -/
inductive Value where
  | number (x : Float)
  | string (s : String)
  | bool (b : Bool)
  | null
  deriving DecidableEq

namespace Value

/-- Null and false count as false, everything else as true. -/
def truthy : Value → Bool
  | null => false
  | bool b => b
  | _ => true

/-- The name of a value's type. -/
def typeName : Value → String
  | number _ => "number"
  | string _ => "string"
  | bool _ => "boolean"
  | null => "null"

/-- Equality inside the language. -/
def equals : Value → Value → Bool
  | number x, number y => x == y
  | string s, string t => s == t
  | bool a, bool b => a == b
  | null, null => true
  | _, _ => false

/-- Printed whole numbers have neither a point nor an exponent, however large they are. -/
def numberStyle : NumberStyle where
  nan := "NaN"
  infinity := "Infinity"
  exactBelow := none
  wholeSuffix := ""
  signedZero := true

/-- The printed text of a value, numbers in a given style. -/
def renderWith (style : NumberStyle) : Value → String
  | number x => style.render x
  | string s => s
  | bool b => if b then "true" else "false"
  | null => "null"

/-- The printed text of a value. -/
def render (v : Value) : String :=
  v.renderWith numberStyle

/-- The document of a value. -/
def toJson : Value → Json
  | number x => .object [("Number", .number x)]
  | string s => .object [("String", .string s)]
  | bool b => .object [("Bool", .bool b)]
  | null => .string "Null"

end Value

end LoxLang
