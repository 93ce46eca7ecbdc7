/-!
# UTF-8 text and where it goes wrong

Bytes that are not UTF-8 are refused with the place of the first fault. A fault is *incomplete* when
the bytes end inside a character that could still be finished, and *invalid* otherwise; an invalid
fault also says how many bytes were a good start of a character before it broke, which is at least
the one byte it stands at. `decode` gives the text or the fault.
-/

namespace LoxLang.Utf8

/-- Why bytes are not UTF-8, and at which index. -/
inductive Fault where
  | invalid (index length : Nat)
  | incomplete (index : Nat)
  deriving DecidableEq, Repr

/-- The text of a fault. -/
def Fault.message : Fault → String
  | .invalid index length => s!"invalid utf-8 sequence of {length} bytes from index {index}"
  | .incomplete index => s!"incomplete utf-8 byte sequence from index {index}"

/-- What the bytes of a begun character still have to be: `owed` more bytes, the next of them between
`low` and `high`. -/
structure Owed where
  owed : Nat
  low : UInt8
  high : UInt8
  deriving DecidableEq, Repr

/-- What the first byte of a character asks for, if a character can begin with it. The narrow ranges
keep out overlong forms, surrogates and what lies beyond the last code point. -/
def Owed.ofLead? (b : UInt8) : Option Owed :=
  if b < 0x80 then some ⟨0, 0x80, 0xBF⟩
  else if b < 0xC2 then none
  else if b < 0xE0 then some ⟨1, 0x80, 0xBF⟩
  else if b = 0xE0 then some ⟨2, 0xA0, 0xBF⟩
  else if b = 0xED then some ⟨2, 0x80, 0x9F⟩
  else if b < 0xF0 then some ⟨2, 0x80, 0xBF⟩
  else if b = 0xF0 then some ⟨3, 0x90, 0xBF⟩
  else if b < 0xF4 then some ⟨3, 0x80, 0xBF⟩
  else if b = 0xF4 then some ⟨3, 0x80, 0x8F⟩
  else none

/-- The first fault in bytes of which `taken` before `index` belong to a begun character that asks for
`o`. -/
def faultFrom (index taken : Nat) (o : Owed) : List UInt8 → Option Fault
  | [] => if o.owed = 0 then none else some (.incomplete (index - taken))
  | b :: rest =>
    if o.owed = 0 then
      match Owed.ofLead? b with
      | none => some (.invalid index 1)
      | some next => faultFrom (index + 1) 1 next rest
    else if o.low ≤ b ∧ b ≤ o.high then
      faultFrom (index + 1) (taken + 1) ⟨o.owed - 1, 0x80, 0xBF⟩ rest
    else some (.invalid (index - taken) taken)

/-- The first fault in bytes, if there is one. -/
def fault? (bytes : List UInt8) : Option Fault :=
  faultFrom 0 0 ⟨0, 0x80, 0xBF⟩ bytes

/-- The text of bytes, or the first fault in them. -/
def decode (bytes : ByteArray) : Except Fault String :=
  match String.fromUTF8? bytes with
  | some text => .ok text
  | none => .error ((fault? bytes.toList).getD (.incomplete bytes.size))

end LoxLang.Utf8
