import LoxLang.Text.Unprintable

/-!
# Quoted names

A name in a message stands in double quotes. Double quotes and backslashes inside it are escaped, the
usual white-space characters by a letter, and what could not be seen by the number of its code point.
-/

namespace LoxLang.Text

/-- A code point in lower-case hexadecimal. -/
def codePoint (c : Char) : List Char :=
  ['\\', 'u', '\x7b'] ++ Nat.toDigits 16 c.toNat ++ ['\x7d']

/-- A character inside quotes. -/
def quoteChar (c : Char) : List Char :=
  if c = '"' ∨ c = '\\' then ['\\', c]
  else if c.toNat = 0 then ['\\', '0']
  else if c = '\t' then ['\\', 't']
  else if c = '\r' then ['\\', 'r']
  else if c = '\n' then ['\\', 'n']
  else if isUnprintable c then codePoint c
  else [c]

/-- A name in quotes. -/
def quoted (name : String) : String :=
  String.ofList ('"' :: name.toList.flatMap quoteChar ++ ['"'])

end LoxLang.Text
