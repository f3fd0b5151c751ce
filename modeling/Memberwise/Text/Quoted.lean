import Memberwise.Text.Faceless

/-!
# Quoted text

A text between double quotes, with backslash escapes for the quote, the
backslash, the common controls and every character without an image.
-/

namespace Memberwise.Text

/-- The hexadecimal digits of a number, without leading zeros. -/
def hex (n : Nat) : String := String.ofList (Nat.toDigits 16 n)

/-- The sixteen hexadecimal digits of a word. -/
def hex16 (w : UInt64) : String :=
  let digits := hex w.toNat
  "".pushn '0' (16 - digits.length) ++ digits

/-- How one character is written between quotes. -/
def quoteChar (c : Char) : String :=
  if c = '\x00' then "\\0"
  else if c = '\t' then "\\t"
  else if c = '\n' then "\\n"
  else if c = '\r' then "\\r"
  else if c = '"' then "\\\""
  else if c = '\\' then "\\\\"
  else if isFaceless c then "\\u\x7b" ++ hex c.toNat ++ "\x7d"
  else c.toString

/-- A text between double quotes. -/
def quote (s : String) : String :=
  "\"" ++ String.join (s.toList.map quoteChar) ++ "\""

end Memberwise.Text
