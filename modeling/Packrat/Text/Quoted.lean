import Packrat.Text.Escaped

/-!
# Quoted text: how literals and characters appear in messages

A string is written between double quotes and a character between single quotes. Tab, return,
line feed, NUL and the backslash have escapes of their own, the surrounding quote is escaped by a
backslash, and every other escaped character is written by its code point in braces.

* **`Quoted.string`** and **`Quoted.char`** — the quoted forms.
-/

namespace Packrat.Quoted

/-- The double quote. -/
def doubleQuote : Char := Char.ofNat 0x22

/-- The single quote. -/
def singleQuote : Char := Char.ofNat 0x27

/-- The backslash. -/
def backslash : Char := Char.ofNat 0x5c

/-- A code point in braces, in lower-case hexadecimal without padding. -/
def codePoint (c : Char) : String :=
  "\\u\x7b" ++ String.ofList (Nat.toDigits 16 c.toNat) ++ "\x7d"

/-- One character inside quotes of the kind `quote`. -/
def escape (quote c : Char) : String :=
  if c = '\t' then "\\t"
  else if c = '\r' then "\\r"
  else if c = '\n' then "\\n"
  else if c = '\x00' then "\\0"
  else if c = backslash then "\\\\"
  else if c = quote then String.ofList [backslash, quote]
  else if Escaped.holds c then codePoint c
  else c.toString

/-- A string between double quotes. -/
def string (s : String) : String :=
  doubleQuote.toString ++ String.join (s.toList.map (escape doubleQuote)) ++ doubleQuote.toString

/-- A character between single quotes. -/
def char (c : Char) : String :=
  singleQuote.toString ++ escape singleQuote c ++ singleQuote.toString

end Packrat.Quoted
