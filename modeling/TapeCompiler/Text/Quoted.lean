import TapeCompiler.Text.Printable

/-!
# Quoted text

A text in quotes, as messages show it: what cannot be seen is written by its number. The quotes are
single ones, unless the text holds single quotes and no double ones.

* `quoted`.
-/

namespace TapeCompiler

/-- A number in `width` hexadecimal digits, the leading ones zeros if need be. -/
def hexDigits (width n : Nat) : String :=
  let digits := Nat.toDigits 16 n
  String.ofList (List.replicate (width - digits.length) '0' ++ digits)

/-- A character by its number, in the shortest of three forms. -/
def numbered (c : Char) : String :=
  let n := c.toNat
  if n < 0x100 then "\\x" ++ hexDigits 2 n
  else if n < 0x10000 then "\\u" ++ hexDigits 4 n
  else "\\U" ++ hexDigits 8 n

/-- A character between two quotes. -/
def quotedChar (quote c : Char) : String :=
  if c = quote ∨ c = '\\' then "\\" ++ c.toString
  else if c = '\n' then "\\n"
  else if c = '\r' then "\\r"
  else if c = '\t' then "\\t"
  else if isPrintable c then c.toString
  else numbered c

/-- A text between two quotes. -/
def quoted (text : String) : String :=
  let cs := text.toList
  let quote := if '\'' ∈ cs ∧ '"' ∉ cs then '"' else '\''
  quote.toString ++ String.join (cs.map (quotedChar quote)) ++ quote.toString

end TapeCompiler
