/-!
# Character classes of the source language

The language is written in ASCII: names, numbers and blanks know no other letters, digits or spaces.

* `isLetter`, `isDigit`, `isNameChar`: what names and numbers are made of.
* `isBlank`: what may stand between two tokens.
-/

namespace TapeCompiler

/-- The letters of names and keywords, upper and lower case. -/
def isLetter (c : Char) : Bool :=
  ('a' ≤ c && c ≤ 'z') || ('A' ≤ c && c ≤ 'Z')

/-- The digits of number literals. -/
def isDigit (c : Char) : Bool :=
  '0' ≤ c && c ≤ '9'

/-- The characters that continue a name after its first letter. -/
def isNameChar (c : Char) : Bool :=
  isLetter c || isDigit c || c == '_'

/-- Space, tab, carriage return and line feed separate tokens. -/
def isBlank (c : Char) : Bool :=
  c == ' ' || c == '\t' || c == '\r' || c == '\n'

end TapeCompiler
