import TapeCompiler.Text.Lines

/-!
# Tokens

A token is a kind, the text it was read from and the offset of that text in the source. Offsets count
characters, from the start or, if negative, from the end; a scan makes only the former.

* `Keyword`: the six words that open a statement.
* `TokenKind`, `Token`.
* `Token.label`: how a message shows a token.
-/

namespace TapeCompiler

/-- The words that open a statement. -/
inductive Keyword where
  | declare
  | print
  | read
  | branch
  | loop
  | define
  deriving DecidableEq, Repr, Inhabited

namespace Keyword

/-- How a keyword is spelled. -/
def spelling : Keyword → String
  | declare => "var"
  | print => "print"
  | read => "read"
  | branch => "if"
  | loop => "while"
  | define => "def"

/-- Every keyword, once. -/
def all : List Keyword :=
  [declare, print, read, branch, loop, define]

/-- The keyword that a word spells. -/
def ofWord? (word : String) : Option Keyword :=
  all.find? fun k => k.spelling == word

/-- Every keyword is read back from its spelling. -/
@[simp]
theorem ofWord?_spelling (k : Keyword) : ofWord? k.spelling = some k := by
  cases k <;> decide +kernel

/-- A keyword is read from its own spelling only. -/
theorem spelling_of_ofWord? {word : String} {k : Keyword} (h : ofWord? word = some k) :
    k.spelling = word := by
  simpa using List.find?_some h

end Keyword

/-- What a token is. `error` and `finish` end a scan. -/
inductive TokenKind where
  | error
  | finish
  | openParen
  | closeParen
  | openBrace
  | closeBrace
  | semicolon
  | number
  | character
  | equals
  | ident
  | keyword (k : Keyword)
  deriving DecidableEq, Repr, Inhabited

/-- A piece of the source with its kind and place. -/
structure Token where
  kind : TokenKind
  text : String
  offset : Int
  deriving DecidableEq, Repr, Inhabited

namespace Token

/-- The line of `source` on which the token stands. -/
def line (source : String) (t : Token) : Nat :=
  lineAt source t.offset

/-- How a message shows the token. -/
def label (t : Token) : String :=
  match t.kind with
  | .finish => "EOF"
  | .error => s!"Err: {t.text}"
  | .keyword _ => s!"<{t.text}>"
  | .number => s!"D({t.text})"
  | .ident => s!"I({t.text})"
  | .character => s!"C({t.text})"
  | _ => t.text

end Token

end TapeCompiler
