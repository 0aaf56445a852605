import TapeCompiler.Program.Basic

/-!
# Error reports

A report of a syntax error shows the lines around it, the line itself marked, and where one is known a
hint on how to mend it. Hints are found by words in the message, whatever their case.

* `contextRows`: numbered lines around a line.
* `syntaxHint?`, `compileHint?`.
* `SyntaxReport.make`, `SyntaxError.report`.
-/

namespace TapeCompiler

/-- A text in at least `width` places, filled up with spaces on the left. -/
def padLeft (width : Nat) (text : String) : String :=
  String.ofList (List.replicate (width - text.length) ' ') ++ text

/-- One numbered line; an arrow head stands before the line that is meant. -/
def contextRow (line number : Int) (text : String) : String :=
  (if number = line then ">" else " ") ++ " " ++ padLeft 4 (toString number) ++ " | " ++ text

/-- The rows of all lines that are at most `reach` lines away from `line`. -/
def contextRows (lines : List String) (line reach : Int) : List String :=
  let line := max 1 line
  let near := (lines.zipIdx 1).filter fun (_, number) =>
    line - reach ≤ number ∧ (number : Int) ≤ line + reach
  near.map fun (text, number) => contextRow line number text

/-- The lines around `line`, one below the other. -/
def contextText (lines : List String) (line reach : Int) : String :=
  "\n".intercalate (contextRows lines line reach)

/-- The lower-case spelling of a character, as far as it holds letters that hints are written in. Two
letters outside ASCII have such a spelling: the Kelvin sign, and the capital I with a dot. -/
def lowerCase (c : Char) : List Char :=
  if 'A' ≤ c ∧ c ≤ 'Z' then [Char.ofNat (c.toNat + 32)]
  else if c.toNat = 0x212A then ['k']
  else if c.toNat = 0x130 then ['i', Char.ofNat 0x307]
  else [c]

/-- Whether `needle` stands somewhere in a text. -/
def occursIn (needle : List Char) : List Char → Bool
  | [] => needle.isEmpty
  | c :: cs => needle.isPrefixOf (c :: cs) || occursIn needle cs

/-- Whether a message holds one of some phrases, in upper or lower case. -/
def mentions (message : String) (phrases : List String) : Bool :=
  let cs := message.toList.flatMap lowerCase
  phrases.any fun p => occursIn p.toList cs

/-- Hints with the phrases that call for them; an earlier row goes before a later one. -/
abbrev HintTable := List (List String × String)

/-- The hint of the first row that a message calls for. -/
def HintTable.find? (table : HintTable) (message : String) : Option String :=
  (List.find? (fun row => mentions message row.1) table).map Prod.snd

/-- What may have been meant where the grammar is violated. -/
def syntaxHints : HintTable :=
  [(["semicolon"], "Every statement ends with \";\". Blocks (\"while $x \x7b ... \x7d\") do not."),
   (["unknown keyword"], "Keywords are: var, print, read, if, while, def."),
   (["expected an identifier", "statement start"],
    "Variables are written with a \"$\" sigil, e.g. $count. Operators go before it: +$a, -$a, _$a."),
   (["closing quote", "character literal"], "Character literals hold exactly one character: 'a'."),
   (["unexpected token"], "Check for a missing \";\" or an unbalanced \"\x7b\" / \"\x7d\".")]

/-- What may have been meant where a program makes no sense. -/
def compileHints : HintTable :=
  [(["is not defined"], "Declare the variable first (var $name;) and check spelling."),
   (["redefine"], "A name can only be declared once per block. Inner blocks may shadow it.")]

/-- The hint on a syntax error. -/
def syntaxHint? (message : String) : Option String :=
  syntaxHints.find? message

/-- The hint on a diagnostic. -/
def compileHint? (message : String) : Option String :=
  compileHints.find? message

/-- A hint on a line of its own. -/
def hintLine : Option String → String
  | none => ""
  | some hint => "\nHint: " ++ hint

/-- A syntax error as it is shown. -/
structure SyntaxReport where
  message : String
  line : Int
  context : String
  deriving DecidableEq, Repr, Inhabited

/-- Reports what is wrong on a line of a source. -/
def SyntaxReport.make (message source : String) (line : Int) : SyntaxReport :=
  let context := contextText (lines source) line 2
  { message := s!"SyntaxError: {message} (line {line})\n{context}" ++ hintLine (syntaxHint? message)
    line
    context }

/-- The report of a syntax error. -/
def SyntaxError.report (e : SyntaxError) : SyntaxReport :=
  .make e.message e.source e.line

end TapeCompiler
