import TapeCompiler.Text.Chars
import TapeCompiler.Token.Basic

/-!
# Scanning a source into tokens

The scanner is an automaton that reads one symbol at a time: a character, or the end of the source.
Its mode says what may follow, so the scan already knows the outline of every statement and stops at
the first character that fits nowhere.

* `Slot`: the places that an identifier can take.
* `Mode`, `Scanner`: the control and the lexeme that is being read.
* `Scanner.step`: one symbol, including all changes of mode that read nothing.
* `scan`: all tokens of a source; the last one, and no other, is `finish` or `error`.
-/

namespace TapeCompiler

/-- Why a scan stops before the end of the source. -/
inductive ScanFault where
  | strayCharacter (c : Char)
  | unknownKeyword (word : String)
  | listExpected
  | identExpected
  | openBraceExpected
  | openBracketExpected
  | closeBracketExpected
  | bodyExpected
  | closeParenExpected
  | semicolonExpected
  | valueExpected
  | targetsUnfinished
  | characterUnterminated
  | characterEmpty
  | closingQuoteExpected
  deriving DecidableEq, Repr, Inhabited

/-- The wording of a scan fault. -/
def ScanFault.message : ScanFault → String
  | strayCharacter c => s!"Unexpected character at statement start: {c}"
  | unknownKeyword word => s!"Unknown keyword ({word})"
  | listExpected => "Expected comma separated arguments list"
  | identExpected => "Expected an identifier"
  | openBraceExpected => "Expected open brace"
  | openBracketExpected => "Expected open bracket"
  | closeBracketExpected => "Expected close bracket"
  | bodyExpected => "Expected opening brace"
  | closeParenExpected => "Expected close paren"
  | semicolonExpected => "Expected end statement. Are you missing a semicolon?"
  | valueExpected => "Expected identifier or literal"
  | targetsUnfinished => "Unexpected character after identifier list"
  | characterUnterminated => "Unterminated character literal"
  | characterEmpty => "Empty character literal"
  | closingQuoteExpected => "Expected closing quote"

/-- The place that an identifier takes in its statement. -/
inductive Slot where
  /-- A name that is declared. -/
  | declared
  /-- A name that is printed or read. -/
  | passed
  /-- A name at the start of a statement. It may turn out to be `callable`, a function that is called,
  as long as it stands alone and has no mark. -/
  | target (callable : Bool)
  /-- The name that a loop or a branch tests. -/
  | subject
  /-- A name on the right of an assignment. -/
  | source
  /-- The name of a function that is defined. -/
  | function
  /-- A parameter in a definition; only the first may be missing. -/
  | parameter (first : Bool)
  /-- An argument of a call; only the first may be missing. -/
  | argument (first : Bool)
  deriving DecidableEq, Repr, Inhabited

namespace Slot

/-- Which marks may stand before the `$` of an identifier. -/
def allowsMark (c : Char) : Slot → Bool
  | target _ => c == '+' || c == '-'
  | passed | subject | source => c == '+' || c == '-' || c == '_'
  | declared | function | parameter _ | argument _ => false

/-- The slot behind a comma, for the slots that form lists. -/
def afterComma? : Slot → Option Slot
  | declared => some declared
  | passed => some passed
  | target _ => some (target false)
  | parameter _ => some (parameter false)
  | argument _ => some (argument false)
  | subject | source | function => none

/-- The fault of a list in parentheses that is not closed. -/
def unclosed : Slot → ScanFault
  | parameter _ => .closeBracketExpected
  | _ => .closeParenExpected

end Slot

/-- What the scanner is in the middle of. -/
inductive Mode where
  /-- Between two statements. -/
  | statement
  /-- Inside a comment, which runs to the end of its line. -/
  | comment
  /-- Inside the word that opens a statement. -/
  | word
  /-- Before an identifier. -/
  | before (s : Slot)
  /-- Behind the mark of an identifier. -/
  | mark (s : Slot)
  /-- Behind the `$` of an identifier. -/
  | sigil (s : Slot)
  /-- Inside the name of an identifier. -/
  | name (s : Slot)
  /-- Behind an identifier. -/
  | after (s : Slot)
  /-- Before the `)` of an empty parameter or argument list. -/
  | paren (s : Slot)
  /-- Before the `{` of a function's body. -/
  | body
  /-- Before the value of an assignment. -/
  | value
  /-- Inside a number. -/
  | digits
  /-- Behind the quote that opens a character literal. -/
  | quote
  /-- Before the quote that closes a character literal. -/
  | unquote
  /-- Before the semicolon of a statement. -/
  | ending
  deriving DecidableEq, Repr, Inhabited

/-- A scanner between two symbols: its mode, and the part of a token that it has read so far, which
starts at offset `start`. -/
structure Scanner where
  mode : Mode
  start : Nat
  lexeme : String
  deriving DecidableEq, Repr, Inhabited

/-- What a symbol brings: finished tokens, and the scanner that reads on unless the scan is over. -/
structure Advance where
  tokens : List Token
  next : Option Scanner
  deriving DecidableEq, Repr, Inhabited

namespace Advance

/-- The scan goes on in a mode, with nothing read of the next token. -/
def into (mode : Mode) (pos : Nat) : Advance :=
  ⟨[], some ⟨mode, pos, ""⟩⟩

/-- The scan goes on in a mode with a first character of the next token. -/
def opening (mode : Mode) (pos : Nat) (c : Char) : Advance :=
  ⟨[], some ⟨mode, pos, c.toString⟩⟩

/-- A token of one character is complete. -/
def single (kind : TokenKind) (c : Char) (mode : Mode) (pos : Nat) : Advance :=
  ⟨[⟨kind, c.toString, pos⟩], some ⟨mode, pos + 1, ""⟩⟩

/-- The scan stops with an error token at `pos` that shows the lexeme. -/
def fault (cause : ScanFault) (lexeme : String) (pos : Nat) : Advance :=
  ⟨[⟨.error, s!"Message: {cause.message}\nToken: {lexeme}", pos⟩], none⟩

/-- The scan stops behind a wrong symbol, which the error token shows. -/
def wrong (cause : ScanFault) (pos : Nat) : Option Char → Advance
  | none => fault cause "" pos
  | some c => fault cause c.toString (pos + 1)

/-- Puts a token in front. -/
def withToken (t : Token) (a : Advance) : Advance :=
  { a with tokens := t :: a.tokens }

end Advance

namespace Scanner

open Advance

/-- Between two statements. -/
def atStatement (pos : Nat) : Option Char → Advance
  | none => ⟨[⟨.finish, "", pos⟩], none⟩
  | some c =>
    if isBlank c then into .statement (pos + 1)
    else if c = '}' then single .closeBrace c .statement pos
    else if c = '#' then into .comment (pos + 1)
    else if c = '$' then opening (.sigil (.target true)) pos c
    else if c = '+' ∨ c = '-' then opening (.mark (.target false)) pos c
    else if isLetter c then opening .word pos c
    else wrong (.strayCharacter c) pos (some c)

/-- Inside a comment. -/
def atComment (pos : Nat) : Option Char → Advance
  | none => atStatement pos none
  | some c => into (if c = '\n' then .statement else .comment) (pos + 1)

/-- Before the semicolon of a statement. -/
def atEnding (pos : Nat) (sym : Option Char) : Advance :=
  match sym with
  | none => fault .semicolonExpected "" pos
  | some c =>
    if isBlank c then into .ending (pos + 1)
    else if c = ';' then single .semicolon c .statement pos
    else fault .semicolonExpected "" pos

/-- Before the `{` of a function's body. -/
def atBody (pos : Nat) (sym : Option Char) : Advance :=
  match sym with
  | none => wrong .bodyExpected pos none
  | some c =>
    if isBlank c then into .body (pos + 1)
    else if c = '{' then single .openBrace c .statement pos
    else wrong .bodyExpected pos sym

/-- Where the scan goes on behind the `)` of a list. -/
def afterParen : Slot → Mode
  | .parameter _ => .body
  | _ => .ending

/-- Before the `)` that closes the list of which `slot` is a part. -/
def atParen (slot : Slot) (pos : Nat) (sym : Option Char) : Advance :=
  match sym with
  | none => wrong slot.unclosed pos none
  | some c =>
    if isBlank c then into (.paren slot) (pos + 1)
    else if c = ')' then single .closeParen c (afterParen slot) pos
    else wrong slot.unclosed pos sym

/-- Behind the last identifier of a list, or behind one that stands alone. -/
def atFollower (slot : Slot) (pos : Nat) (sym : Option Char) : Advance :=
  match slot with
  | .declared | .passed | .source => atEnding pos sym
  | .target callable =>
    if sym = some '=' then single .equals '=' .value pos
    else if sym = some '(' ∧ callable then single .openParen '(' (.before (.argument true)) pos
    else wrong .targetsUnfinished pos sym
  | .subject =>
    if sym = some '{' then single .openBrace '{' .statement pos
    else wrong .openBraceExpected pos sym
  | .function =>
    if sym = some '(' then single .openParen '(' (.before (.parameter true)) pos
    else wrong .openBracketExpected pos sym
  | .parameter _ | .argument _ => atParen slot pos sym

/-- Behind an identifier: a comma goes on with a list. -/
def atAfter (slot : Slot) (pos : Nat) (sym : Option Char) : Advance :=
  match sym with
  | none => atFollower slot pos none
  | some c =>
    if isBlank c then into (.after slot) (pos + 1)
    else
      match if c = ',' then slot.afterComma? else none with
      | some next => into (.before next) (pos + 1)
      | none => atFollower slot pos sym

/-- Where an identifier should go on and does not. `lexeme` is what there was of it. A first parameter
or argument is then taken to be missing, and what there was of it is dropped. -/
def atMissing (slot : Slot) (lexeme : String) (pos : Nat) (sym : Option Char) : Advance :=
  match slot with
  | .declared | .passed => fault .listExpected lexeme pos
  | .target _ | .subject | .function | .parameter false | .argument false =>
    fault .identExpected lexeme pos
  | .source => fault .valueExpected lexeme pos
  | .parameter true | .argument true => atParen slot pos sym

/-- Before an identifier. -/
def atBefore (slot : Slot) (pos : Nat) (sym : Option Char) : Advance :=
  match sym with
  | none => atMissing slot "" pos none
  | some c =>
    if isBlank c then into (.before slot) (pos + 1)
    else if slot.allowsMark c then opening (.mark slot) pos c
    else if c = '$' then opening (.sigil slot) pos c
    else atMissing slot "" pos sym

/-- Before the value of an assignment. -/
def atValue (pos : Nat) (sym : Option Char) : Advance :=
  match sym with
  | none => atBefore .source pos none
  | some c =>
    if isBlank c then into .value (pos + 1)
    else if isDigit c then opening .digits pos c
    else if c = '\'' then into .quote (pos + 1)
    else atBefore .source pos sym

/-- Behind the quote that opens a character literal. -/
def atQuote (pos : Nat) : Option Char → Advance
  | none => fault .characterUnterminated "" pos
  | some c =>
    if c = '\'' then wrong .characterEmpty pos (some c)
    else single .character c .unquote pos

/-- Before the quote that closes a character literal. -/
def atUnquote (pos : Nat) (sym : Option Char) : Advance :=
  if sym = some '\'' then into .ending (pos + 1)
  else wrong .closingQuoteExpected pos sym

/-- The slot behind a keyword. -/
def slotAfter : Keyword → Slot
  | .declare => .declared
  | .print | .read => .passed
  | .branch | .loop => .subject
  | .define => .function

/-- Behind the word that opens a statement. -/
def atWordEnd (s : Scanner) (pos : Nat) (sym : Option Char) : Advance :=
  match Keyword.ofWord? s.lexeme with
  | none => fault (.unknownKeyword s.lexeme) s.lexeme pos
  | some k => withToken ⟨.keyword k, s.lexeme, s.start⟩ (atBefore (slotAfter k) pos sym)

/-- The lexeme grows by a character. -/
def grow (s : Scanner) (mode : Mode) (c : Char) : Advance :=
  ⟨[], some ⟨mode, s.start, s.lexeme.push c⟩⟩

/-- Reads one symbol, which stands at offset `pos`: a character, or the end of the source. -/
def step (s : Scanner) (pos : Nat) (sym : Option Char) : Advance :=
  match s.mode with
  | .statement => atStatement pos sym
  | .comment => atComment pos sym
  | .word =>
    match sym with
    | some c => if isLetter c then s.grow .word c else s.atWordEnd pos sym
    | none => s.atWordEnd pos none
  | .before slot => atBefore slot pos sym
  | .mark slot =>
    if sym = some '$' then s.grow (.sigil slot) '$' else atMissing slot s.lexeme pos sym
  | .sigil slot =>
    match sym with
    | some c => if isLetter c then s.grow (.name slot) c else atMissing slot s.lexeme pos sym
    | none => atMissing slot s.lexeme pos none
  | .name slot =>
    match sym with
    | some c =>
      if isNameChar c then s.grow (.name slot) c
      else withToken ⟨.ident, s.lexeme, s.start⟩ (atAfter slot pos sym)
    | none => withToken ⟨.ident, s.lexeme, s.start⟩ (atAfter slot pos none)
  | .after slot => atAfter slot pos sym
  | .paren slot => atParen slot pos sym
  | .body => atBody pos sym
  | .value => atValue pos sym
  | .digits =>
    match sym with
    | some c =>
      if isDigit c then s.grow .digits c
      else withToken ⟨.number, s.lexeme, s.start⟩ (atEnding pos sym)
    | none => withToken ⟨.number, s.lexeme, s.start⟩ (atEnding pos none)
  | .quote => atQuote pos sym
  | .unquote => atUnquote pos sym
  | .ending => atEnding pos sym

/-- Reads the characters from offset `pos` on, and then the end of the source. -/
def scanFrom (s : Scanner) (pos : Nat) : List Char → List Token
  | [] => (s.step pos none).tokens
  | c :: cs =>
    let a := s.step pos (some c)
    a.tokens ++
      match a.next with
      | none => []
      | some s' => s'.scanFrom (pos + 1) cs

/-- A scanner before the first character. -/
def initial : Scanner :=
  ⟨.statement, 0, ""⟩

end Scanner

/-- All tokens of a source. -/
def scan (source : String) : List Token :=
  Scanner.initial.scanFrom 0 source.toList

end TapeCompiler
