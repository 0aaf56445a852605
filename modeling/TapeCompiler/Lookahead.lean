import TapeCompiler.Program.Basic

/-!
# Reading tokens with pushback

A reader of tokens remembers the last three tokens that it has read, so that up to two of them can be
put back and read again. The slots start empty. Reading behind the last token is a syntax error, and
putting back more than two tokens is a fault of its own, after which the count stays raised.

* `Lookahead`: the tokens still to come, the slots and the number of tokens put back.
* `Lookahead.next`, `backup`, `peek`, `accept`: the moves; each says what happens to the reader also
  when it fails.
* `Lookahead.Op`, `Lookahead.perform`: the same moves as data.
-/

namespace TapeCompiler

/-- Why tokens cannot be read or do not form a program. -/
inductive ParseFault where
  /-- The tokens violate the grammar, or end too early. -/
  | rejected (error : SyntaxError)
  /-- A number token spells no number. -/
  | badNumeral
  /-- A character token has no character. -/
  | noCharacter
  /-- More than two tokens are put back. -/
  | pushbackExceeded
  /-- The token to be read again is older than the slots. -/
  | slotBeyond
  /-- The slot to be read holds no token. -/
  | slotEmpty
  deriving DecidableEq, Repr, Inhabited

/-- The wording of a fault. -/
def ParseFault.message : ParseFault → String
  | rejected error => error.text
  | badNumeral => "Not a number"
  | noCharacter => "No character"
  | pushbackExceeded => "Backup exceeded buffer size"
  | slotBeyond => "No such slot"
  | slotEmpty => "Empty slot"

/-- A reader of tokens. -/
structure Lookahead where
  /-- The text that the tokens were read from. -/
  source : String
  /-- The tokens that have not been read. -/
  upcoming : List Token
  /-- The token that was read last. -/
  newest : Option Token
  /-- The token before `newest`. -/
  older : Option Token
  /-- The token before `older`. -/
  oldest : Option Token
  /-- How many tokens have been put back. -/
  back : Nat
  deriving DecidableEq, Repr, Inhabited

/-- A move of a reader. A failed move leaves a reader too. -/
abbrev Reading := EStateM ParseFault Lookahead

namespace Lookahead

/-- How many tokens can be put back. -/
def depth : Nat := 2

/-- A reader before the first token. -/
def ofTokens (source : String) (tokens : List Token) : Lookahead :=
  ⟨source, tokens, none, none, none, 0⟩

/-- The syntax error of reading behind the last token. It shows where the last token stands; if there
was none, it has no source to show. -/
def truncated (b : Lookahead) : SyntaxError :=
  match b.newest with
  | some t => ⟨⟨.finish, "", t.offset⟩, b.source, "Unexpected end of token stream"⟩
  | none => ⟨⟨.finish, "", 0⟩, "", "Unexpected end of token stream"⟩

/-- Reads a new token into the slots. The slots have moved on also when there is none. -/
def pull : Reading (Option Token) := fun b =>
  let moved := { b with older := b.newest, oldest := b.older }
  match b.upcoming with
  | [] => .error (.rejected b.truncated) moved
  | t :: ts => .ok (some t) { moved with upcoming := ts, newest := some t }

/-- Reads the next token, or again one that was put back. A slot may be empty. -/
def next : Reading (Option Token) := fun b =>
  match b.back with
  | 0 => pull b
  | 1 => .ok b.newest { b with back := 0 }
  | 2 => .ok b.older { b with back := 1 }
  | 3 => .ok b.oldest { b with back := 2 }
  | n + 1 => .error .slotBeyond { b with back := n }

/-- Puts back the token read last. -/
def backup : Reading Unit := fun b =>
  let b' := { b with back := b.back + 1 }
  if b.back < depth then .ok () b' else .error .pushbackExceeded b'

/-- Looks at the next token and leaves it there. -/
def peek : Reading (Option Token) := do
  let t ← next
  backup
  return t

/-- Rejects a token. An error token brings its own message. -/
def unexpected {α : Type} (t : Token) : Reading α := fun b =>
  let message := if t.kind = .error then t.text else s!"Unexpected token {t.label}"
  .error (.rejected ⟨t, b.source, message⟩) b

/-- The token in a slot that must not be empty. -/
def filled : Option Token → Reading Token
  | some t => pure t
  | none => throw .slotEmpty

/-- Reads a token of a given kind. -/
def accept (kind : TokenKind) : Reading Token := do
  let t ← filled (← next)
  if t.kind = kind then return t else unexpected t

/-- The moves as data. -/
inductive Op where
  | next
  | peek
  | backup
  | accept (kind : TokenKind)
  deriving DecidableEq, Repr, Inhabited

/-- Makes a move; putting back brings no token. -/
def perform : Op → Reading (Option Token)
  | .next => next
  | .peek => peek
  | .backup => do backup; return none
  | .accept kind => do return some (← accept kind)

end Lookahead

end TapeCompiler
