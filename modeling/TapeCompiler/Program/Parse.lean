import TapeCompiler.Lookahead
import TapeCompiler.Text.Numeral

/-!
# Parsing tokens into a program

Recursive descent over a `Lookahead`. The first token that fits nowhere ends the parse, and no part of
a program is returned with an error.

* `statement`: one statement, given how to read the statements of a block.
* `statements`: the statements up to a closing token.
* `parse`: the program that a list of tokens spells.

Every statement and every identifier of a list reads a token, so the number of tokens bounds both
recursions. Blocks may be nested to any depth: there is no stack that could overflow.
-/

namespace TapeCompiler

namespace Parse

open Lookahead

/-- Gives up because no token is left. -/
def exhausted {α : Type} : Reading α := fun b =>
  .error (.rejected b.truncated) b

/-- Reads the next token. -/
def token : Reading Token := do
  filled (← next)

/-- Looks at the next token. -/
def peekToken : Reading Token := do
  filled (← peek)

/-- An identifier. -/
def ident : Reading Ident := do
  return Ident.ofText (← accept .ident).text

/-- Identifiers up to a token of kind `stop`, at most `bound - 1` of them. -/
def identsUntil (stop : TokenKind) : Nat → Reading (List Ident)
  | 0 => exhausted
  | bound + 1 => do
    let t ← token
    if t.kind = stop then return []
    if t.kind = .ident then
      let rest ← identsUntil stop bound
      return Ident.ofText t.text :: rest
    else unexpected t

/-- The value of an assignment. A name there is taken as it is, so it has no `+` or `-`. -/
def value : Reading Operand := do
  let t ← token
  match t.kind with
  | .number =>
    match readInt? t.text with
    | some n => return .literal n
    | none => throw .badNumeral
  | .character =>
    match t.text.toList with
    | c :: _ => return .literal c.toNat
    | [] => throw .noCharacter
  | .ident =>
    let i := Ident.ofText t.text
    if i.mark = .none ∨ i.mark = .floor then return .ident i
    else
      let b ← get
      throw (.rejected ⟨t, b.source,
        s!"Operator '{i.mark.text}' is not allowed on the right-hand side"⟩)
  | _ => unexpected t

/-- An assignment, from its first target on. -/
def assignment (bound : Nat) : Reading Stmt := do
  let targets ← identsUntil .equals bound
  let operand ← value
  let _ ← accept .semicolon
  return .assign targets operand

/-- A call, from the function's name on. -/
def call (bound : Nat) : Reading Stmt := do
  let name ← ident
  let _ ← accept .openParen
  let arguments ← identsUntil .closeParen bound
  let _ ← accept .semicolon
  return .call name arguments

/-- A call or an assignment of which the first identifier has just been read: what follows it tells
which, and then both are put back. -/
def callOrAssignment (bound : Nat) : Reading Stmt := do
  let following ← peekToken
  backup
  match following.kind with
  | .openParen => call bound
  | .ident | .equals => assignment bound
  | _ => unexpected following

/-- The subject and the body of a branch or a loop. -/
def control (block : TokenKind → Reading (List Stmt)) : Reading (Ident × List Stmt) := do
  let subject ← ident
  let _ ← accept .openBrace
  let body ← block .closeBrace
  return (subject, body)

/-- The rest of a function definition. -/
def definition (block : TokenKind → Reading (List Stmt)) (bound : Nat) : Reading Stmt := do
  let name ← ident
  let _ ← accept .openParen
  let parameters ← identsUntil .closeParen bound
  let _ ← accept .openBrace
  let body ← block .closeBrace
  return .define name parameters body

/-- One statement; `block` reads the statements of a block and the token that closes it. -/
def statement (block : TokenKind → Reading (List Stmt)) (bound : Nat) : Reading Stmt := do
  let t ← token
  match t.kind with
  | .keyword .declare => return .declare (← identsUntil .semicolon bound)
  | .keyword .print => return .print (← identsUntil .semicolon bound)
  | .keyword .read => return .read (← identsUntil .semicolon bound)
  | .keyword .define => definition block bound
  | .keyword .branch =>
    let (subject, body) ← control block
    return .branch subject body
  | .keyword .loop =>
    let (subject, body) ← control block
    return .loop subject body
  | .ident => callOrAssignment bound
  | _ => unexpected t

/-- The statements up to a token of kind `stop`, which is read too. -/
def statements : Nat → TokenKind → Reading (List Stmt)
  | 0, _ => exhausted
  | bound + 1, stop => do
    if (← peekToken).kind = stop then
      let _ ← accept stop
      return []
    let first ← statement (statements bound) (bound + 1)
    let rest ← statements bound stop
    return first :: rest

end Parse

/-- The program that tokens spell up to the token that ends a source, or why they spell none.
`source` is the text that the tokens come from. -/
def parse (source : String) (tokens : List Token) : Except ParseFault (List Stmt) :=
  match Parse.statements (tokens.length + 1) .finish (Lookahead.ofTokens source tokens) with
  | .ok program _ => .ok program
  | .error fault _ => .error fault

end TapeCompiler
