import TapeCompiler.Token.Basic

/-!
# Programs

A program is a list of statements over identifiers. An identifier is a name with a mark before it or
none; what a mark means depends on the statement.

* `Mark`, `Ident`, `Operand`.
* `SyntaxError`: what is wrong, at which token, in which source.
* `Stmt`: the statements. Besides what can be written in a source, a statement may wrap another one,
  be a bare operand or stand for a syntax error; code generation gives each of them a meaning.
  Equality of statements is decided by `Stmt.beq`.

The limit of `maxDigits` digits holds where a text is read as a number (`readInt?`), not where a number is
written as a text (`Operand.text`): a number of any length has a text.
-/

namespace TapeCompiler

/-- The sign before the `$` of an identifier. -/
inductive Mark where
  | none
  | plus
  | minus
  | floor
  deriving DecidableEq, Repr, Inhabited

namespace Mark

/-- How a mark is written. -/
def text : Mark → String
  | none => ""
  | plus => "+"
  | minus => "-"
  | floor => "_"

/-- The mark that a character is. -/
def ofChar? (c : Char) : Option Mark :=
  if c = '+' then some plus else if c = '-' then some minus else if c = '_' then some floor else Option.none

/-- The mark at the start of a text. -/
def ofText (text : String) : Mark :=
  (text.toList.head?.bind ofChar?).getD none

end Mark

/-- A name and the mark before it. The name holds its `$`. -/
structure Ident where
  mark : Mark
  name : String
  deriving DecidableEq, Repr, Inhabited

namespace Ident

/-- Reads an identifier: the first mark counts, and all marks are cut off the name. -/
def ofText (text : String) : Ident :=
  ⟨Mark.ofText text, String.ofList (text.toList.dropWhile fun c => (Mark.ofChar? c).isSome)⟩

/-- How an identifier is written. -/
def text (i : Ident) : String :=
  i.mark.text ++ i.name

end Ident

/-- The right side of an assignment. -/
inductive Operand where
  | literal (value : Int)
  | ident (i : Ident)
  deriving DecidableEq, Repr, Inhabited

/-- How an operand is written. -/
def Operand.text : Operand → String
  | literal value => toString value
  | ident i => i.text

/-- A violation of the grammar: the token at which it shows, the source of that token and what is
wrong. -/
structure SyntaxError where
  token : Token
  source : String
  message : String
  deriving DecidableEq, Repr, Inhabited

namespace SyntaxError

/-- The line of the token. -/
def line (e : SyntaxError) : Nat :=
  e.token.line e.source

/-- The error in one sentence. -/
def text (e : SyntaxError) : String :=
  s!"Syntax Error at {e.line}. {e.message}"

end SyntaxError

/-- The statements of a program. -/
inductive Stmt where
  /-- Declares names. -/
  | declare (names : List Ident)
  /-- Moves the value of an operand into targets. -/
  | assign (targets : List Ident) (value : Operand)
  | print (names : List Ident)
  | read (names : List Ident)
  /-- Runs the body once if the subject is not zero. -/
  | branch (subject : Ident) (body : List Stmt)
  /-- Runs the body as long as the subject is not zero. -/
  | loop (subject : Ident) (body : List Stmt)
  /-- Defines a function. -/
  | define (name : Ident) (parameters : List Ident) (body : List Stmt)
  /-- Calls a function. -/
  | call (name : Ident) (arguments : List Ident)
  /-- A statement inside a statement. -/
  | wrap (inner : Stmt)
  /-- An operand in the place of a statement. -/
  | bare (operand : Operand)
  /-- A syntax error in the place of a statement. -/
  | invalid (error : SyntaxError)
  deriving Repr, Inhabited

/-! ## Equality of statements -/

mutual

/-- Whether two statements are the same. -/
def Stmt.beq : Stmt → Stmt → Bool
  | .declare a, .declare b => a == b
  | .assign a x, .assign b y => a == b && x == y
  | .print a, .print b => a == b
  | .read a, .read b => a == b
  | .branch i a, .branch j b => i == j && Stmt.beqAll a b
  | .loop i a, .loop j b => i == j && Stmt.beqAll a b
  | .define i p a, .define j q b => i == j && p == q && Stmt.beqAll a b
  | .call i a, .call j b => i == j && a == b
  | .wrap s, .wrap t => s.beq t
  | .bare x, .bare y => x == y
  | .invalid e, .invalid f => e == f
  | _, _ => false

/-- Whether two lists of statements are the same. -/
def Stmt.beqAll : List Stmt → List Stmt → Bool
  | [], [] => true
  | s :: ss, t :: ts => s.beq t && Stmt.beqAll ss ts
  | _, _ => false

end

mutual

theorem Stmt.beq_iff_eq : ∀ s t : Stmt, s.beq t = true ↔ s = t
  | .declare _, t => by cases t <;> simp [Stmt.beq]
  | .assign _ _, t => by cases t <;> simp [Stmt.beq]
  | .print _, t => by cases t <;> simp [Stmt.beq]
  | .read _, t => by cases t <;> simp [Stmt.beq]
  | .branch _ a, t => by cases t <;> simp [Stmt.beq, Stmt.beqAll_iff_eq a]
  | .loop _ a, t => by cases t <;> simp [Stmt.beq, Stmt.beqAll_iff_eq a]
  | .define _ _ a, t => by cases t <;> simp [Stmt.beq, Stmt.beqAll_iff_eq a, and_assoc]
  | .call _ _, t => by cases t <;> simp [Stmt.beq]
  | .wrap s, t => by cases t <;> simp [Stmt.beq, Stmt.beq_iff_eq s]
  | .bare _, t => by cases t <;> simp [Stmt.beq]
  | .invalid _, t => by cases t <;> simp [Stmt.beq]

theorem Stmt.beqAll_iff_eq : ∀ ss ts : List Stmt, Stmt.beqAll ss ts = true ↔ ss = ts
  | [], ts => by cases ts <;> simp [Stmt.beqAll]
  | s :: ss, ts => by cases ts <;> simp [Stmt.beqAll, Stmt.beq_iff_eq s, Stmt.beqAll_iff_eq ss]

end

instance : DecidableEq Stmt := fun s t =>
  decidable_of_iff _ (Stmt.beq_iff_eq s t)

end TapeCompiler
