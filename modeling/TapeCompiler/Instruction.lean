import TapeCompiler.Machine.TapeOp
import TapeCompiler.Program.Render
import TapeCompiler.Report

/-!
# Instructions

What code generation emits: runs of tape operations, remarks, and diagnostics in the place where they
were found. An instruction has a mnemonic for listings and a fragment of tape code.

* `Reason`, `Culprit`, `Diagnostic`: what is wrong with a program, and where.
* `Instruction.mnemonic`, `Instruction.code`.
* `codeText`, `listing`: a list of instructions as code and as a listing.
-/

namespace TapeCompiler

/-- What is wrong with a program that follows the grammar. -/
inductive Reason where
  | undefined (name : String)
  | redefined
  | markInPrint
  | markInRead
  | markInvalid
  | functions
  | notCompilable (operand : Operand)
  | syntaxError (error : SyntaxError)
  /-- Whatever else a caller has to say. -/
  | other (text : String)
  deriving DecidableEq, Repr, Inhabited

/-- The wording of a reason. -/
def Reason.message : Reason → String
  | undefined name => s!"{name} is not defined"
  | redefined => "Cannot redefine variable within the same scope"
  | markInPrint => "Unexpected operator in print statement"
  | markInRead => "Unexpected operator in read statement"
  | markInvalid => "Invalid operator"
  | functions => "Functions are not implemented... yet"
  | notCompilable (.literal _) => "Lit is not compilable"
  | notCompilable (.ident _) => "Ident is not compilable"
  | syntaxError error => error.text
  | other text => text

/-- The part of a program that is wrong. -/
inductive Culprit where
  | ident (i : Ident)
  | stmt (s : Stmt)
  | other (text : String)
  deriving DecidableEq, Repr, Inhabited

/-- How a diagnostic shows the part that is wrong. -/
def Culprit.text : Culprit → String
  | ident i => i.text
  | stmt s => s.text
  | other text => text

/-- What is wrong with which part of a program. -/
structure Diagnostic where
  reason : Reason
  culprit : Culprit
  deriving DecidableEq, Repr, Inhabited

namespace Diagnostic

/-- A diagnostic in one line. -/
def text (d : Diagnostic) : String :=
  s!"Compiler Error: {d.reason.message}, {d.culprit.text}"

/-- A diagnostic with a hint below it if there is one. -/
def report (d : Diagnostic) : String :=
  d.text ++ hintLine (compileHint? d.reason.message)

end Diagnostic

/-- One emitted instruction. -/
inductive Instruction where
  /-- The head goes `delta` cells to the right, or to the left if `delta` is negative. -/
  | move (delta : Int)
  /-- The cell under the head grows by `n`. -/
  | add (n : Int)
  | openLoop
  | closeLoop
  | print
  | read
  /-- A remark, which is no code. -/
  | comment (text : String)
  /-- A diagnostic where it was found. -/
  | marker (d : Diagnostic)
  deriving DecidableEq, Repr, Inhabited

namespace Instruction

/-- The name of an instruction in a listing. -/
def mnemonic : Instruction → String
  | move delta => "MOV " ++ (if delta < 0 then "" else "+") ++ toString delta
  | add n => s!"ADD {n}"
  | openLoop => "SLOOP"
  | closeLoop => "ELOOP"
  | print => "PRINT"
  | read => "READ"
  | comment text => s!"# {text}"
  | marker d => d.text

/-- As often `up` as a positive number says, or `down` as a negative one does. -/
def signedRun (up down : TapeOp) (n : Int) : String :=
  if 0 < n then String.ofList (List.replicate n.toNat up.toChar)
  else String.ofList (List.replicate (-n).toNat down.toChar)

/-- The tape code of an instruction. A diagnostic is its own text, so that it cannot be missed. -/
def code : Instruction → String
  | move delta => signedRun .right .left delta
  | add n => signedRun .increment .decrement n
  | openLoop => "["
  | closeLoop => "]"
  | print => "."
  | read => ","
  | comment _ => ""
  | marker d => d.text

/-- The diagnostic of an instruction that is one. -/
def diagnostic? : Instruction → Option Diagnostic
  | marker d => some d
  | _ => none

end Instruction

/-- The tape code of instructions. -/
def codeText (is : List Instruction) : String :=
  String.join (is.map Instruction.code)

/-- The mnemonics of instructions, one to a line. -/
def listing (is : List Instruction) : String :=
  "\n".intercalate (is.map Instruction.mnemonic)

/-- The diagnostics among instructions. -/
def diagnosticsOf (is : List Instruction) : List Diagnostic :=
  is.filterMap Instruction.diagnostic?

end TapeCompiler
