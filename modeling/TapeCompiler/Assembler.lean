import TapeCompiler.Fault
import TapeCompiler.Instruction

/-!
# Assembling instructions

An assembler takes operations on numbered cells and emits instructions relative to the head. It knows
on which cell the head stands and emits a move only where the head has to travel; and it knows the
cells of the open loops, so that a loop ends on the cell on which it started.

* `Assembler.move`, `add`, `openLoop`, `closeLoop`, `print`, `read`, `comment`, `mark`.
* `Assembler.finish`: refuses a program with open loops.
* `Assembler.Op`, `Assembler.perform`: the same operations as data.
-/

namespace TapeCompiler

/-- An assembler in the middle of a program. -/
structure Assembler where
  /-- Whether remarks are emitted. -/
  comments : Bool
  emitted : Array Instruction
  /-- The cell under the head. -/
  position : Int
  /-- The cells of the open loops, the innermost first. -/
  openLoops : List Int
  /-- How many diagnostics were emitted. -/
  errorCount : Nat
  deriving DecidableEq, Repr, Inhabited

namespace Assembler

/-- An assembler that has emitted nothing. -/
def new (comments : Bool) : Assembler :=
  ⟨comments, #[], 0, [], 0⟩

/-- Emits an instruction. -/
def emit (a : Assembler) (i : Instruction) : Assembler :=
  { a with emitted := a.emitted.push i }

/-- Brings the head to a cell. -/
def move (a : Assembler) (cell : Int) : Assembler :=
  if cell = a.position then a
  else { a.emit (.move (cell - a.position)) with position := cell }

/-- Adds a number to a cell. -/
def add (a : Assembler) (cell n : Int) : Assembler :=
  (a.move cell).emit (.add n)

/-- Opens a loop on a cell. -/
def openLoop (a : Assembler) (cell : Int) : Assembler :=
  let a := (a.move cell).emit .openLoop
  { a with openLoops := cell :: a.openLoops }

/-- Closes the innermost loop, on the cell on which it was opened. -/
def closeLoop (a : Assembler) : Except Fault Assembler :=
  match a.openLoops with
  | [] => .error .noOpenLoop
  | cell :: rest => .ok { (a.move cell).emit .closeLoop with openLoops := rest }

/-- Prints a cell. -/
def print (a : Assembler) (cell : Int) : Assembler :=
  (a.move cell).emit .print

/-- Reads into a cell. -/
def read (a : Assembler) (cell : Int) : Assembler :=
  (a.move cell).emit .read

/-- Emits a remark, with nothing in it that the tape machine would run. -/
def comment (a : Assembler) (text : String) : Assembler :=
  if a.comments then a.emit (.comment (TapeOp.sanitize text)) else a

/-- Emits a diagnostic. -/
def mark (a : Assembler) (d : Diagnostic) : Assembler :=
  { a.emit (.marker d) with errorCount := a.errorCount + 1 }

/-- The cells of the open loops, the outermost first. -/
def loopCells (a : Assembler) : List Int :=
  a.openLoops.reverse

/-- Checks that every loop is closed. -/
def finish (a : Assembler) : Except Fault Unit :=
  if a.openLoops.isEmpty then .ok () else .error (.loopsOpen a.loopCells)

/-- The operations as data. -/
inductive Op where
  | move (cell : Int)
  | add (cell n : Int)
  | openLoop (cell : Int)
  | closeLoop
  | print (cell : Int)
  | read (cell : Int)
  | comment (text : String)
  | mark (d : Diagnostic)
  | finish
  deriving DecidableEq, Repr, Inhabited

/-- Performs an operation; one that is refused changes nothing. -/
def perform (a : Assembler) : Op → Except Fault Unit × Assembler
  | .move cell => (.ok (), a.move cell)
  | .add cell n => (.ok (), a.add cell n)
  | .openLoop cell => (.ok (), a.openLoop cell)
  | .closeLoop =>
    match a.closeLoop with
    | .ok a' => (.ok (), a')
    | .error e => (.error e, a)
  | .print cell => (.ok (), a.print cell)
  | .read cell => (.ok (), a.read cell)
  | .comment text => (.ok (), a.comment text)
  | .mark d => (.ok (), a.mark d)
  | .finish => (a.finish, a)

end Assembler

end TapeCompiler
