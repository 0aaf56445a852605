/-!
# Operations of the tape machine

A tape program is a text; eight of its characters are operations and all others are remarks.

* `TapeOp`, `TapeOp.ofChar?`, `TapeOp.toChar`.
* `TapeOp.program`: the operations of a text.
* `TapeOp.sanitize`: a text as a remark that holds no operation.
-/

namespace TapeCompiler

/-- The eight operations. -/
inductive TapeOp where
  /-- The head goes one cell to the right. -/
  | right
  /-- The head goes one cell to the left. -/
  | left
  /-- The cell under the head grows by one. -/
  | increment
  /-- The cell under the head shrinks by one. -/
  | decrement
  /-- Skips the loop if the cell under the head is zero. -/
  | openLoop
  /-- Repeats the loop if the cell under the head is not zero. -/
  | closeLoop
  /-- Writes the cell under the head. -/
  | write
  /-- Reads into the cell under the head. -/
  | read
  deriving DecidableEq, Repr, Inhabited

namespace TapeOp

/-- The character that stands for an operation. -/
def toChar : TapeOp → Char
  | right => '>'
  | left => '<'
  | increment => '+'
  | decrement => '-'
  | openLoop => '['
  | closeLoop => ']'
  | write => '.'
  | read => ','

/-- The operation that a character stands for. -/
def ofChar? : Char → Option TapeOp
  | '>' => some right
  | '<' => some left
  | '+' => some increment
  | '-' => some decrement
  | '[' => some openLoop
  | ']' => some closeLoop
  | '.' => some write
  | ',' => some read
  | _ => none

/-- Every operation is read back from its character. -/
@[simp]
theorem ofChar?_toChar (op : TapeOp) : ofChar? op.toChar = some op := by
  cases op <;> rfl

/-- An operation is read from its own character only. -/
theorem toChar_of_ofChar? {c : Char} {op : TapeOp} (h : ofChar? c = some op) : op.toChar = c := by
  unfold ofChar? at h
  split at h <;> cases h <;> rfl

/-- The operations of a text; what is none is skipped. -/
def program (text : String) : List TapeOp :=
  text.toList.filterMap ofChar?

/-- The text with a tilde in the place of every operation. -/
def sanitize (text : String) : String :=
  text.map fun c => if (ofChar? c).isSome then '~' else c

end TapeOp

end TapeCompiler
