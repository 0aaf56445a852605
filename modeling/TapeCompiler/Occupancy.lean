import TapeCompiler.Fault

/-!
# Occupied cells of a tape

Which cells of a tape are taken. A new cell is always the lowest one that is free. A tape may have any
number of cells; a largest index is not modelled.

* `Occupancy.allocate`, `free`, `isOccupied`.
* `Occupancy.used`, `indices`: the cells that are taken.
-/

namespace TapeCompiler

/-- For every cell of a tape, whether it is taken. -/
structure Occupancy where
  cells : List Bool
  deriving DecidableEq, Repr, Inhabited

namespace Occupancy

/-- A tape on which every cell is free. -/
def ofSize (size : Int) : Except Fault Occupancy :=
  if 0 < size then .ok ⟨List.replicate size.toNat false⟩ else .error (.tapeSize size)

/-- The number of cells. -/
def size (o : Occupancy) : Nat :=
  o.cells.length

/-- The number of cells that are taken. -/
def used (o : Occupancy) : Nat :=
  o.cells.count true

/-- The cells that are taken, in ascending order. -/
def indices (o : Occupancy) : List Nat :=
  (o.cells.zipIdx.filter Prod.fst).map Prod.snd

/-- The lowest cell that is free. -/
def lowestFree? (o : Occupancy) : Option Nat :=
  o.cells.findIdx? (! ·)

/-- Takes the lowest cell that is free. -/
def allocate (o : Occupancy) : Except Fault (Nat × Occupancy) :=
  match o.lowestFree? with
  | some i => .ok (i, ⟨o.cells.set i true⟩)
  | none => .error (.exhausted o.size)

/-- The place of a cell on the tape; negative numbers count from the end. -/
def index? (o : Occupancy) (cell : Int) : Option Nat :=
  if 0 ≤ cell ∧ cell < o.size then some cell.toNat
  else if cell < 0 ∧ 0 ≤ cell + o.size then some (cell + o.size).toNat
  else none

/-- Gives a cell back; a cell that there is not stays that way. -/
def clear (o : Occupancy) (cell : Int) : Occupancy :=
  match o.index? cell with
  | some i => ⟨o.cells.set i false⟩
  | none => o

/-- Gives a cell back. -/
def free (o : Occupancy) (cell : Int) : Except Fault Occupancy :=
  if (o.index? cell).isSome then .ok (o.clear cell) else .error .noCell

/-- Whether a cell is taken. -/
def isOccupied (o : Occupancy) (cell : Int) : Except Fault Bool :=
  match (o.index? cell).bind (o.cells[·]?) with
  | some taken => .ok taken
  | none => .error .noCell

end Occupancy

end TapeCompiler
