import TapeCompiler.Assembler
import TapeCompiler.Proofs.Store

/-!
# Code on numbered cells

Between the statements of a program and the instructions for a tape stands code that names the cells
it works on and has loops as trees. It keeps no track of the head: that is what assembling adds.

* `CellOp`, `CellCode`: operations on cells, and loops of them. Giving a cell to a variable is noted where it
  happens; it is no code.
* `CellCode.instructions`: the instructions for a head that starts on a cell.
* `CellCode.Run`: the meaning of code as a relation between stores.
* `CellCode.cells`, `CellCode.varCells`: the cells it works on, and those taken for variables.
-/

namespace TapeCompiler

/-- An operation on a cell, or a note. -/
inductive CellOp where
  | add (cell n : Int)
  | print (cell : Int)
  | read (cell : Int)
  | comment (text : String)
  | mark (d : Diagnostic)
  /-- A variable has been given the cell. -/
  | declared (cell : Int)
  deriving DecidableEq, Repr, Inhabited

/-- How often the body of a loop may run. -/
inductive LoopKind where
  | many
  | once
  deriving DecidableEq, Repr, Inhabited

/-- Operations on cells, and loops on a cell. -/
inductive CellCode where
  | empty
  | op (o : CellOp) (next : CellCode)
  | loop (kind : LoopKind) (cell : Int) (body next : CellCode)
  deriving DecidableEq, Repr, Inhabited

/-- The instructions that bring the head from one cell to another. -/
def travel (head cell : Int) : List Instruction :=
  if cell = head then [] else [.move (cell - head)]

namespace CellOp

/-- Where the head is after an operation. -/
def headAfter (head : Int) : CellOp → Int
  | add cell _ | print cell | read cell => cell
  | comment _ | mark _ | declared _ => head

/-- The instructions of an operation for a head on a cell. -/
def instructions (comments : Bool) (head : Int) : CellOp → List Instruction
  | add cell n => travel head cell ++ [.add n]
  | print cell => travel head cell ++ [.print]
  | read cell => travel head cell ++ [.read]
  | comment text => if comments then [.comment (TapeOp.sanitize text)] else []
  | mark d => [.marker d]
  | declared _ => []

/-- The actions in the text of a diagnostic, which runs like all other code. -/
def textActions (text : String) : List Action :=
  (TapeOp.program text).filterMap fun
    | .increment => some .increment
    | .decrement => some .decrement
    | .write => some .write
    | .read => some .read
    | .right => some .right
    | .left => some .left
    | .openLoop | .closeLoop => none

/-- What an operation does to the cells. A diagnostic acts on the cell under the head. -/
def apply (head : Int) (s : Store Int) : CellOp → Store Int
  | add cell n => s.add cell n
  | print cell => s.print cell
  | read cell => s.read cell
  | mark d => (textActions d.text).foldl (Store.act head) s
  | comment _ | declared _ => s

/-- The cell of an operation that works on one. -/
def cell? : CellOp → Option Int
  | add cell _ | print cell | read cell => some cell
  | comment _ | mark _ | declared _ => none

end CellOp

namespace CellCode

/-- One piece of code behind the other. -/
def append : CellCode → CellCode → CellCode
  | empty, b => b
  | op o next, b => op o (next.append b)
  | loop kind cell body next, b => loop kind cell body (next.append b)

instance : Append CellCode := ⟨append⟩

/-- Operations without a loop. -/
def ofOps (os : List CellOp) : CellCode :=
  os.foldr op empty

/-- Where the head is after code. -/
def headAfter (head : Int) : CellCode → Int
  | empty => head
  | op o next => next.headAfter (o.headAfter head)
  | loop _ cell _ next => next.headAfter cell

/-- The instructions of code for a head on a cell. -/
def instructions (comments : Bool) (head : Int) : CellCode → List Instruction
  | empty => []
  | op o next => o.instructions comments head ++ next.instructions comments (o.headAfter head)
  | loop _ cell body next =>
    travel head cell ++ .openLoop :: (body.instructions comments cell ++
      travel (body.headAfter cell) cell ++ .closeLoop :: next.instructions comments cell)

/-- A run of code on a store ends. -/
def Run (head : Int) : CellCode → Store Int → Store Int → Prop
  | empty, s, t => t = s
  | op o next, s, t => next.Run (o.headAfter head) (o.apply head s) t
  | loop _ cell body next, s, t =>
    ∃ u, Repeats (fun s => s.value cell ≠ 0) (body.Run cell) s u ∧ next.Run cell u t

/-- The cells that code works on. -/
def cells : CellCode → List Int
  | empty => []
  | op o next => o.cell?.toList ++ next.cells
  | loop _ cell body next => cell :: (body.cells ++ next.cells)

/-- The cells that are given to variables, in order. -/
def varCells : CellCode → List Int
  | empty => []
  | op (.declared cell) next => cell :: next.varCells
  | op _ next => next.varCells
  | loop _ _ body next => body.varCells ++ next.varCells

/-- The diagnostics in code. -/
def diagnostics : CellCode → List Diagnostic
  | empty => []
  | op (.mark d) next => d :: next.diagnostics
  | op _ next => next.diagnostics
  | loop _ _ body next => body.diagnostics ++ next.diagnostics

/-! ## Appending -/

@[simp]
theorem empty_append (b : CellCode) : empty ++ b = b := rfl

@[simp]
theorem op_append (o : CellOp) (b c : CellCode) : op o b ++ c = op o (b ++ c) := rfl

@[simp]
theorem loop_append (kind : LoopKind) (cell : Int) (body b c : CellCode) :
    loop kind cell body b ++ c = loop kind cell body (b ++ c) := rfl

@[simp]
theorem append_empty (a : CellCode) : a ++ empty = a := by
  induction a with
  | empty => rfl
  | op o next ih => rw [op_append, ih]
  | loop kind cell body next _ ih => rw [loop_append, ih]

theorem append_assoc (a b c : CellCode) : a ++ b ++ c = a ++ (b ++ c) := by
  induction a with
  | empty => rfl
  | op o next ih => simp only [op_append, ih]
  | loop kind cell body next _ ih => simp only [loop_append, ih]

theorem ofOps_append (os ps : List CellOp) : ofOps (os ++ ps) = ofOps os ++ ofOps ps := by
  induction os with
  | nil => rfl
  | cons o os ih => exact congrArg (op o) ih

@[simp]
theorem headAfter_append (head : Int) (a b : CellCode) :
    (a ++ b).headAfter head = b.headAfter (a.headAfter head) := by
  induction a generalizing head with
  | empty => rfl
  | op o next ih => exact ih _
  | loop kind cell body next _ ih => exact ih _

@[simp]
theorem instructions_append (comments : Bool) (head : Int) (a b : CellCode) :
    (a ++ b).instructions comments head =
      a.instructions comments head ++ b.instructions comments (a.headAfter head) := by
  induction a generalizing head with
  | empty => rfl
  | op o next ih => simp [instructions, ih, headAfter]
  | loop kind cell body next _ ih => simp [instructions, ih, headAfter]

theorem run_append (head : Int) (a b : CellCode) (s t : Store Int) :
    (a ++ b).Run head s t ↔ ∃ u, a.Run head s u ∧ b.Run (a.headAfter head) u t := by
  induction a generalizing head s with
  | empty => simp [Run, headAfter]
  | op o next ih => exact ih _ _
  | loop kind cell body next _ ih =>
    simp only [loop_append, Run, ih, headAfter]
    constructor
    · rintro ⟨u, hu, v, hv, ht⟩
      exact ⟨v, ⟨u, hu, hv⟩, ht⟩
    · rintro ⟨v, ⟨u, hu, hv⟩, ht⟩
      exact ⟨u, hu, v, hv, ht⟩

@[simp]
theorem cells_append (a b : CellCode) : (a ++ b).cells = a.cells ++ b.cells := by
  induction a with
  | empty => rfl
  | op o next ih => simp [cells, ih]
  | loop kind cell body next _ ih => simp [cells, ih]

@[simp]
theorem varCells_append (a b : CellCode) : (a ++ b).varCells = a.varCells ++ b.varCells := by
  induction a with
  | empty => rfl
  | op o next ih => cases o <;> simp [varCells, ih]
  | loop kind cell body next _ ih => simp [varCells, ih]

@[simp]
theorem diagnostics_append (a b : CellCode) :
    (a ++ b).diagnostics = a.diagnostics ++ b.diagnostics := by
  induction a with
  | empty => rfl
  | op o next ih => cases o <;> simp [diagnostics, ih]
  | loop kind cell body next _ ih => simp [diagnostics, ih]

/-- The diagnostics in code are those among its instructions. -/
theorem diagnosticsOf_instructions (comments : Bool) (head : Int) (a : CellCode) :
    diagnosticsOf (a.instructions comments head) = a.diagnostics := by
  have htravel : ∀ h c, diagnosticsOf (travel h c) = [] := by
    intro h c
    unfold travel diagnosticsOf
    split <;> rfl
  unfold diagnosticsOf at htravel ⊢
  induction a generalizing head with
  | empty => rfl
  | op o next ih =>
    rw [instructions, List.filterMap_append, ih]
    cases o with
    | comment text => cases comments <;> rfl
    | add _ _ | print _ | read _ =>
      simp [CellOp.instructions, htravel, Instruction.diagnostic?, diagnostics]
    | mark d => rfl
    | declared _ => rfl
  | loop kind cell body next ihb ihn =>
    simp [instructions, htravel, List.filterMap_cons, Instruction.diagnostic?, diagnostics, ihb, ihn]

end CellCode

end TapeCompiler
