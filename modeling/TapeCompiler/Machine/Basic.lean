import TapeCompiler.Machine.TapeOp

/-!
# The tape machine

A machine has a ring of byte cells with a head, a program with a place in it, an input that is used up
and an output that grows. Before a program is run, every bracket is given its partner.

* `Machine`, `Machine.ofSize`, `Machine.reset`.
* `pairUp`: the partners of the brackets of a program, or the first bracket that has none.
* `Machine.load`.
-/

namespace TapeCompiler

/-- What goes wrong on a machine. -/
inductive MachineFault where
  /-- No tape has a negative number of cells. -/
  | badSize
  /-- A loop is closed that was not opened. -/
  | unmatchedClose (place : Nat)
  /-- A loop is not closed. -/
  | unmatchedOpen (place : Nat)
  /-- The head has nowhere to go on a tape without cells. -/
  | noTape
  /-- There is no cell under the head. -/
  | noCell
  /-- A bracket without a partner is to be jumped from. -/
  | noPartner
  /-- The program has not ended after as many steps as it may take. -/
  | limitExceeded (limit : Int)
  deriving DecidableEq, Repr, Inhabited

/-- The wording of a fault. -/
def MachineFault.message : MachineFault → String
  | badSize => "Negative tape size"
  | unmatchedClose place => s!"Unmatched ']' at {place}"
  | unmatchedOpen place => s!"Unmatched '[' at {place}"
  | noTape => "No tape"
  | noCell => "No cell"
  | noPartner => "No partner"
  | limitExceeded limit => s!"Step limit exceeded ({limit})"

/-- For every place of a program, the partner of the bracket there. -/
abbrev Partners := Array (Option Nat)

/-- Makes two places each other's partners. -/
def Partners.join (t : Partners) (i j : Nat) : Partners :=
  (t.setIfInBounds i (some j)).setIfInBounds j (some i)

/-- The partner of the bracket at a place. -/
def Partners.get? (t : Partners) (i : Nat) : Option Nat :=
  (t[i]?).join

/-- Pairs up the brackets of the operations from place `i` on. `opened` are the places of the loops that
are open, the innermost first. Pairs that were found stay when a bracket has no partner. -/
def pairFrom (i : Nat) (opened : List Nat) (t : Partners) :
    List TapeOp → Except MachineFault Unit × Partners
  | [] =>
    match opened with
    | [] => (.ok (), t)
    | j :: _ => (.error (.unmatchedOpen j), t)
  | .openLoop :: ops => pairFrom (i + 1) (i :: opened) t ops
  | .closeLoop :: ops =>
    match opened with
    | [] => (.error (.unmatchedClose i), t)
    | j :: rest => pairFrom (i + 1) rest (t.join j i) ops
  | _ :: ops => pairFrom (i + 1) opened t ops

/-- Pairs up the brackets of a program. -/
def pairUp (ops : List TapeOp) : Except MachineFault Unit × Partners :=
  pairFrom 0 [] (Array.replicate ops.length none) ops

/-- A tape machine. -/
structure Machine where
  /-- The cells, which form a ring. -/
  tape : Array UInt8
  /-- The cell under the head. -/
  pointer : Nat
  program : Array TapeOp
  partners : Partners
  /-- The place of the next operation. -/
  pc : Nat
  /-- What is left of the input. -/
  input : List Char
  /-- The bytes that were written. -/
  output : Array UInt8
  /-- How many operations were run. -/
  steps : Nat
  deriving DecidableEq, Repr, Inhabited

namespace Machine

/-- A machine with `size` cells, all zero, and no program. -/
def blank (size : Nat) : Machine where
  tape := Array.replicate size 0
  pointer := 0
  program := #[]
  partners := #[]
  pc := 0
  input := []
  output := #[]
  steps := 0

/-- A machine with a number of cells that must not be negative. -/
def ofSize (size : Int) : Except MachineFault Machine :=
  if size < 0 then .error .badSize else .ok (blank size.toNat)

/-- Forgets everything but the number of cells. -/
def reset (m : Machine) : Machine :=
  blank m.tape.size

/-- Starts over with a program and an input. If a bracket has no partner the program is there all the
same. -/
def load (m : Machine) (text input : String) : Except MachineFault Unit × Machine :=
  let ops := TapeOp.program text
  let (result, partners) := pairUp ops
  (result, { m.reset with program := ops.toArray, partners, input := input.toList })

/-- Whether the program has ended. -/
def finished (m : Machine) : Bool :=
  m.program.size ≤ m.pc

/-- The value under the head. -/
def cell? (m : Machine) : Option UInt8 :=
  m.tape[m.pointer]?

/-- The output as text, one character for every byte. -/
def outputText (m : Machine) : String :=
  String.ofList (m.output.toList.map fun b => Char.ofNat b.toNat)

end Machine

end TapeCompiler
