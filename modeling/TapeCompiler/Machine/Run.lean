import TapeCompiler.Machine.Basic

/-!
# Running a tape machine

Cells count modulo 256 and the head goes round the tape. Behind the end of the input zeros are read.

* `Machine.step`: one operation. A step that fails is counted and leaves the machine at its place.
* `Machine.runFor`: at most a given number of steps.
* `Machine.run`: runs up to a limit on all steps since the program was loaded.
-/

namespace TapeCompiler

namespace Machine

/-- Goes on with the next operation. -/
def proceed (m : Machine) : Except MachineFault Unit × Machine :=
  (.ok (), { m with pc := m.pc + 1 })

/-- Stops at the operation. -/
def stop (m : Machine) (f : MachineFault) : Except MachineFault Unit × Machine :=
  (.error f, m)

/-- Goes on behind the partner of the bracket. -/
def jump (m : Machine) : Except MachineFault Unit × Machine :=
  match m.partners.get? m.pc with
  | some place => { m with pc := place }.proceed
  | none => m.stop .noPartner

/-- Puts the head on another cell. -/
def shift (m : Machine) (pointer : Nat) : Except MachineFault Unit × Machine :=
  if m.tape.size = 0 then m.stop .noTape
  else { m with pointer := pointer % m.tape.size }.proceed

/-- Changes the value under the head. -/
def alter (m : Machine) (f : UInt8 → UInt8) : Except MachineFault Unit × Machine :=
  if m.pointer < m.tape.size then { m with tape := m.tape.modify m.pointer f }.proceed
  else m.stop .noCell

/-- The next byte of the input. -/
def nextByte (m : Machine) : UInt8 :=
  match m.input with
  | [] => 0
  | c :: _ => UInt8.ofNat c.toNat

/-- Runs one operation. -/
def execute (m : Machine) : TapeOp → Except MachineFault Unit × Machine
  | .right => m.shift (m.pointer + 1)
  | .left => m.shift (m.pointer + m.tape.size - 1)
  | .increment => m.alter (· + 1)
  | .decrement => m.alter (· - 1)
  | .write =>
    match m.cell? with
    | some b => { m with output := m.output.push b }.proceed
    | none => m.stop .noCell
  | .read =>
    let b := m.nextByte
    { m with input := m.input.tail }.alter fun _ => b
  | .openLoop =>
    match m.cell? with
    | some b => if b = 0 then m.jump else m.proceed
    | none => m.stop .noCell
  | .closeLoop =>
    match m.cell? with
    | some b => if b = 0 then m.proceed else m.jump
    | none => m.stop .noCell

/-- Runs the next operation, if the program has not ended. -/
def step (m : Machine) : Except MachineFault Unit × Machine :=
  match m.program[m.pc]? with
  | some op => { m with steps := m.steps + 1 }.execute op
  | none => (.ok (), m)

/-- Runs until the program ends, for at most `n` steps. `limit` is the number that a report of too many
steps names. -/
def runFor (limit : Int) : Nat → Machine → Except MachineFault Unit × Machine
  | 0, m => if m.finished then (.ok (), m) else m.stop (.limitExceeded limit)
  | n + 1, m =>
    if m.finished then (.ok (), m)
    else
      match m.step with
      | (.ok _, m') => runFor limit n m'
      | (.error f, m') => m'.stop f

/-- Runs until the program ends or `limit` steps were made, those before included. One step is made in
any case. -/
def run (m : Machine) (limit : Int) : Except MachineFault Unit × Machine :=
  runFor limit (max 1 (limit - m.steps).toNat) m

/-- The number of steps that a program may take if nobody says otherwise. -/
def defaultLimit : Int := 10000000

/-- The number of cells of a machine if nobody says otherwise. -/
def defaultSize : Int := 30000

end Machine

end TapeCompiler
