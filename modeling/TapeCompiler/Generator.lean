import TapeCompiler.Assembler
import TapeCompiler.Resolver

/-!
# Generating code

The generator walks a program with a resolver and an assembler. Every variable and every temporary has
a cell of its own. What is wrong with a program becomes a diagnostic in the code, and generation goes
on with the next statement; only a tape that is too short ends it, and no depth of blocks does. What was
emitted and defined up to then stays.

* `Generator`, `Generating`: the state, and steps of generation that leave a state also when they fail.
* `clear`, `transfer`, `copy`: the building blocks of code.
* `declare`, `assign`, `output`, `input`: the simple statements.
* `statement`, `statements`: all statements.
* `Generator.Op`, `Generator.perform`: a session of operations on one generator.
-/

namespace TapeCompiler

/-- The state of code generation. -/
structure Generator where
  resolver : Resolver
  assembler : Assembler
  deriving DecidableEq, Repr, Inhabited

/-- A step of code generation. -/
abbrev Generating := EStateM Fault Generator

namespace Generator

/-- A generator for a tape of some size. -/
def ofSize (tapeSize : Int) (comments : Bool) : Except Fault Generator :=
  (Resolver.ofSize tapeSize).map fun r => ⟨r, .new comments⟩

/-- What has been emitted. -/
def instructions (g : Generator) : List Instruction :=
  g.assembler.emitted.toList

end Generator

namespace Generate

/-- A step of the assembler. -/
def emit (f : Assembler → Assembler) : Generating Unit := fun g =>
  .ok () { g with assembler := f g.assembler }

/-- Closes the innermost loop. -/
def closeLoop : Generating Unit := fun g =>
  match g.assembler.closeLoop with
  | .ok a => .ok () { g with assembler := a }
  | .error e => .error e g

/-- Emits a diagnostic. -/
def mark (reason : Reason) (culprit : Culprit) : Generating Unit :=
  emit (·.mark ⟨reason, culprit⟩)

/-- The cell of an identifier. One that is not defined is reported. -/
def resolve (i : Ident) : Generating (Option Int) := fun g =>
  match g.resolver.lookup? i.name with
  | some cell => .ok (some cell) g
  | none => .ok none { g with assembler := g.assembler.mark ⟨.undefined i.name, .ident i⟩ }

/-- A new cell without a name. -/
def temporary : Generating Int := fun g =>
  match g.resolver.define none with
  | .ok (cell, r) => .ok cell { g with resolver := r }
  | .error e => .error e g

/-- Gives back the cell of a temporary. -/
def release (cell : Int) : Generating Unit := fun g =>
  match g.resolver.release cell with
  | .ok r => .ok () { g with resolver := r }
  | .error e => .error e g

/-- Counts a cell down to zero. -/
def clear (cell : Int) : Generating Unit := do
  emit (·.openLoop cell)
  emit (·.add cell (-1))
  closeLoop

/-- Counts `source` down to zero; with every unit each target cell grows by its own step. -/
def transfer (source : Int) (targets : List (Int × Int)) : Generating Unit := do
  emit (·.openLoop source)
  emit (·.add source (-1))
  targets.forM fun (cell, n) => emit (·.add cell n)
  closeLoop

/-- Adds `source` to `target` and keeps it; `scratch` is zero before and after. -/
def copy (source target scratch : Int) : Generating Unit := do
  transfer source [(target, 1), (scratch, 1)]
  transfer scratch [(source, 1)]

/-- Declares a name in the innermost block. -/
def declare (i : Ident) : Generating Unit := fun g =>
  match g.resolver.define (some i.name) with
  | .ok (_, r) => .ok () { g with resolver := r }
  | .error (.alreadyDefined _) => mark .redefined (.ident i) g
  | .error e => .error e g

/-- Prints the cell of a name, which should have no mark. -/
def output (i : Ident) : Generating Unit := do
  if i.mark ≠ .none then mark .markInPrint (.ident i)
  match ← resolve i with
  | some cell => emit (·.print cell)
  | none => return

/-- Reads into the cell of a name, which should have no mark. -/
def input (i : Ident) : Generating Unit := do
  if i.mark ≠ .none then mark .markInRead (.ident i)
  match ← resolve i with
  | some cell => emit (·.read cell)
  | none => return

/-- The cells of those targets that are defined, in the order in which they are written. -/
def resolveAll : List Ident → Generating (List (Int × Ident))
  | [] => return []
  | i :: is => do
    let cell ← resolve i
    let rest ← resolveAll is
    return match cell with
      | some c => (c, i) :: rest
      | none => rest

/-- Puts a target before all targets on its own or a higher cell. -/
def insertTarget (t : Int × Ident) : List (Int × Ident) → List (Int × Ident)
  | [] => [t]
  | u :: us => if t.1 ≤ u.1 then t :: u :: us else u :: insertTarget t us

/-- Targets by ascending cell; targets on one cell keep their order. -/
def sortTargets (ts : List (Int × Ident)) : List (Int × Ident) :=
  ts.foldr insertTarget []

/-- What each target gains with every unit of the value. A target that only makes sense elsewhere is
reported and gains nothing. -/
def targetSteps : List (Int × Ident) → Generating (List (Int × Int))
  | [] => return []
  | (cell, i) :: ts =>
    match i.mark with
    | .none | .plus => return (cell, 1) :: (← targetSteps ts)
    | .minus => return (cell, -1) :: (← targetSteps ts)
    | .floor => do
      mark .markInvalid (.ident i)
      targetSteps ts

/-- Moves the value in `source` into targets: those without a mark are set to zero before. -/
def moveInto (source : Int) (targets : List (Int × Ident)) : Generating Unit := do
  (targets.filter fun t => t.2.mark = .none).forM fun t => clear t.1
  let steps ← targetSteps targets
  transfer source steps

/-- An assignment. A literal is first built in a temporary. The undefined names of both sides are
reported, and without a value there is nothing to move. -/
def assign (targets : List Ident) (value : Operand) : Generating Unit := do
  emit (·.comment (Stmt.assign targets value).text)
  match value with
  | .literal n =>
    let source ← temporary
    emit (·.add source n)
    let cells ← resolveAll targets
    moveInto source (sortTargets cells)
    release source
  | .ident i =>
    let source ← resolve i
    let cells ← resolveAll targets
    match source with
    | some source => moveInto source (sortTargets cells)
    | none => return

/-- What the mark of a subject does to its cell at the end of the body. -/
def applyMark (subject : Ident) (cell : Int) : Generating Unit :=
  match subject.mark with
  | .none => return
  | .plus => emit (·.add cell 1)
  | .minus | .floor => emit (·.add cell (-1))

/-- Leaves the innermost block. -/
def leave : Generating Unit := fun g =>
  match g.resolver.exit with
  | .ok r => .ok () { g with resolver := r }
  | .error e => .error e g

/-- A block has a frame of its own, which is left also when its statements fail. -/
def block (body : Generating Unit) : Generating Unit := fun g =>
  match body { g with resolver := g.resolver.enter } with
  | .ok _ g' => leave g'
  | .error e g' =>
    match leave g' with
    | .ok _ g'' => .error e g''
    | .error e' g'' => .error e' g''

/-- A loop repeats its body while the subject is not zero. With an undefined subject it hangs on a
temporary that is zero, so that its body never runs. -/
def loop (subject : Ident) (body : Generating Unit) : Generating Unit := do
  match ← resolve subject with
  | some cell =>
    emit (·.openLoop cell)
    block body
    applyMark subject cell
    closeLoop
  | none =>
    let guard ← temporary
    emit (·.openLoop guard)
    block body
    closeLoop
    release guard

/-- The part of a branch that runs at most once: a loop on a flag that is cleared at once. -/
def once (flag : Int) (body : Generating Unit) : Generating Unit := do
  emit (·.openLoop flag)
  clear flag
  body
  closeLoop
  release flag

/-- A branch copies its subject into a flag and runs its body if the flag is not zero. -/
def branch (subject : Ident) (body : Generating Unit) : Generating Unit := do
  match ← resolve subject with
  | some cell =>
    let flag ← temporary
    let scratch ← temporary
    copy cell flag scratch
    release scratch
    once flag do
      block body
      applyMark subject cell
  | none =>
    let flag ← temporary
    once flag (block body)

mutual

/-- The code of one statement. -/
def statement : Stmt → Generating Unit
  | .declare names => names.forM declare
  | .assign targets value => assign targets value
  | .print names => names.forM output
  | .read names => names.forM input
  | .branch subject body => branch subject (statements body)
  | .loop subject body => loop subject (statements body)
  | .define name parameters body => mark .functions (.stmt (.define name parameters body))
  | .call name arguments => mark .functions (.stmt (.call name arguments))
  | .wrap inner => statement inner
  | .bare operand => mark (.notCompilable operand) (.stmt (.bare operand))
  | .invalid error => mark (.syntaxError error) (.stmt (.invalid error))

/-- The code of statements, one after the other. -/
def statements : List Stmt → Generating Unit
  | [] => return
  | s :: ss => do
    statement s
    statements ss

end

end Generate

namespace Generator

/-- What one can do with a generator from outside. -/
inductive Op where
  /-- Generates the code of statements. -/
  | generate (program : List Stmt)
  /-- Works on the assembler. -/
  | assembler (op : Assembler.Op)
  /-- Works on the resolver. -/
  | resolver (op : Resolver.Op)
  deriving DecidableEq, Repr, Inhabited

/-- Performs an operation: its result, which is a cell where there is one, and the generator after
it. -/
def perform (g : Generator) : Op → Except Fault (Option Int) × Generator
  | .generate program =>
    match Generate.statements program g with
    | .ok _ g' => (.ok none, g')
    | .error e g' => (.error e, g')
  | .assembler op =>
    let (result, a) := g.assembler.perform op
    (result.map fun _ => none, { g with assembler := a })
  | .resolver op =>
    let (result, r) := g.resolver.perform op
    (result, { g with resolver := r })

end Generator

end TapeCompiler
