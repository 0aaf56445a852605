import TapeCompiler.Occupancy
import TapeCompiler.Scope

/-!
# Resolving names to cells

A resolver holds the scope and the occupied cells together. Leaving a block forgets its names and keeps
their cells; only `release` gives a cell back.

* `Resolver.define`, `lookup?`, `release`, `enter`, `exit`, `reset`.
* `Resolver.Op`, `Resolver.perform`: the same operations as data, each with the resolver it leaves
  behind also when it is refused.
-/

namespace TapeCompiler

/-- The scope and the occupied cells of a tape of `tapeSize` cells. -/
structure Resolver where
  tapeSize : Int
  memory : Occupancy
  scope : Scope
  deriving DecidableEq, Repr, Inhabited

namespace Resolver

/-- The number of cells of a tape if nobody says otherwise. -/
def defaultTapeSize : Int := 100

/-- A resolver for a tape of some size with nothing defined. -/
def ofSize (size : Int) : Except Fault Resolver :=
  (Occupancy.ofSize size).map fun memory => ⟨size, memory, .empty⟩

/-- Starts again, with a new size if there is one. A size that is refused is kept all the same. -/
def reset (r : Resolver) (size : Option Int) : Except Fault Unit × Resolver :=
  let size := size.getD r.tapeSize
  match ofSize size with
  | .ok r' => (.ok (), r')
  | .error e => (.error e, { r with tapeSize := size })

/-- Opens a block. -/
def enter (r : Resolver) : Resolver :=
  { r with scope := r.scope.enter }

/-- Leaves the innermost block. -/
def exit (r : Resolver) : Except Fault Resolver :=
  match r.scope.exit? with
  | some scope => .ok { r with scope }
  | none => .error .outermostScope

/-- Takes a cell for a name, or for a temporary if there is none. A name that is taken in the innermost
frame is refused before a cell is sought. -/
def define (r : Resolver) (name : Option String) : Except Fault (Nat × Resolver) :=
  if r.scope.isTaken name then .error (.alreadyDefined (name.getD ""))
  else do
    let (cell, memory) ← r.memory.allocate
    return (cell, { r with memory, scope := r.scope.bind ⟨name, cell⟩ })

/-- The cell of a name. -/
def lookup? (r : Resolver) (name : String) : Option Int :=
  (r.scope.get? name).map Binding.cell

/-- Forgets a temporary of the innermost frame and gives its cell back. -/
def release (r : Resolver) (cell : Int) : Except Fault Resolver :=
  match r.scope.undefine ⟨none, cell⟩ with
  | .ok scope => .ok { r with scope, memory := r.memory.clear cell }
  | .error _ => .error (.notTemporary cell)

/-- The operations as data. -/
inductive Op where
  | enter
  | exit
  | define (name : Option String)
  | lookup (name : String)
  | release (cell : Int)
  | reset (size : Option Int)
  deriving DecidableEq, Repr, Inhabited

/-- A resolver that an operation may refuse to change. -/
def orSame (r : Resolver) : Except Fault Resolver → Except Fault (Option Int) × Resolver
  | .ok r' => (.ok none, r')
  | .error e => (.error e, r)

/-- Performs an operation: its result, which is a cell where there is one, and the resolver after it. -/
def perform (r : Resolver) : Op → Except Fault (Option Int) × Resolver
  | .enter => (.ok none, r.enter)
  | .exit => r.orSame r.exit
  | .define name =>
    match r.define name with
    | .ok (cell, r') => (.ok (some cell), r')
    | .error e => (.error e, r)
  | .lookup name => (.ok (r.lookup? name), r)
  | .release cell => r.orSame (r.release cell)
  | .reset size =>
    let (result, r') := r.reset size
    (result.map fun _ => none, r')

end Resolver

end TapeCompiler
