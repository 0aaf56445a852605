/-!
# Faults of code generation

What can end the work on cells, scopes and loops, as causes with one wording each. Faults of a program
that code generation survives are diagnostics and not faults.

* `Fault`, `Fault.message`.
-/

namespace TapeCompiler

/-- Why an operation on cells, scopes or loops is refused. -/
inductive Fault where
  /-- A tape needs at least one cell. -/
  | tapeSize (size : Int)
  /-- Every cell of the tape is taken. -/
  | exhausted (size : Nat)
  /-- There is no cell of that number. -/
  | noCell
  /-- The innermost frame already binds the name. -/
  | alreadyDefined (name : String)
  /-- The innermost frame does not hold the binding. -/
  | unbound (name : Option String) (cell : Int)
  /-- The outermost frame cannot be left. -/
  | outermostScope
  /-- Only a temporary of the innermost frame can be released. -/
  | notTemporary (cell : Int)
  /-- A loop is closed and none is open. -/
  | noOpenLoop
  /-- The program ends and loops on these cells, the outermost first, are open. -/
  | loopsOpen (cells : List Int)
  deriving DecidableEq, Repr, Inhabited

/-- The wording of a fault. -/
def Fault.message : Fault → String
  | tapeSize size => s!"Tape size must be positive, got {size}"
  | exhausted _ => "Memory is full!"
  | noCell => "No such cell"
  | alreadyDefined name => s!"{name} is already defined"
  | unbound name cell =>
    let shown := match name with
      | some n => s!"'{n}'"
      | none => "None"
    s!"Binding(name={shown}, cell={cell}) does not exist at this scope"
  | outermostScope => "Cannot exit the global scope"
  | notTemporary cell => s!"Compiler Error: cell {cell} is not a temporary of the current scope."
  | noOpenLoop => "close_loop() without a matching open_loop()"
  | loopsOpen cells =>
    s!"{cells.length} loop(s) left open at cells [" ++ ", ".intercalate (cells.map toString) ++ "]"

end TapeCompiler
