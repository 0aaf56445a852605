import TapeCompiler.Fault

/-!
# Scopes

A scope is a chain of frames, one for each block that is open. A frame binds names to cells in the
order of their definition; a binding without a name holds a temporary and is never found by name.

* `Scope.define`, `undefine`: the innermost frame.
* `Scope.getLocal?`, `get?`: a name in the innermost frame, or in the innermost frame that has it.
* `Scope.enter`, `exit?`: blocks.
-/

namespace TapeCompiler

/-- A cell with its name, if it has one. -/
structure Binding where
  name : Option String
  cell : Int
  deriving DecidableEq, Repr, Inhabited

/-- The bindings of one block in the order of their definition. -/
abbrev Frame := List Binding

/-- The binding of a name. -/
def Frame.find? (f : Frame) (name : String) : Option Binding :=
  List.find? (fun b => b.name == some name) f

/-- The frames of all open blocks; there is always one. -/
structure Scope where
  inner : Frame
  outer : List Frame
  deriving DecidableEq, Repr, Inhabited

namespace Scope

/-- One frame without bindings. -/
def empty : Scope :=
  ⟨[], []⟩

/-- The frames, the innermost first. -/
def frames (s : Scope) : List Frame :=
  s.inner :: s.outer

/-- The binding of a name in the innermost frame. -/
def getLocal? (s : Scope) (name : String) : Option Binding :=
  s.inner.find? name

/-- The binding of a name in the innermost frame that has one. -/
def get? (s : Scope) (name : String) : Option Binding :=
  s.frames.findSome? fun f => f.find? name

/-- Whether the innermost frame already has a binding of that name. -/
def isTaken (s : Scope) : Option String → Bool
  | some name => (s.getLocal? name).isSome
  | none => false

/-- Adds a binding to the innermost frame, whatever it holds. -/
def bind (s : Scope) (b : Binding) : Scope :=
  { s with inner := s.inner ++ [b] }

/-- Adds a binding to the innermost frame unless its name is taken there. -/
def define (s : Scope) (name : Option String) (cell : Int) : Except Fault (Binding × Scope) :=
  if s.isTaken name then .error (.alreadyDefined (name.getD ""))
  else .ok (⟨name, cell⟩, s.bind ⟨name, cell⟩)

/-- Removes a binding from the innermost frame. -/
def undefine (s : Scope) (b : Binding) : Except Fault Scope :=
  if b ∈ s.inner then .ok { s with inner := s.inner.erase b } else .error (.unbound b.name b.cell)

/-- Opens a block. -/
def enter (s : Scope) : Scope :=
  ⟨[], s.frames⟩

/-- Leaves the innermost block, if there is a block around it. -/
def exit? (s : Scope) : Option Scope :=
  match s.outer with
  | [] => none
  | f :: fs => some ⟨f, fs⟩

end Scope

end TapeCompiler
