import TapeCompiler.Program.Basic
import TapeCompiler.Proofs.Repeats
import TapeCompiler.Proofs.Store

/-!
# The meaning of programs

A program works on variables that hold a byte. Every declaration in its text is one variable, and it is
zero at the start; a name stands for the innermost declaration that is in scope where the name is used.

* `Var`, `Names`: variables, and the names that are in scope.
* `Names.assign`, `branch`, `loop`, `print`, `read`: what statements do to the variables.
* `Stmt.meaning`, `Stmt.meanings`: **the meaning of statements**, as a relation between the variables
  before and after. Statements that never end relate to nothing.
* `EndsIn`: how a program ends on an input.
-/

namespace TapeCompiler

/-- The variables of a program. Literals are counted down in a variable that no name stands for. -/
inductive Var where
  | declared (index : ℕ)
  | hidden
  deriving DecidableEq, Repr, Inhabited

/-- What a statement does to the variables. -/
abbrev Meaning := Store Var → Store Var → Prop

/-- What a target gains with every unit that is moved. -/
def Mark.gain : Mark → Option Int
  | none | plus => some 1
  | minus => some (-1)
  | floor => Option.none

/-- What a subject gains at the end of its body. -/
def Mark.drift : Mark → Int
  | none => 0
  | plus => 1
  | minus | floor => -1

/-- The names that are in scope with the declarations that they stand for, and the number of
declarations so far. -/
structure Names where
  find : String → Option ℕ
  count : ℕ

namespace Names

/-- Nothing is declared. -/
def empty : Names :=
  ⟨fun _ => none, 0⟩

/-- Declares a name. -/
def declare (n : Names) (name : String) : Names :=
  ⟨Function.update n.find name (some n.count), n.count + 1⟩

/-- What is in scope behind a block: the names before it. The declarations in it still count. -/
def leave (n inner : Names) : Names :=
  ⟨n.find, inner.count⟩

variable (n : Names)

/-- The variable of an identifier. -/
def var? (i : Ident) : Option Var :=
  (n.find i.name).map .declared

/-- The variables of the targets without a mark. -/
def plain (targets : List Ident) : List Var :=
  (targets.filter fun i => i.mark = .none).filterMap n.var?

/-- What the variables of the targets gain with every unit. -/
def gains (targets : List Ident) : List (Var × Int) :=
  targets.filterMap fun i => do return (← n.var? i, ← i.mark.gain)

/-- Moves units out of a variable into the targets, until it is zero. -/
def drain (source : Var) (targets : List Ident) : Meaning :=
  Repeats (fun w => w.value source ≠ 0) fun w w' => w' = w.addAll ((source, -1) :: n.gains targets)

/-- An assignment: the targets without a mark become zero, and then the value is moved. -/
def assign (targets : List Ident) : Operand → Meaning
  | .literal value => fun w =>
    n.drain .hidden targets ((w.zeroAll (n.plain targets)).set .hidden (UInt8.ofInt value))
  | .ident i =>
    match n.var? i with
    | some x => fun w => n.drain x targets (w.zeroAll (n.plain targets))
    | none => fun w w' => w' = w

/-- Prints variables, one byte each. -/
def print (names : List Ident) (w : Store Var) : Store Var :=
  (names.filterMap n.var?).foldl .print w

/-- Reads into variables, one byte each. -/
def read (names : List Ident) (w : Store Var) : Store Var :=
  (names.filterMap n.var?).foldl .read w

/-- Runs the body once if the subject is not zero, and applies its mark. -/
def branch (subject : Ident) (body : Meaning) : Meaning :=
  match n.var? subject with
  | some x => fun w w' =>
    if w.value x ≠ 0 then ∃ u, body w u ∧ w' = u.add x subject.mark.drift else w' = w
  | none => fun w w' => w' = w

/-- Runs the body as long as the subject is not zero, and applies its mark after each pass. -/
def loop (subject : Ident) (body : Meaning) : Meaning :=
  match n.var? subject with
  | some x =>
    Repeats (fun w => w.value x ≠ 0) fun w w' => ∃ u, body w u ∧ w' = u.add x subject.mark.drift
  | none => fun w w' => w' = w

end Names

mutual

/-- The meaning of a statement, and the names in scope behind it. -/
def Stmt.meaning : Stmt → Names → Meaning × Names
  | .declare names, n => (fun w w' => w' = w, names.foldl (fun n i => n.declare i.name) n)
  | .assign targets value, n => (n.assign targets value, n)
  | .print names, n => (fun w w' => w' = n.print names w, n)
  | .read names, n => (fun w w' => w' = n.read names w, n)
  | .branch subject body, n =>
    let (m, inner) := Stmt.meanings body n
    (n.branch subject m, n.leave inner)
  | .loop subject body, n =>
    let (m, inner) := Stmt.meanings body n
    (n.loop subject m, n.leave inner)
  | .wrap inner, n => inner.meaning n
  | .define _ _ _, n | .call _ _, n | .bare _, n | .invalid _, n => (fun w w' => w' = w, n)

/-- **The meaning of statements**, one after the other. -/
def Stmt.meanings : List Stmt → Names → Meaning × Names
  | [], n => (fun w w' => w' = w, n)
  | s :: ss, n =>
    let (first, n₁) := s.meaning n
    let (rest, n₂) := Stmt.meanings ss n₁
    (fun w w' => ∃ u, first w u ∧ rest u w', n₂)

end

/-- How a program ends on an input. All variables are zero at the start. -/
def EndsIn (program : List Stmt) (input : List Char) (w : Store Var) : Prop :=
  (Stmt.meanings program .empty).1 (.zero Var input) w

mutual

/-- Whether a statement holds a declaration, at any depth. -/
def Stmt.declares : Stmt → Bool
  | .declare _ => true
  | .branch _ body | .loop _ body | .define _ _ body => Stmt.anyDeclares body
  | .wrap inner => inner.declares
  | .assign _ _ | .print _ | .read _ | .call _ _ | .bare _ | .invalid _ => false

/-- Whether one of the statements holds a declaration. -/
def Stmt.anyDeclares : List Stmt → Bool
  | [] => false
  | s :: ss => s.declares || Stmt.anyDeclares ss

end

mutual

/-- Whether a loop in a statement, at any depth, holds a declaration. -/
def Stmt.loopDeclares : Stmt → Bool
  | .loop _ body => Stmt.anyDeclares body || Stmt.anyLoopDeclares body
  | .branch _ body | .define _ _ body => Stmt.anyLoopDeclares body
  | .wrap inner => inner.loopDeclares
  | .declare _ | .assign _ _ | .print _ | .read _ | .call _ _ | .bare _ | .invalid _ => false

/-- Whether a loop in one of the statements holds a declaration. -/
def Stmt.anyLoopDeclares : List Stmt → Bool
  | [] => false
  | s :: ss => s.loopDeclares || Stmt.anyLoopDeclares ss

end

end TapeCompiler
