import TapeCompiler.Generator

/-!
# What generation is composed of

All code is generated by a few steps, one after the other and in blocks. What holds of these steps and is kept by
composing them holds of every program, so it need not be followed through the statements each time.

* `Generate.Closed`: a property of steps that composing them keeps.
* `Generate.Closed.statements`: **such a property holds of all statements.**
-/

namespace TapeCompiler

namespace Generate

/-- A property of the single steps of generation that composing them keeps. -/
structure Closed (P : ∀ {α : Type}, Generating α → Prop) : Prop where
  pure : ∀ {α : Type} (v : α), P (pure v : Generating α)
  bind : ∀ {α β : Type} {x : Generating α} {f : α → Generating β}, P x → (∀ v, P (f v)) → P (x >>= f)
  emit : ∀ op : Assembler.Op, P (emit fun a => (a.perform op).2)
  closeLoop : P closeLoop
  resolve : ∀ i : Ident, P (resolve i)
  temporary : P temporary
  release : ∀ cell : Int, P (release cell)
  declare : ∀ i : Ident, P (declare i)
  block : ∀ {x : Generating Unit}, P x → P (block x)

namespace Closed

variable {P : ∀ {α : Type}, Generating α → Prop} (h : Closed P)

include h

theorem forM {α : Type} {x : α → Generating Unit} (hx : ∀ v, P (x v)) (vs : List α) : P (vs.forM x) := by
  induction vs with
  | nil => exact h.pure ()
  | cons v vs ih => exact h.bind (hx v) fun _ => ih

theorem clear (cell : Int) : P (clear cell) :=
  h.bind (h.emit (.openLoop cell)) fun _ => h.bind (h.emit (.add cell (-1))) fun _ => h.closeLoop

theorem transfer (source : Int) (steps : List (Int × Int)) : P (transfer source steps) :=
  h.bind (h.emit (.openLoop source)) fun _ => h.bind (h.emit (.add source (-1))) fun _ =>
    h.bind (h.forM (fun (cell, n) => h.emit (.add cell n)) steps) fun _ => h.closeLoop

theorem copy (source target scratch : Int) : P (copy source target scratch) :=
  h.bind (h.transfer source [(target, 1), (scratch, 1)]) fun _ => h.transfer scratch [(source, 1)]

theorem mark (reason : Reason) (culprit : Culprit) : P (mark reason culprit) :=
  h.emit (.mark ⟨reason, culprit⟩)

/-- Printing and reading: a name that is reported if it has a mark, and what is done with its cell. -/
theorem pass (reason : Reason) (op : Int → Assembler.Op) (i : Ident) :
    P (do
      if i.mark ≠ .none then Generate.mark reason (.ident i)
      match ← Generate.resolve i with
      | some cell => Generate.emit fun a => (a.perform (op cell)).2
      | none => return) := by
  have hpass : P (do
      match ← Generate.resolve i with
      | some cell => Generate.emit fun a => (a.perform (op cell)).2
      | none => return) := by
    refine h.bind (h.resolve i) fun cell => ?_
    cases cell with
    | some cell => exact h.emit (op cell)
    | none => exact h.pure ()
  by_cases hmark : i.mark ≠ .none
  · rw [if_pos hmark]
    exact h.bind (h.mark reason (.ident i)) fun _ => hpass
  · rw [if_neg hmark]
    exact hpass

theorem resolveAll (is : List Ident) : P (resolveAll is) := by
  induction is with
  | nil => exact h.pure []
  | cons i is ih => exact h.bind (h.resolve i) fun cell => h.bind ih fun rest => h.pure _

theorem targetSteps (ts : List (Int × Ident)) : P (targetSteps ts) := by
  induction ts with
  | nil => exact h.pure []
  | cons t ts ih =>
    obtain ⟨cell, i⟩ := t
    unfold Generate.targetSteps
    cases i.mark with
    | none | plus | minus => exact h.bind ih fun rest => h.pure _
    | floor => exact h.bind (h.mark .markInvalid (.ident i)) fun _ => ih

theorem moveInto (source : Int) (ts : List (Int × Ident)) : P (moveInto source ts) :=
  h.bind (h.forM (fun (t : Int × Ident) => h.clear t.1) _) fun _ =>
    h.bind (h.targetSteps ts) fun steps => h.transfer source steps

theorem assign (ts : List Ident) (value : Operand) : P (assign ts value) := by
  refine h.bind (h.emit (.comment (Stmt.assign ts value).text)) fun _ => ?_
  cases value with
  | literal n =>
    exact h.bind h.temporary fun source => h.bind (h.emit (.add source n)) fun _ =>
      h.bind (h.resolveAll ts) fun cells => h.bind (h.moveInto source _) fun _ => h.release source
  | ident i =>
    refine h.bind (h.resolve i) fun source => h.bind (h.resolveAll ts) fun cells => ?_
    cases source with
    | some source => exact h.moveInto source _
    | none => exact h.pure ()

theorem applyMark (subject : Ident) (cell : Int) : P (applyMark subject cell) := by
  unfold Generate.applyMark
  cases subject.mark with
  | none => exact h.pure ()
  | plus => exact h.emit (.add cell 1)
  | minus | floor => exact h.emit (.add cell (-1))

section

variable {x : Generating Unit} (hx : P x)

include hx

theorem loop (subject : Ident) : P (loop subject x) := by
  refine h.bind (h.resolve subject) fun cell => ?_
  cases cell with
  | some cell =>
    exact h.bind (h.emit (.openLoop cell)) fun _ => h.bind (h.block hx) fun _ =>
      h.bind (h.applyMark subject cell) fun _ => h.closeLoop
  | none =>
    exact h.bind h.temporary fun guard => h.bind (h.emit (.openLoop guard)) fun _ => h.bind (h.block hx) fun _ =>
      h.bind h.closeLoop fun _ => h.release guard

theorem once (flag : Int) : P (once flag x) :=
  h.bind (h.emit (.openLoop flag)) fun _ => h.bind (h.clear flag) fun _ => h.bind hx fun _ =>
    h.bind h.closeLoop fun _ => h.release flag

theorem branch (subject : Ident) : P (branch subject x) := by
  refine h.bind (h.resolve subject) fun cell => ?_
  cases cell with
  | some cell =>
    exact h.bind h.temporary fun flag => h.bind h.temporary fun scratch => h.bind (h.copy cell flag scratch) fun _ =>
      h.bind (h.release scratch) fun _ => h.once (h.bind (h.block hx) fun _ => h.applyMark subject cell) flag
  | none => exact h.bind h.temporary fun flag => h.once (h.block hx) flag

end

mutual

theorem statement (s : Stmt) : P (statement s) := by
  unfold Generate.statement
  match s with
  | .declare names => exact h.forM h.declare names
  | .assign ts value => exact h.assign ts value
  | .print names => exact h.forM (h.pass .markInPrint .print) names
  | .read names => exact h.forM (h.pass .markInRead .read) names
  | .branch subject body => exact h.branch (statements body) subject
  | .loop subject body => exact h.loop (statements body) subject
  | .define _ _ _ | .call _ _ | .bare _ | .invalid _ => exact h.mark _ _
  | .wrap inner => exact statement inner

/-- **What composition keeps holds of all statements.** -/
theorem statements (ss : List Stmt) : P (statements ss) := by
  unfold Generate.statements
  match ss with
  | [] => exact h.pure ()
  | s :: ss => exact h.bind (statement s) fun _ => statements ss

end

end Closed

end Generate

end TapeCompiler
