import TapeCompiler.Compile
import TapeCompiler.Proofs.CellCode.Basic

/-!
# Planning code

A plan resolves the names of a program and lays its code out on cells, without emitting anything.

* `Plan.clear`, `transfer`, `copy`, `moveInto`: the building blocks of code.
* `Plan.statement`, `Plan.statements`: the code of statements, and the resolver behind them.
* `plan`: the code of a program on a tape of some size.
* `Plan.loop_ok`, `branch_ok`, and so on: what a plan that exists is made of.
-/

namespace TapeCompiler

namespace Plan

/-- Counts a cell down to zero. -/
def clear (cell : Int) : CellCode :=
  .loop .many cell (.op (.add cell (-1)) .empty) .empty

/-- Counts `source` down to zero; with every unit each target cell grows by its own step. -/
def transfer (source : Int) (steps : List (Int × Int)) : CellCode :=
  .loop .many source (.op (.add source (-1)) (.ofOps (steps.map fun t => .add t.1 t.2))) .empty

/-- Adds `source` to `target` and keeps it; `scratch` is zero before and after. -/
def copy (source target scratch : Int) : CellCode :=
  transfer source [(target, 1), (scratch, 1)] ++ transfer scratch [(source, 1)]

/-- Reports an identifier that is not defined. -/
def report (r : Resolver) (i : Ident) : List CellOp :=
  match r.lookup? i.name with
  | some _ => []
  | none => [.mark ⟨.undefined i.name, .ident i⟩]

/-- Names the cells of those targets that are defined. -/
def targets (r : Resolver) (is : List Ident) : List (Int × Ident) :=
  is.filterMap fun i => (r.lookup? i.name).map (·, i)

/-- Prints or reads an identifier, which should have no mark. -/
def pass (r : Resolver) (reason : Reason) (o : Int → CellOp) (i : Ident) : List CellOp :=
  (if i.mark ≠ .none then [.mark ⟨reason, .ident i⟩] else []) ++ report r i ++
    ((r.lookup? i.name).map o).toList

/-- Sets the targets without a mark to zero. -/
def clearAll : List (Int × Ident) → CellCode
  | [] => .empty
  | (cell, i) :: ts => if i.mark = .none then clear cell ++ clearAll ts else clearAll ts

/-- What a target with a mark gains with every unit, if the mark makes sense there. -/
def stepOf : Mark → Option Int
  | .none | .plus => some 1
  | .minus => some (-1)
  | .floor => none

/-- What each target gains with every unit. -/
def steps (ts : List (Int × Ident)) : List (Int × Int) :=
  ts.filterMap fun t => (stepOf t.2.mark).map (t.1, ·)

/-- Reports the targets that only make sense elsewhere. -/
def misplaced (ts : List (Int × Ident)) : List CellOp :=
  (ts.filter fun t => t.2.mark = .floor).map fun t => .mark ⟨.markInvalid, .ident t.2⟩

/-- Moves the value in `source` into targets. -/
def moveInto (source : Int) (ts : List (Int × Ident)) : CellCode :=
  clearAll ts ++ .ofOps (misplaced ts) ++ transfer source (steps ts)

/-- What the mark of a subject does to its cell at the end of the body. -/
def applyMark (subject : Ident) (cell : Int) : CellCode :=
  match subject.mark with
  | .none => .empty
  | .plus => .op (.add cell 1) .empty
  | .minus | .floor => .op (.add cell (-1)) .empty

/-- Declares names in the innermost block. -/
def declare : List Ident → Resolver → Except Fault (CellCode × Resolver)
  | [], r => .ok (.empty, r)
  | i :: is, r =>
    match r.define (some i.name) with
    | .ok (cell, r₁) => do
      let (code, r₂) ← declare is r₁
      return (.op (.declared cell) code, r₂)
    | .error (.alreadyDefined _) => do
      let (code, r₂) ← declare is r
      return (.op (.mark ⟨.redefined, .ident i⟩) code, r₂)
    | .error e => .error e

/-- An assignment. -/
def assign (ts : List Ident) (value : Operand) (r : Resolver) : Except Fault (CellCode × Resolver) :=
  let remark : CellOp := .comment (Stmt.assign ts value).text
  match value with
  | .literal n => do
    let (source, r₁) ← r.define none
    let r₂ ← r₁.release source
    return (.ofOps ([remark, .add source n] ++ ts.flatMap (report r₁)) ++
      moveInto source (Generate.sortTargets (targets r₁ ts)), r₂)
  | .ident i =>
    let code := match r.lookup? i.name with
      | some source => moveInto source (Generate.sortTargets (targets r ts))
      | none => .empty
    .ok (.ofOps (remark :: (report r i ++ ts.flatMap (report r))) ++ code, r)

/-- A block has a frame of its own. -/
def block (body : Resolver → Except Fault (CellCode × Resolver)) (r : Resolver) :
    Except Fault (CellCode × Resolver) := do
  let (code, r₁) ← body r.enter
  let r₂ ← r₁.exit
  return (code, r₂)

/-- A loop repeats its body while the subject is not zero. -/
def loop (subject : Ident) (body : Resolver → Except Fault (CellCode × Resolver)) (r : Resolver) :
    Except Fault (CellCode × Resolver) :=
  match r.lookup? subject.name with
  | some cell => do
    let (code, r₁) ← block body r
    return (.loop .many cell (code ++ applyMark subject cell) .empty, r₁)
  | none => do
    let (guard, r₁) ← r.define none
    let (code, r₂) ← block body r₁
    let r₃ ← r₂.release guard
    return (.ofOps (report r subject) ++ .loop .many guard code .empty, r₃)

/-- A branch copies its subject into a flag and runs its body at most once. -/
def branch (subject : Ident) (body : Resolver → Except Fault (CellCode × Resolver)) (r : Resolver) :
    Except Fault (CellCode × Resolver) :=
  match r.lookup? subject.name with
  | some cell => do
    let (flag, r₁) ← r.define none
    let (scratch, r₂) ← r₁.define none
    let r₃ ← r₂.release scratch
    let (code, r₄) ← block body r₃
    let r₅ ← r₄.release flag
    return (copy cell flag scratch ++
      .loop .once flag (clear flag ++ code ++ applyMark subject cell) .empty, r₅)
  | none => do
    let (flag, r₁) ← r.define none
    let (code, r₂) ← block body r₁
    let r₃ ← r₂.release flag
    return (.ofOps (report r subject) ++ .loop .once flag (clear flag ++ code) .empty, r₃)

mutual

/-- The code of one statement. -/
def statement : Stmt → Resolver → Except Fault (CellCode × Resolver)
  | .declare names, r => declare names r
  | .assign ts value, r => assign ts value r
  | .print names, r => .ok (.ofOps (names.flatMap (pass r .markInPrint .print)), r)
  | .read names, r => .ok (.ofOps (names.flatMap (pass r .markInRead .read)), r)
  | .branch subject body, r => branch subject (statements body) r
  | .loop subject body, r => loop subject (statements body) r
  | .define name parameters body, r =>
    .ok (.op (.mark ⟨.functions, .stmt (.define name parameters body)⟩) .empty, r)
  | .call name arguments, r => .ok (.op (.mark ⟨.functions, .stmt (.call name arguments)⟩) .empty, r)
  | .wrap inner, r => statement inner r
  | .bare operand, r => .ok (.op (.mark ⟨.notCompilable operand, .stmt (.bare operand)⟩) .empty, r)
  | .invalid error, r => .ok (.op (.mark ⟨.syntaxError error, .stmt (.invalid error)⟩) .empty, r)

/-- The code of statements, one after the other. -/
def statements : List Stmt → Resolver → Except Fault (CellCode × Resolver)
  | [], r => .ok (.empty, r)
  | s :: ss, r => do
    let (code, r₁) ← statement s r
    let (rest, r₂) ← statements ss r₁
    return (code ++ rest, r₂)

end

/-! ## What a plan is made of -/

variable {r r' : Resolver} {code : CellCode} {body : Resolver → Except Fault (CellCode × Resolver)}

theorem exists_of_bind_ok {α β : Type} {x : Except Fault α} {f : α → Except Fault β} {v : β}
    (h : x >>= f = .ok v) : ∃ a, x = .ok a ∧ f a = .ok v := by
  cases x with
  | error e => cases h
  | ok a => exact ⟨a, rfl, h⟩

theorem assignLiteral_ok {ts : List Ident} {n : Int} (h : assign ts (.literal n) r = .ok (code, r')) :
    ∃ source r₁, r.define none = .ok (source, r₁) ∧ r₁.release source = .ok r' ∧
      code = .ofOps ([.comment (Stmt.assign ts (.literal n)).text, .add source n] ++
        ts.flatMap (report r₁)) ++ moveInto source (Generate.sortTargets (targets r₁ ts)) := by
  obtain ⟨⟨source, r₁⟩, hd, h⟩ := exists_of_bind_ok h
  obtain ⟨r₂, hr, h⟩ := exists_of_bind_ok h
  obtain ⟨rfl, rfl⟩ := Prod.mk.inj (Except.ok.inj h)
  exact ⟨source, r₁, hd, hr, rfl⟩

theorem block_ok (h : block body r = .ok (code, r')) :
    ∃ r₁, body r.enter = .ok (code, r₁) ∧ r₁.exit = .ok r' := by
  obtain ⟨⟨c, r₁⟩, hb, h⟩ := exists_of_bind_ok h
  obtain ⟨r₂, hx, h⟩ := exists_of_bind_ok h
  obtain ⟨rfl, rfl⟩ := Prod.mk.inj (Except.ok.inj h)
  exact ⟨r₁, hb, hx⟩

theorem loop_ok {subject : Ident} (h : loop subject body r = .ok (code, r')) :
    (∃ cell inner, r.lookup? subject.name = some cell ∧ block body r = .ok (inner, r') ∧
      code = .loop .many cell (inner ++ applyMark subject cell) .empty) ∨
    (∃ guard r₁ inner r₂, r.lookup? subject.name = none ∧ r.define none = .ok (guard, r₁) ∧
      block body r₁ = .ok (inner, r₂) ∧ r₂.release guard = .ok r' ∧
      code = .ofOps (report r subject) ++ .loop .many guard inner .empty) := by
  unfold loop at h
  cases hl : r.lookup? subject.name with
  | some cell =>
    simp only [hl] at h
    obtain ⟨⟨inner, r₁⟩, hb, h⟩ := exists_of_bind_ok h
    obtain ⟨rfl, rfl⟩ := Prod.mk.inj (Except.ok.inj h)
    exact .inl ⟨cell, inner, rfl, hb, rfl⟩
  | none =>
    simp only [hl] at h
    obtain ⟨⟨guard, r₁⟩, hd, h⟩ := exists_of_bind_ok h
    obtain ⟨⟨inner, r₂⟩, hb, h⟩ := exists_of_bind_ok h
    obtain ⟨r₃, hr, h⟩ := exists_of_bind_ok h
    obtain ⟨rfl, rfl⟩ := Prod.mk.inj (Except.ok.inj h)
    exact .inr ⟨guard, r₁, inner, r₂, rfl, hd, hb, hr, rfl⟩

theorem branch_ok {subject : Ident} (h : branch subject body r = .ok (code, r')) :
    (∃ cell flag r₁ scratch r₂ r₃ inner r₄, r.lookup? subject.name = some cell ∧
      r.define none = .ok (flag, r₁) ∧ r₁.define none = .ok (scratch, r₂) ∧
      r₂.release scratch = .ok r₃ ∧ block body r₃ = .ok (inner, r₄) ∧ r₄.release flag = .ok r' ∧
      code = copy cell flag scratch ++
        .loop .once flag (clear flag ++ inner ++ applyMark subject cell) .empty) ∨
    (∃ flag r₁ inner r₂, r.lookup? subject.name = none ∧ r.define none = .ok (flag, r₁) ∧
      block body r₁ = .ok (inner, r₂) ∧ r₂.release flag = .ok r' ∧
      code = .ofOps (report r subject) ++
        .loop .once flag (clear flag ++ inner) .empty) := by
  unfold branch at h
  cases hl : r.lookup? subject.name with
  | some cell =>
    simp only [hl] at h
    obtain ⟨⟨flag, r₁⟩, hf, h⟩ := exists_of_bind_ok h
    obtain ⟨⟨scratch, r₂⟩, hs, h⟩ := exists_of_bind_ok h
    obtain ⟨r₃, hrs, h⟩ := exists_of_bind_ok h
    obtain ⟨⟨inner, r₄⟩, hb, h⟩ := exists_of_bind_ok h
    obtain ⟨r₅, hrf, h⟩ := exists_of_bind_ok h
    obtain ⟨rfl, rfl⟩ := Prod.mk.inj (Except.ok.inj h)
    exact .inl ⟨cell, flag, r₁, scratch, r₂, r₃, inner, r₄, rfl, hf, hs, hrs, hb, hrf, rfl⟩
  | none =>
    simp only [hl] at h
    obtain ⟨⟨flag, r₁⟩, hf, h⟩ := exists_of_bind_ok h
    obtain ⟨⟨inner, r₂⟩, hb, h⟩ := exists_of_bind_ok h
    obtain ⟨r₃, hr, h⟩ := exists_of_bind_ok h
    obtain ⟨rfl, rfl⟩ := Prod.mk.inj (Except.ok.inj h)
    exact .inr ⟨flag, r₁, inner, r₂, rfl, hf, hb, hr, rfl⟩

theorem declare_cons_ok {i : Ident} {is : List Ident} (h : declare (i :: is) r = .ok (code, r')) :
    (∃ cell r₁ rest, r.define (some i.name) = .ok (cell, r₁) ∧ declare is r₁ = .ok (rest, r') ∧
      code = .op (.declared cell) rest) ∨
    (∃ name rest, r.define (some i.name) = .error (.alreadyDefined name) ∧
      declare is r = .ok (rest, r') ∧ code = .op (.mark ⟨.redefined, .ident i⟩) rest) := by
  unfold declare at h
  split at h
  · rename_i cell r₁ hd
    obtain ⟨⟨rest, r₂⟩, hrest, h⟩ := exists_of_bind_ok h
    obtain ⟨rfl, rfl⟩ := Prod.mk.inj (Except.ok.inj h)
    exact .inl ⟨cell, r₁, rest, hd, hrest, rfl⟩
  · rename_i name hd
    obtain ⟨⟨rest, r₂⟩, hrest, h⟩ := exists_of_bind_ok h
    obtain ⟨rfl, rfl⟩ := Prod.mk.inj (Except.ok.inj h)
    exact .inr ⟨name, rest, hd, hrest, rfl⟩
  · cases h

theorem statements_cons_ok {s : Stmt} {ss : List Stmt} (h : statements (s :: ss) r = .ok (code, r')) :
    ∃ first r₁ rest, statement s r = .ok (first, r₁) ∧ statements ss r₁ = .ok (rest, r') ∧
      code = first ++ rest := by
  rw [statements] at h
  obtain ⟨⟨first, r₁⟩, hs, h⟩ := exists_of_bind_ok h
  obtain ⟨⟨rest, r₂⟩, hss, h⟩ := exists_of_bind_ok h
  obtain ⟨rfl, rfl⟩ := Prod.mk.inj (Except.ok.inj h)
  exact ⟨first, r₁, rest, hs, hss, rfl⟩

theorem diagnostics_applyMark (subject : Ident) (cell : Int) :
    (applyMark subject cell).diagnostics = [] := by
  unfold applyMark
  cases subject.mark <;> rfl

theorem diagnostics_loop {inner : CellCode} {subject : Ident} {cell : Int}
    (h : (CellCode.loop .many cell (inner ++ applyMark subject cell) .empty).diagnostics = []) :
    inner.diagnostics = [] := by
  simp only [CellCode.diagnostics, CellCode.diagnostics_append, List.append_nil,
    List.append_eq_nil_iff] at h
  exact h.1

theorem diagnostics_branch {inner : CellCode} {subject : Ident} {cell flag scratch : Int}
    (h : (copy cell flag scratch ++ .loop .once flag
      (clear flag ++ inner ++ applyMark subject cell) .empty).diagnostics = []) :
    inner.diagnostics = [] := by
  simp only [CellCode.diagnostics, CellCode.diagnostics_append, List.append_nil,
    List.append_eq_nil_iff] at h
  exact h.2.1.2

end Plan

/-- The code of a program on a tape of some size. -/
def plan (program : List Stmt) (tapeSize : Int) : Except Fault CellCode := do
  let r ← Resolver.ofSize tapeSize
  let (code, _) ← Plan.statements program r
  return code

theorem plan_ok {program : List Stmt} {tapeSize : Int} {code : CellCode}
    (h : plan program tapeSize = .ok code) :
    ∃ r r', Resolver.ofSize tapeSize = .ok r ∧ Plan.statements program r = .ok (code, r') := by
  obtain ⟨r, hr, h⟩ := Plan.exists_of_bind_ok h
  obtain ⟨⟨c, r'⟩, hs, h⟩ := Plan.exists_of_bind_ok h
  obtain rfl := Except.ok.inj h
  exact ⟨r, r', hr, hs⟩

end TapeCompiler
