import TapeCompiler.Proofs.CellCode.Plan

/-!
# Generation follows the plan

The generator resolves, emits and keeps track of the head all at once. It emits just the assembled
plan, and it fails if and only if planning does.

* `Assembler.assemble`: the assembler after it has been given code.
* `statements_follow`: **generating statements is planning them and assembling the plan.**
* `generate_eq_plan`: the instructions of a program are those of its plan.
-/

namespace TapeCompiler

/-- The assembler after it has been given code. -/
def Assembler.assemble (a : Assembler) (code : CellCode) : Assembler :=
  { a with
    emitted := (a.emitted.toList ++ code.instructions a.comments a.position).toArray
    position := code.headAfter a.position
    errorCount := a.errorCount + code.diagnostics.length }

namespace Assembler

variable (a : Assembler)

@[simp]
theorem assemble_empty : a.assemble .empty = a := by
  simp [assemble, CellCode.instructions, CellCode.headAfter, CellCode.diagnostics]

theorem assemble_append (x y : CellCode) : a.assemble (x ++ y) = (a.assemble x).assemble y := by
  simp [assemble, Nat.add_assoc]

theorem assemble_op (o : CellOp) (x : CellCode) :
    a.assemble (.op o x) = (a.assemble (.op o .empty)).assemble x :=
  a.assemble_append (.op o .empty) x

theorem emit_eq (i : Instruction) :
    a.emit i = { a with emitted := (a.emitted.toList ++ [i]).toArray } := by
  simp only [emit, mk.injEq, true_and, and_true]
  exact Array.ext' (by simp)

/-- Moving the head emits the way. -/
theorem move_eq (cell : Int) :
    a.move cell =
      { a with emitted := (a.emitted.toList ++ travel a.position cell).toArray, position := cell } := by
  unfold move travel
  split
  · rename_i h; simp [h]
  · simp [emit_eq]

theorem add_eq (cell n : Int) : a.add cell n = a.assemble (.op (.add cell n) .empty) := by
  simp [add, move_eq, emit_eq, assemble, CellCode.instructions, CellOp.instructions, CellCode.headAfter,
    CellOp.headAfter, CellCode.diagnostics]

theorem print_eq (cell : Int) : a.print cell = a.assemble (.op (.print cell) .empty) := by
  simp [print, move_eq, emit_eq, assemble, CellCode.instructions, CellOp.instructions, CellCode.headAfter,
    CellOp.headAfter, CellCode.diagnostics]

theorem read_eq (cell : Int) : a.read cell = a.assemble (.op (.read cell) .empty) := by
  simp [read, move_eq, emit_eq, assemble, CellCode.instructions, CellOp.instructions, CellCode.headAfter,
    CellOp.headAfter, CellCode.diagnostics]

theorem comment_eq (text : String) : a.comment text = a.assemble (.op (.comment text) .empty) := by
  obtain ⟨comments, emitted, position, openLoops, errorCount⟩ := a
  cases comments <;>
    simp [comment, emit_eq, assemble, CellCode.instructions, CellOp.instructions, CellCode.headAfter,
      CellOp.headAfter, CellCode.diagnostics]

theorem mark_eq (d : Diagnostic) : a.mark d = a.assemble (.op (.mark d) .empty) := by
  simp [mark, emit_eq, assemble, CellCode.instructions, CellOp.instructions, CellCode.headAfter,
    CellOp.headAfter, CellCode.diagnostics]

/-- A note emits nothing. -/
theorem assemble_declared (cell : Int) (x : CellCode) :
    a.assemble (.op (.declared cell) x) = a.assemble x := by
  simp [assemble, CellCode.instructions, CellOp.instructions, CellCode.headAfter, CellOp.headAfter,
    CellCode.diagnostics]

/-- **A loop that is opened, filled and closed** is the assembled loop. -/
theorem closeLoop_assemble (kind : LoopKind) (cell : Int) (body : CellCode) :
    ((a.openLoop cell).assemble body).closeLoop = .ok (a.assemble (.loop kind cell body .empty)) := by
  simp [openLoop, closeLoop, move_eq, emit_eq, assemble, CellCode.instructions, CellCode.headAfter,
    CellCode.diagnostics]

end Assembler

namespace Generate

variable {α β : Type}

theorem bind_of_ok {x : Generating α} {f : α → Generating β} {g g' : Generator} {v : α}
    (h : x g = .ok v g') : (x >>= f) g = f v g' := by
  simp [bind, EStateM.bind, h]

theorem bind_of_error {x : Generating α} {f : α → Generating β} {g g' : Generator} {e : Fault}
    (h : x g = .error e g') : (x >>= f) g = .error e g' := by
  simp [bind, EStateM.bind, h]

/-- A step of generation does what a plan says: it leaves the planned resolver and emits the planned
code; and where there is no plan it fails for the same reason. Either way it leaves the frames around
the innermost one alone. -/
def Follows (x : Generating Unit) (p : Resolver → Except Fault (CellCode × Resolver)) : Prop :=
  ∀ r a,
    (∃ code r', p r = .ok (code, r') ∧ x ⟨r, a⟩ = .ok () ⟨r', a.assemble code⟩ ∧
      r'.scope.outer = r.scope.outer) ∨
    ∃ e g, p r = .error e ∧ x ⟨r, a⟩ = .error e g ∧ g.resolver.scope.outer = r.scope.outer

/-! ## Building blocks -/

section

variable (r : Resolver) (a : Assembler)

theorem emit_eq (f : Assembler → Assembler) : emit f ⟨r, a⟩ = .ok () ⟨r, f a⟩ := rfl

theorem closeLoop_eq (kind : LoopKind) (cell : Int) (body : CellCode) :
    closeLoop ⟨r, (a.openLoop cell).assemble body⟩ =
      .ok () ⟨r, a.assemble (.loop kind cell body .empty)⟩ := by
  unfold closeLoop
  rw [a.closeLoop_assemble kind]

theorem clear_eq (cell : Int) : clear cell ⟨r, a⟩ = .ok () ⟨r, a.assemble (Plan.clear cell)⟩ := by
  unfold clear
  rw [bind_of_ok (emit_eq r a _), bind_of_ok (emit_eq r _ _), Assembler.add_eq]
  exact closeLoop_eq r a .many cell _

theorem forM_add_eq (steps : List (Int × Int)) :
    (steps.forM fun t => emit (·.add t.1 t.2)) ⟨r, a⟩ =
      .ok () ⟨r, a.assemble (.ofOps (steps.map fun t => .add t.1 t.2))⟩ := by
  induction steps generalizing a with
  | nil => simp [CellCode.ofOps]; rfl
  | cons t ts ih =>
    rw [List.forM, bind_of_ok (emit_eq r a _), ih, Assembler.add_eq, ← Assembler.assemble_op]
    rfl

theorem transfer_eq (source : Int) (steps : List (Int × Int)) :
    transfer source steps ⟨r, a⟩ = .ok () ⟨r, a.assemble (Plan.transfer source steps)⟩ := by
  unfold transfer
  rw [bind_of_ok (emit_eq r a _), bind_of_ok (emit_eq r _ _), Assembler.add_eq,
    bind_of_ok (forM_add_eq r _ steps), ← Assembler.assemble_op]
  exact closeLoop_eq r a .many source _

theorem copy_eq (source target scratch : Int) :
    copy source target scratch ⟨r, a⟩ = .ok () ⟨r, a.assemble (Plan.copy source target scratch)⟩ := by
  unfold copy
  rw [bind_of_ok (transfer_eq r a _ _), transfer_eq, ← Assembler.assemble_append]; rfl

theorem mark_eq (reason : Reason) (culprit : Culprit) :
    mark reason culprit ⟨r, a⟩ = .ok () ⟨r, a.assemble (.op (.mark ⟨reason, culprit⟩) .empty)⟩ := by
  simp only [mark, emit, Assembler.mark_eq]

theorem resolve_eq (i : Ident) :
    resolve i ⟨r, a⟩ = .ok (r.lookup? i.name) ⟨r, a.assemble (.ofOps (Plan.report r i))⟩ := by
  unfold resolve Plan.report
  cases h : r.lookup? i.name with
  | some cell => simp [CellCode.ofOps]
  | none => simp only [Assembler.mark_eq]; rfl

theorem resolveAll_eq (is : List Ident) :
    resolveAll is ⟨r, a⟩ =
      .ok (Plan.targets r is) ⟨r, a.assemble (.ofOps (is.flatMap (Plan.report r)))⟩ := by
  induction is generalizing a with
  | nil => simp [resolveAll, CellCode.ofOps, Plan.targets]; rfl
  | cons i is ih =>
    unfold resolveAll
    rw [bind_of_ok (resolve_eq r a i), bind_of_ok (ih _), ← Assembler.assemble_append]
    cases h : r.lookup? i.name <;> simp [Plan.targets, h, CellCode.ofOps_append] <;> rfl

theorem clearAll_eq (ts : List (Int × Ident)) :
    ((ts.filter fun t => t.2.mark = .none).forM fun t => clear t.1) ⟨r, a⟩ =
      .ok () ⟨r, a.assemble (Plan.clearAll ts)⟩ := by
  induction ts generalizing a with
  | nil => simp [Plan.clearAll]; rfl
  | cons t ts ih =>
    obtain ⟨cell, i⟩ := t
    by_cases h : i.mark = .none
    · rw [List.filter_cons_of_pos (by simpa using h), List.forM, bind_of_ok (clear_eq r a cell), ih,
        ← Assembler.assemble_append, Plan.clearAll, if_pos h]
    · rw [List.filter_cons_of_neg (by simpa using h), ih, Plan.clearAll, if_neg h]

theorem targetSteps_eq (ts : List (Int × Ident)) :
    targetSteps ts ⟨r, a⟩ = .ok (Plan.steps ts) ⟨r, a.assemble (.ofOps (Plan.misplaced ts))⟩ := by
  induction ts generalizing a with
  | nil => simp [targetSteps, Plan.misplaced, CellCode.ofOps, Plan.steps]; rfl
  | cons t ts ih =>
    obtain ⟨cell, i⟩ := t
    unfold targetSteps
    cases h : i.mark with
    | none | plus | minus =>
      simp only
      rw [bind_of_ok (ih a)]
      simp [Plan.steps, Plan.stepOf, Plan.misplaced, h]; rfl
    | floor =>
      simp only
      rw [bind_of_ok (mark_eq r a _ _), ih, ← Assembler.assemble_append]
      simp [Plan.steps, Plan.stepOf, Plan.misplaced, h]; rfl

theorem moveInto_eq (source : Int) (ts : List (Int × Ident)) :
    moveInto source ts ⟨r, a⟩ = .ok () ⟨r, a.assemble (Plan.moveInto source ts)⟩ := by
  unfold moveInto
  rw [bind_of_ok (clearAll_eq r a ts), bind_of_ok (targetSteps_eq r _ ts), transfer_eq,
    ← Assembler.assemble_append, ← Assembler.assemble_append, ← CellCode.append_assoc]
  rfl

theorem pass_eq (reason : Reason) (f : Int → Assembler → Assembler) (o : Int → CellOp)
    (hf : ∀ cell a, f cell a = Assembler.assemble a (.op (o cell) .empty)) (i : Ident) :
    (do
      if i.mark ≠ .none then mark reason (.ident i)
      match ← resolve i with
      | some cell => emit (f cell)
      | none => return : Generating Unit) ⟨r, a⟩ =
      .ok () ⟨r, a.assemble (.ofOps (Plan.pass r reason o i))⟩ := by
  have hcell (a : Assembler) : (resolve i >>= fun
      | some cell => emit (f cell)
      | none => pure ()) ⟨r, a⟩ =
      .ok () ⟨r, a.assemble (.ofOps (Plan.report r i ++ ((r.lookup? i.name).map o).toList))⟩ := by
    rw [bind_of_ok (resolve_eq r a i), CellCode.ofOps_append, Assembler.assemble_append]
    cases r.lookup? i.name with
    | none => simp [CellCode.ofOps]; rfl
    | some cell => simp only [emit_eq, hf]; rfl
  unfold Plan.pass
  rw [List.append_assoc, CellCode.ofOps_append, Assembler.assemble_append]
  split
  · exact (bind_of_ok (mark_eq r a reason (.ident i))).trans (hcell _)
  · have hnil : a.assemble (.ofOps []) = a := a.assemble_empty
    exact (hcell a).trans (by rw [hnil])

theorem output_eq (i : Ident) :
    output i ⟨r, a⟩ = .ok () ⟨r, a.assemble (.ofOps (Plan.pass r .markInPrint .print i))⟩ :=
  pass_eq r a .markInPrint (fun cell a => a.print cell) .print (fun cell a => a.print_eq cell) i

theorem input_eq (i : Ident) :
    input i ⟨r, a⟩ = .ok () ⟨r, a.assemble (.ofOps (Plan.pass r .markInRead .read i))⟩ :=
  pass_eq r a .markInRead (fun cell a => a.read cell) .read (fun cell a => a.read_eq cell) i

theorem forM_eq {x : Ident → Generating Unit} {p : Ident → List CellOp}
    (h : ∀ i a, x i ⟨r, a⟩ = .ok () ⟨r, a.assemble (.ofOps (p i))⟩) (is : List Ident) :
    is.forM x ⟨r, a⟩ = .ok () ⟨r, a.assemble (.ofOps (is.flatMap p))⟩ := by
  induction is generalizing a with
  | nil => simp [CellCode.ofOps]; rfl
  | cons i is ih =>
    rw [List.forM, bind_of_ok (h i a), ih, ← Assembler.assemble_append, ← CellCode.ofOps_append]
    rfl

theorem applyMark_eq (subject : Ident) (cell : Int) :
    applyMark subject cell ⟨r, a⟩ = .ok () ⟨r, a.assemble (Plan.applyMark subject cell)⟩ := by
  unfold applyMark Plan.applyMark
  cases subject.mark with
  | none => simp; rfl
  | plus | minus | floor => simp only [emit_eq, Assembler.add_eq]

end

/-! ## Statements -/

variable {x : Generating Unit} {p : Resolver → Except Fault (CellCode × Resolver)}

theorem define_outer {r r' : Resolver} {name : Option String} {cell : ℕ}
    (h : r.define name = .ok (cell, r')) : r'.scope.outer = r.scope.outer := by
  unfold Resolver.define at h
  split at h
  · cases h
  · cases hm : r.memory.allocate with
    | error e => simp [hm, bind, Except.bind] at h
    | ok v =>
      simp only [hm, bind, Except.bind, pure, Except.pure, Except.ok.injEq, Prod.mk.injEq] at h
      rw [← h.2]; rfl

theorem release_outer {r r' : Resolver} {cell : Int} (h : r.release cell = .ok r') :
    r'.scope.outer = r.scope.outer := by
  unfold Resolver.release Scope.undefine at h
  by_cases hb : ⟨none, cell⟩ ∈ r.scope.inner
  · simp only [if_pos hb, Except.ok.injEq] at h
    rw [← h]
  · simp [if_neg hb] at h

theorem declare_follows (names : List Ident) : Follows (names.forM declare) (Plan.declare names) := by
  intro r a
  induction names generalizing r a with
  | nil => exact .inl ⟨.empty, r, rfl, by simp; rfl, rfl⟩
  | cons i is ih =>
    rw [List.forM]
    cases h : r.define (some i.name) with
    | ok v =>
      obtain ⟨cell, r₁⟩ := v
      have hi : declare i ⟨r, a⟩ = .ok () ⟨r₁, a⟩ := by simp [declare, h]
      rw [bind_of_ok hi, ← define_outer h]
      obtain ⟨code, r₂, hp, hx, hout⟩ | ⟨e, g, hp, hx, hout⟩ := ih r₁ a
      · refine .inl ⟨.op (.declared cell) code, r₂, ?_, ?_, hout⟩
        · simp [Plan.declare, h, hp, bind, Except.bind, pure, Except.pure]
        · rw [Assembler.assemble_declared]; exact hx
      · exact .inr ⟨e, g, by simp [Plan.declare, h, hp, bind, Except.bind], hx, hout⟩
    | error e =>
      -- a name that is taken is reported, and the names behind it are declared; any other refusal ends both
      by_cases hname : ∃ name, e = .alreadyDefined name
      · obtain ⟨name, rfl⟩ := hname
        have hi : declare i ⟨r, a⟩ =
            .ok () ⟨r, a.assemble (.op (.mark ⟨.redefined, .ident i⟩) .empty)⟩ := by
          simp [declare, h, mark_eq]
        rw [bind_of_ok hi]
        obtain ⟨code, r₂, hp, hx, hout⟩ | ⟨e, g, hp, hx, hout⟩ :=
          ih r (a.assemble (.op (.mark ⟨.redefined, .ident i⟩) .empty))
        · refine .inl ⟨.op (.mark ⟨.redefined, .ident i⟩) code, r₂, ?_, ?_, hout⟩
          · simp [Plan.declare, h, hp, bind, Except.bind, pure, Except.pure]
          · rw [a.assemble_op _ code]; exact hx
        · exact .inr ⟨e, g, by simp [Plan.declare, h, hp, bind, Except.bind], hx, hout⟩
      · have hne (name : String) : e ≠ .alreadyDefined name := fun he => hname ⟨name, he⟩
        have hi : declare i ⟨r, a⟩ = .error e ⟨r, a⟩ := by
          cases e <;> simp_all [declare]
        refine .inr ⟨e, ⟨r, a⟩, ?_, bind_of_error hi, rfl⟩
        cases e <;> simp_all [Plan.declare]

theorem Follows.block (h : Follows x p) : Follows (block x) (Plan.block p) := by
  intro r a
  -- the frames around the body are those of the block, so the body can always be left
  have hleave {g : Generator} (hg : g.resolver.scope.outer = r.enter.scope.outer) :
      ∃ r', g.resolver.exit = .ok r' ∧ leave g = .ok () ⟨r', g.assembler⟩ ∧
        r'.scope.outer = r.scope.outer := by
    refine ⟨{ g.resolver with scope := r.scope }, ?_, ?_, rfl⟩ <;>
    simp [leave, Resolver.exit, Scope.exit?, hg, Resolver.enter, Scope.enter, Scope.frames]
  unfold Generate.block Plan.block
  obtain ⟨code, r₁, hp, hx, hout⟩ | ⟨e, g, hp, hx, hout⟩ := h r.enter a
  · obtain ⟨r', he, hl, ho⟩ := hleave (g := ⟨r₁, a.assemble code⟩) hout
    exact .inl ⟨code, r', by simp [hp, he, bind, Except.bind, pure, Except.pure], by simp [hx, hl], ho⟩
  · obtain ⟨r', he, hl, ho⟩ := hleave hout
    exact .inr ⟨e, ⟨r', g.assembler⟩, by simp [hp, bind, Except.bind], by simp [hx, hl], ho⟩

theorem Follows.congr {q : Resolver → Except Fault (CellCode × Resolver)} (h : Follows x p)
    (hpq : ∀ r, p r = q r) : Follows x q := by
  intro r a
  rw [← hpq]
  exact h r a

theorem Follows.of_eq {code : Resolver → CellCode}
    (h : ∀ r a, x ⟨r, a⟩ = .ok () ⟨r, a.assemble (code r)⟩) : Follows x fun r => .ok (code r, r) :=
  fun r a => .inl ⟨code r, r, rfl, h r a, rfl⟩

theorem Follows.bind {y : Generating Unit} {q : Resolver → Except Fault (CellCode × Resolver)}
    (hx : Follows x p) (hy : Follows y q) :
    Follows (do x; y) fun r => do
      let (code, r₁) ← p r
      let (rest, r₂) ← q r₁
      return (code ++ rest, r₂) := by
  intro r a
  obtain ⟨code, r₁, hp, hx, hout⟩ | ⟨e, g, hp, hx, hout⟩ := hx r a
  · rw [bind_of_ok hx, ← hout]
    obtain ⟨rest, r₂, hq, hy, hout'⟩ | ⟨e, g, hq, hy, hout'⟩ := hy r₁ (a.assemble code)
    · refine .inl ⟨code ++ rest, r₂, ?_, ?_, hout'⟩
      · simp [hp, hq, Bind.bind, Except.bind, pure, Except.pure]
      · rw [Assembler.assemble_append]; exact hy
    · exact .inr ⟨e, g, by simp [hp, hq, Bind.bind, Except.bind], hy, hout'⟩
  · exact .inr ⟨e, g, by simp [hp, Bind.bind, Except.bind], bind_of_error hx, hout⟩

theorem Follows.temporary {x : Int → Generating Unit}
    {p : Int → Resolver → Except Fault (CellCode × Resolver)} (h : ∀ cell, Follows (x cell) (p cell)) :
    Follows (do x (← temporary)) fun r => do
      let (cell, r₁) ← r.define none
      let (code, r₂) ← p cell r₁
      return (code, r₂) := by
  intro r a
  cases hd : r.define none with
  | error e =>
    have ht : Generate.temporary ⟨r, a⟩ = .error e ⟨r, a⟩ := by simp [Generate.temporary, hd]
    exact .inr ⟨e, ⟨r, a⟩, by simp [hd, Bind.bind, Except.bind], bind_of_error ht, rfl⟩
  | ok v =>
    obtain ⟨cell, r₁⟩ := v
    have ht : Generate.temporary ⟨r, a⟩ = .ok (cell : Int) ⟨r₁, a⟩ := by simp [Generate.temporary, hd]
    rw [bind_of_ok ht, ← define_outer hd]
    obtain ⟨code, r₂, hp, hx, hout⟩ | ⟨e, g, hp, hx, hout⟩ := h cell r₁ a
    · exact .inl ⟨code, r₂, by simp [hd, hp, Bind.bind, Except.bind, pure, Except.pure], hx, hout⟩
    · exact .inr ⟨e, g, by simp [hd, hp, Bind.bind, Except.bind], hx, hout⟩

theorem Follows.release (h : Follows x p) (cell : Int) :
    Follows (do x; release cell) fun r => do
      let (code, r₁) ← p r
      let r₂ ← r₁.release cell
      return (code, r₂) := by
  intro r a
  obtain ⟨code, r₁, hp, hx, hout⟩ | ⟨e, g, hp, hx, hout⟩ := h r a
  · rw [bind_of_ok hx]
    cases hr : r₁.release cell with
    | error e =>
      exact .inr ⟨e, _, by simp [hp, hr, Bind.bind, Except.bind], by simp [Generate.release, hr]; rfl, hout⟩
    | ok r₂ =>
      exact .inl ⟨code, r₂, by simp [hp, hr, Bind.bind, Except.bind, pure, Except.pure],
        by simp [Generate.release, hr], (release_outer hr).trans hout⟩
  · exact .inr ⟨e, g, by simp [hp, Bind.bind, Except.bind], bind_of_error hx, hout⟩

/-- A loop that is opened, filled and closed. -/
theorem Follows.close (h : Follows x p) (kind : LoopKind) (cell : Int) :
    Follows (do emit (·.openLoop cell); x; closeLoop) fun r => do
      let (code, r₁) ← p r
      return (.loop kind cell code .empty, r₁) := by
  intro r a
  rw [bind_of_ok (emit_eq r a _)]
  obtain ⟨code, r₁, hp, hx, hout⟩ | ⟨e, g, hp, hx, hout⟩ := h r (a.openLoop cell)
  · refine .inl ⟨.loop kind cell code .empty, r₁, ?_, ?_, hout⟩
    · simp [hp, Bind.bind, Except.bind, pure, Except.pure]
    · rw [bind_of_ok hx, closeLoop_eq _ _ kind]
  · exact .inr ⟨e, g, by simp [hp, Bind.bind, Except.bind], bind_of_error hx, hout⟩

theorem Follows.resolve {x : Option Int → Generating Unit}
    {q : Resolver → Except Fault (CellCode × Resolver)} (i : Ident)
    (h : ∀ cell r, r.lookup? i.name = cell → ∃ p, Follows (x cell) p ∧
      q r = (p r).map fun v => (.ofOps (Plan.report r i) ++ v.1, v.2)) :
    Follows (do x (← resolve i)) q := by
  intro r a
  rw [bind_of_ok (resolve_eq r a i)]
  obtain ⟨p, hfollows, hq⟩ := h (r.lookup? i.name) r rfl
  obtain ⟨code, r₁, hp, hx, hout⟩ | ⟨e, g, hp, hx, hout⟩ :=
    hfollows r (a.assemble (.ofOps (Plan.report r i)))
  · refine .inl ⟨.ofOps (Plan.report r i) ++ code, r₁, by rw [hq, hp]; rfl, ?_, hout⟩
    rw [Assembler.assemble_append]; exact hx
  · exact .inr ⟨e, g, by rw [hq, hp]; rfl, hx, hout⟩

theorem applyMark_follows (subject : Ident) (cell : Int) :
    Follows (applyMark subject cell) fun r => .ok (Plan.applyMark subject cell, r) :=
  .of_eq fun r a => applyMark_eq r a subject cell

theorem loop_follows (subject : Ident) (h : Follows x p) :
    Follows (loop subject x) (Plan.loop subject p) := by
  have hsome (cell : Int) := (h.block.bind (applyMark_follows subject cell)).close .many cell
  have hnone := Follows.temporary fun cell => (h.block.close .many cell).release cell
  refine .resolve subject fun cell r hl => ?_
  cases cell with
  | some cell =>
    refine ⟨_, by simpa only [bind_assoc] using hsome cell, ?_⟩
    simp only [Plan.loop, hl, Plan.report]
    cases Plan.block p r <;> rfl
  | none =>
    refine ⟨_, by simpa only [bind_assoc] using hnone, ?_⟩
    simp only [Plan.loop, hl, Plan.report, Bind.bind, Except.bind, pure, Except.pure]
    cases r.define none with
    | error e => rfl
    | ok v =>
      cases hb : Plan.block p v.2 with
      | error e => simp only [hb]; rfl
      | ok w => cases hr : w.2.release v.1 <;> simp only [hb, hr] <;> rfl

theorem once_follows (flag : Int) (h : Follows x p) :
    Follows (once flag x) fun r => do
      let (code, r₁) ← p r
      let r₂ ← r₁.release flag
      return (.loop .once flag (Plan.clear flag ++ code) .empty, r₂) := by
  have hclear : Follows (clear flag) fun r => .ok (Plan.clear flag, r) :=
    .of_eq fun r a => clear_eq r a flag
  have honce := ((hclear.bind h).close .once flag).release flag
  simp only [bind_assoc] at honce
  refine honce.congr fun r => ?_
  simp only [Bind.bind, Except.bind, pure, Except.pure]

theorem branch_follows (subject : Ident) (h : Follows x p) :
    Follows (branch subject x) (Plan.branch subject p) := by
  have hcopy (cell flag scratch : Int) :
      Follows (copy cell flag scratch) fun r => .ok (Plan.copy cell flag scratch, r) :=
    .of_eq fun r a => copy_eq r a cell flag scratch
  -- the code is put together from its parts first; the plan is then seen to be that of the parts, refusal by refusal
  have hsome (cell : Int) := Follows.temporary fun flag =>
    (Follows.temporary fun scratch => (hcopy cell flag scratch).release scratch).bind
      (once_follows flag (h.block.bind (applyMark_follows subject cell)))
  have hnone := Follows.temporary fun flag => once_follows flag h.block
  refine .resolve subject fun cell r hl => ?_
  cases cell with
  | some cell =>
    refine ⟨_, by simpa only [bind_assoc] using hsome cell, ?_⟩
    simp only [Plan.branch, hl, Plan.report, Bind.bind, Except.bind, pure, Except.pure]
    cases r.define none with
    | error e => rfl
    | ok v =>
      simp only
      cases hs : v.2.define none with
      | error e => rfl
      | ok w =>
        simp only
        cases hr : w.2.release w.1 with
        | error e => rfl
        | ok r₃ =>
          simp only
          cases hb : Plan.block p r₃ with
          | error e => rfl
          | ok u => cases hf : u.2.release v.1 <;> simp only [hf] <;> rfl
  | none =>
    refine ⟨_, hnone, ?_⟩
    simp only [Plan.branch, hl, Plan.report, Bind.bind, Except.bind, pure, Except.pure]
    cases r.define none with
    | error e => rfl
    | ok v =>
      simp only
      cases hb : Plan.block p v.2 with
      | error e => rfl
      | ok w => cases hr : w.2.release v.1 <;> simp only [hr] <;> rfl

theorem assignLiteral_follows (ts : List Ident) (n : Int) :
    Follows (assign ts (.literal n)) (Plan.assign ts (.literal n)) := by
  have hremark : Follows (emit (·.comment (Stmt.assign ts (.literal n)).text))
      fun r => .ok (.op (.comment (Stmt.assign ts (.literal n)).text) .empty, r) :=
    .of_eq fun r a => by rw [emit_eq, Assembler.comment_eq]
  have hmove (source : Int) : Follows (do
      emit (·.add source n)
      let cells ← resolveAll ts
      moveInto source (sortTargets cells)) fun r => .ok (.op (.add source n)
        (.ofOps (ts.flatMap (Plan.report r)) ++ Plan.moveInto source (sortTargets (Plan.targets r ts))), r) := by
    refine .of_eq fun r a => ?_
    rw [bind_of_ok (emit_eq r a _), bind_of_ok (resolveAll_eq r _ ts), moveInto_eq, Assembler.add_eq,
      ← Assembler.assemble_append, ← Assembler.assemble_op]
  have hassign := hremark.bind (Follows.temporary fun source => (hmove source).release source)
  simp only [bind_assoc] at hassign
  refine hassign.congr fun r => ?_
  simp only [Plan.assign, Bind.bind, Except.bind, pure, Except.pure]
  cases r.define none with
  | error e => rfl
  | ok v =>
    cases hr : v.2.release v.1 with
    | error e => simp only [hr]
    | ok r₂ => simp only [hr]; rfl

theorem assignIdent_follows (ts : List Ident) (i : Ident) :
    Follows (assign ts (.ident i)) (Plan.assign ts (.ident i)) := by
  refine .of_eq fun r a => ?_
  have hremark (o : CellOp) (os os' : List CellOp) :
      CellCode.op o .empty ++ (.ofOps os ++ .ofOps os') = .ofOps (o :: (os ++ os')) := by
    rw [← CellCode.ofOps_append]; rfl
  unfold assign
  rw [bind_of_ok (emit_eq r a _), Assembler.comment_eq]
  simp only
  rw [bind_of_ok (resolve_eq r _ i), bind_of_ok (resolveAll_eq r _ ts), ← Assembler.assemble_append,
    ← Assembler.assemble_append, hremark]
  cases r.lookup? i.name with
  | some source =>
    simp only
    rw [moveInto_eq, ← Assembler.assemble_append]
  | none => rw [CellCode.append_empty]; rfl

theorem assign_follows (ts : List Ident) (value : Operand) :
    Follows (assign ts value) (Plan.assign ts value) := by
  cases value with
  | literal n => exact assignLiteral_follows ts n
  | ident i => exact assignIdent_follows ts i

mutual

theorem statement_follows (s : Stmt) : Follows (statement s) (Plan.statement s) := by
  unfold statement
  match s with
  | .declare names => exact declare_follows names
  | .assign ts value => exact assign_follows ts value
  | .print names => exact .of_eq fun r a => forM_eq r a (fun i a => output_eq r a i) names
  | .read names => exact .of_eq fun r a => forM_eq r a (fun i a => input_eq r a i) names
  | .branch subject body => exact branch_follows subject (statements_follow body)
  | .loop subject body => exact loop_follows subject (statements_follow body)
  | .define _ _ _ | .call _ _ | .bare _ | .invalid _ => exact .of_eq fun r a => mark_eq r a _ _
  | .wrap inner => exact statement_follows inner

/-- **Generating statements is planning them** and assembling the plan. -/
theorem statements_follow (ss : List Stmt) : Follows (statements ss) (Plan.statements ss) := by
  unfold statements
  match ss with
  | [] => exact .of_eq fun r a => by simp; rfl
  | s :: ss => exact (statement_follows s).bind (statements_follow ss)

end

end Generate

/-- **The instructions of a program are those of its plan**, and a program that has no plan fails. -/
theorem generate_eq_plan (program : List Stmt) (tapeSize : Int) (comments : Bool) :
    (∃ code, plan program tapeSize = .ok code ∧
      generate program tapeSize comments = (code.instructions comments 0, none)) ∨
    ∃ e, plan program tapeSize = .error e ∧ (generate program tapeSize comments).2 = some e := by
  unfold generate Generator.ofSize plan
  cases Resolver.ofSize tapeSize with
  | error e => exact .inr ⟨e, rfl, rfl⟩
  | ok r =>
    obtain ⟨code, r', hp, hx, -⟩ | ⟨e, g, hp, hx, -⟩ :=
      Generate.statements_follow program r (.new comments)
    · refine .inl ⟨code, by simp [hp, bind, Except.bind, pure, Except.pure], ?_⟩
      simp only [Except.map, hx]
      simp [Assembler.finish, Assembler.assemble, Assembler.new, Generator.instructions]
    · refine .inr ⟨e, by simp [hp, bind, Except.bind], ?_⟩
      simp only [Except.map, hx]

end TapeCompiler
