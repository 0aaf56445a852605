import TapeCompiler.Proofs.CellCode.Generated
import TapeCompiler.Proofs.CellCode.Tidy

/-!
# Statements with a block

A loop and a branch, with a subject that is defined or not, are all laid out in one way: code before a loop on
some cell, and in that loop some code around the block.

* `Stmt.block`: a loop or a branch.
* `Generate.enter`: generation up to the block.
* `Plan.Blocked`: code that is laid out around a block.
* `Plan.block_blocked`: the code of loops and branches is laid out so, and the generator is at the start of the
  block when it has emitted the code in front of it.
* `Plan.statements_tidy`: **the cells that are free behind statements are zero behind them**, if those that are
  free before them are zero before them, up to the cells on which their diagnostics run.
-/

namespace TapeCompiler

/-- A statement with a block: a loop or a branch. -/
def Stmt.block : LoopKind → Ident → List Stmt → Stmt
  | .many => .loop
  | .once => .branch

namespace Generate

/-- What is generated in front of the block of a loop; the result is the cell of the loop. -/
def enterLoop (subject : Ident) : Generating Int := do
  match ← resolve subject with
  | some cell =>
    emit (·.openLoop cell)
    return cell
  | none =>
    let guard ← temporary
    emit (·.openLoop guard)
    return guard

/-- What is generated in front of the block of a branch; the result is its flag. -/
def enterBranch (subject : Ident) : Generating Int := do
  match ← resolve subject with
  | some cell =>
    let flag ← temporary
    let scratch ← temporary
    copy cell flag scratch
    release scratch
    emit (·.openLoop flag)
    clear flag
    return flag
  | none =>
    let flag ← temporary
    emit (·.openLoop flag)
    clear flag
    return flag

/-- What is generated in front of a block; the result is the cell of the loop around it. -/
def enter : LoopKind → Ident → Generating Int
  | .many => enterLoop
  | .once => enterBranch

section

variable {r r' : Resolver} (a : Assembler)

theorem resolve_of_lookup {i : Ident} {cell : Int} (h : r.lookup? i.name = some cell) :
    resolve i ⟨r, a⟩ = .ok (some cell) ⟨r, a⟩ := by
  simp [resolve, h]

theorem temporary_eq {cell : ℕ} (h : r.define none = .ok (cell, r')) : temporary ⟨r, a⟩ = .ok (cell : Int) ⟨r', a⟩ := by
  simp [temporary, h]

theorem release_eq {cell : Int} (h : r.release cell = .ok r') : release cell ⟨r, a⟩ = .ok () ⟨r', a⟩ := by
  simp [release, h]

end

end Generate

namespace Plan

/-- Code that is laid out around a block: code `before` a loop on a cell, and in the loop `first` and `last`.
From `r` on, the block starts with `r₁` and ends with `r₂`, and behind the loop there is `r'`. -/
structure Blocked (r : Resolver) (ss : List Stmt) (kind : LoopKind) (cell : Int)
    (before first inner last : CellCode) (r₁ r₂ r' : Resolver) : Prop where
  valid : r₁.Valid
  size : r₁.memory.size = r.memory.size
  block : block (statements ss) r₁ = .ok (inner, r₂)
  tidy : ∀ P head, (∀ c ∈ before.marks head, P c) → Tidies P r head before r₁
  /-- The cell of the loop is held while the block is laid out. -/
  held : r₁.memory.Taken cell
  around : ∀ c ∈ (first ++ last).cells, r₁.memory.Taken c
  quiet : (first ++ last).diagnostics = []
  /-- At most the cell of the loop is given back behind it. -/
  behind : ∀ c, r₂.memory.Taken c → c = cell ∨ r'.memory.Taken c
  /-- A flag is cleared first, and then left alone. -/
  once : kind = .once → first = clear cell ∧ cell ∉ inner.cells ∧ cell ∉ last.cells

namespace Blocked

variable {r r₁ r₂ r' : Resolver} {ss : List Stmt} {kind : LoopKind} {cell head : Int}
  {before first inner last : CellCode} {P : Int → Prop}

theorem placed (h : Blocked r ss kind cell before first inner last r₁ r₂ r') : Placed r₁ [] inner r₂ :=
  block_placed h.valid (statements_placed ss) h.block

/-- The cells of the variables of the block stay taken. -/
theorem taken_of_mem (h : Blocked r ss kind cell before first inner last r₁ r₂ r') {c : Int}
    (hc : c ∈ inner.varCells) : r'.memory.Taken c := by
  refine (h.behind c ((h.placed.taken c).2 (.inr hc))).resolve_left ?_
  rintro rfl
  exact h.placed.fresh c hc h.held

theorem quiet_first (h : Blocked r ss kind cell before first inner last r₁ r₂ r') : first.diagnostics = [] := by
  have hquiet := h.quiet
  rw [CellCode.diagnostics_append, List.append_eq_nil_iff] at hquiet
  exact hquiet.1

theorem quiet_last (h : Blocked r ss kind cell before first inner last r₁ r₂ r') : last.diagnostics = [] := by
  have hquiet := h.quiet
  rw [CellCode.diagnostics_append, List.append_eq_nil_iff] at hquiet
  exact hquiet.2

theorem marks_eq (h : Blocked r ss kind cell before first inner last r₁ r₂ r') :
    (before ++ .loop kind cell (first ++ inner ++ last) .empty).marks head =
      before.marks head ++ inner.marks (first.headAfter cell) := by
  simp [CellCode.marks_append, CellCode.marks, CellCode.marks_of_quiet h.quiet_first,
    CellCode.marks_of_quiet h.quiet_last]

theorem first_tidies (h : Blocked r ss kind cell before first inner last r₁ r₂ r') : Tidies P r₁ head first r₁ := by
  refine tidies_of_taken ?_ (fun c hc => h.around c (by simp [hc])) fun c hc => hc
  rw [CellCode.marks_of_quiet h.quiet_first]
  simp

theorem last_tidies (h : Blocked r ss kind cell before first inner last r₁ r₂ r') : Tidies P r₂ head last r₂ := by
  refine tidies_of_taken ?_ (fun c hc => ?_) fun c hc => hc
  · rw [CellCode.marks_of_quiet h.quiet_last]
    simp
  · exact (h.placed.taken c).2 (.inl (h.around c (by simp [hc])))

/-- A pass of the loop. -/
theorem pass_tidies (h : Blocked r ss kind cell before first inner last r₁ r₂ r')
    (hinner : Tidies P r₁ (first.headAfter cell) inner r₂) : Tidies P r₁ cell (first ++ inner ++ last) r₂ :=
  (h.first_tidies.append hinner).append h.last_tidies

/-- The loop gives back its cell with the value zero. -/
theorem tidies (h : Blocked r ss kind cell before first inner last r₁ r₂ r')
    (hmarks : ∀ c ∈ before.marks head, P c)
    (hinner : Tidies (fun c => P c ∨ c ∈ inner.varCells) r₁ (first.headAfter cell) inner r₂) :
    Tidies P r head (before ++ .loop kind cell (first ++ inner ++ last) .empty) r' := by
  have hloop : Tidies P r₁ (before.headAfter head) (.loop kind cell (first ++ inner ++ last) .empty) r₂ :=
    loop_tidies h.placed.taken (h.pass_tidies hinner)
  intro s t hs hrun c hfree hP
  obtain ⟨u, hu, ht⟩ := (CellCode.run_append _ _ _ _ _).1 hrun
  by_cases hc : c = cell
  · rw [run_loop] at ht
    rw [hc]
    exact not_not.1 ht.2
  · refine hloop u t (h.tidy P head hmarks s u hs hu) ht c (fun htaken => hfree ?_) hP
    exact (h.behind c htaken).resolve_left hc

end Blocked

section

variable {r r' : Resolver} {ss : List Stmt} {subject : Ident} {code : CellCode}

/-- What is taken while a cell is held is that cell, or it is taken behind as well. -/
theorem taken_or_held {taken held new : Prop} (h : (taken ∨ held) ∨ new) : held ∨ (taken ∨ new) :=
  h.elim (Or.elim · (.inr ∘ .inl) .inl) (.inr ∘ .inr)

/-- A cell that is held is not worked on. -/
theorem notMem_cells_of_held {r₁ r₂ : Resolver} {inner : CellCode} {cell : ℕ}
    (hheld : r.Extends [⟨none, cell⟩] [(cell : Int)] r₁) (hp : Placed r₁ [] inner r₂) : (cell : Int) ∉ inner.cells := by
  intro hc
  rcases hp.touched _ hc with hn | ⟨-, hfree⟩
  · refine hheld.valid.not_named_temporary ?_ hn
    rw [hheld.scope]
    simp [Scope.frames]
  · exact hfree ((hheld.taken _).2 (.inr (by simp)))

/-- A report runs where the head is, and works on no cell. -/
theorem report_tidies {r₁ : Resolver} {new : List Int} {bs : List Binding} (hext : r.Extends bs new r₁)
    {P : Int → Prop} {head : Int} (hmarks : ∀ c ∈ (CellCode.ofOps (report r subject)).marks head, P c) :
    Tidies P r head (.ofOps (report r subject)) r₁ := by
  have hcells := ofOps_cells_nil (report r subject) (cells_report r subject)
  exact tidies_of_taken hmarks (by simp [hcells]) fun c hc => (hext.taken c).2 (.inl hc)

/-- A copy keeps the free cells zero: its scratch cell is drained. -/
theorem copy_tidies {r₁ r₂ r₃ : Resolver} {cell : Int} {flag scratch : ℕ} (hr : r.Valid) (hcell : r.Named cell)
    (hf : r.define none = .ok (flag, r₁)) (hs : r₁.define none = .ok (scratch, r₂))
    (hrs : r₂.release scratch = .ok r₃) {P : Int → Prop} {head : Int} :
    Tidies P r head (copy cell flag scratch) r₃ := by
  have hflag := Resolver.extends_define hr hf
  have hscratch := Resolver.extends_define hflag.valid hs
  have hwork : Tidies P r₂ head (copy cell flag scratch) r₂ := by
    refine tidies_of_taken (by simp [CellCode.marks_of_quiet (a := copy cell flag scratch) rfl]) (fun c hc => ?_) fun c hc => hc
    rw [hscratch.taken, hflag.taken]
    rcases mem_cells_copy hc with rfl | rfl | rfl
    · exact .inl (.inl (hr.taken_of_named hcell))
    · exact .inl (.inr (by simp))
    · exact .inr (by simp)
  have hheld : Tidies P r₁ head (copy cell flag scratch) r₃ := by
    refine hwork.held hflag.valid hs (.refl hscratch.valid) hrs fun s t hrun => ?_
    obtain ⟨u, -, ht⟩ := (CellCode.run_append _ _ _ _ _).1 hrun
    exact not_not.1 ((run_transfer _ _ _ _ _).1 ht).2
  intro s t hstart hrun
  refine hheld s t (hstart.weaken fun c hfree hP => ⟨fun hc => hfree ?_, hP⟩) hrun
  exact (hflag.taken c).2 (.inl hc)

theorem loop_blocked (hr : r.Valid) (h : loop subject (statements ss) r = .ok (code, r')) :
    ∃ cell before first inner last r₁ r₂, Blocked r ss .many cell before first inner last r₁ r₂ r' ∧
      code = before ++ .loop .many cell (first ++ inner ++ last) .empty ∧
      ∀ a, Generate.enterLoop subject ⟨r, a⟩ =
        .ok cell ⟨r₁, ((a.assemble before).openLoop cell).assemble first⟩ := by
  obtain ⟨cell, inner, hl, hb, rfl⟩ | ⟨guard, r₁, inner, r₂, hl, hdef, hb, hrel, rfl⟩ := loop_ok h
  · -- the subject is known: the loop tests its cell and holds none of its own
    have hcell := hr.taken_of_named (Resolver.named_of_lookup hl)
    refine ⟨cell, .empty, .empty, inner, applyMark subject cell, r, r', ?_, rfl, fun a => ?_⟩
    · refine ⟨hr, rfl, hb, fun P head _ s t hs hrun => ?_, hcell, fun c hc => ?_,
        diagnostics_applyMark subject cell, fun c hc => .inr hc, by simp⟩
      · rwa [show t = s from hrun]
      · rwa [mem_cells_applyMark hc]
    · rw [Generate.enterLoop, Generate.bind_of_ok (Generate.resolve_of_lookup a hl), Assembler.assemble_empty,
        Assembler.assemble_empty]
      rfl
  · -- it is not: a guard is held through the loop
    have hheld := Resolver.extends_define hr hdef
    have hplaced := block_placed hheld.valid (statements_placed ss) hb
    have hall := hplaced.toExtends.release hr hdef hrel
    refine ⟨guard, .ofOps (report r subject), .empty, inner, .empty, r₁, r₂, ?_, by simp, fun a => ?_⟩
    · refine ⟨hheld.valid, hheld.size, hb, fun P head hmarks => report_tidies hheld hmarks,
        (hheld.taken _).2 (.inr (by simp)), by simp [CellCode.cells], rfl, fun c hc => ?_, by simp⟩
      rw [hplaced.taken, hheld.taken, List.mem_singleton] at hc
      rw [hall.taken]
      exact taken_or_held hc
    · rw [Generate.enterLoop, Generate.bind_of_ok (Generate.resolve_eq r a subject), hl]
      simp only [Assembler.assemble_empty]
      rw [Generate.bind_of_ok (Generate.temporary_eq _ hdef)]
      rfl

theorem branch_blocked (hr : r.Valid) (h : branch subject (statements ss) r = .ok (code, r')) :
    ∃ cell before first inner last r₁ r₂, Blocked r ss .once cell before first inner last r₁ r₂ r' ∧
      code = before ++ .loop .once cell (first ++ inner ++ last) .empty ∧
      ∀ a, Generate.enterBranch subject ⟨r, a⟩ =
        .ok cell ⟨r₁, ((a.assemble before).openLoop cell).assemble first⟩ := by
  obtain ⟨cell, flag, r₁, scratch, r₂, r₃, inner, r₄, hl, hf, hs, hrs, hb, hrf, rfl⟩ |
    ⟨flag, r₁, inner, r₂, hl, hdef, hb, hrel, rfl⟩ := branch_ok h
  · -- the subject is known: the flag holds a copy of it, and the scratch cell is given back before the block
    have hcell := Resolver.named_of_lookup hl
    have hflag := Resolver.extends_define hr hf
    have hback := Resolver.extends_define_release hflag.valid hs hrs
    have hheld : r.Extends [⟨none, flag⟩] [(flag : Int)] r₃ := by simpa using hflag.trans hback
    have hplaced := block_placed hheld.valid (statements_placed ss) hb
    have hall := (hback.trans hplaced.toExtends).release hr hf hrf
    refine ⟨flag, copy cell flag scratch, clear flag, inner, applyMark subject cell, r₃, r₄, ?_, rfl, fun a => ?_⟩
    · refine ⟨hheld.valid, hheld.size, hb, fun P head _ => copy_tidies hr hcell hf hs hrs,
        (hheld.taken _).2 (.inr (by simp)), fun c hc => ?_, ?_, fun c hc => ?_, fun _ => ⟨rfl, ?_, fun hc => ?_⟩⟩
      · rw [CellCode.cells_append, List.mem_append, mem_cells_clear] at hc
        rw [hheld.taken]
        rcases hc with rfl | hc
        · exact .inr (by simp)
        · rw [mem_cells_applyMark hc]
          exact .inl (hr.taken_of_named hcell)
      · rw [CellCode.diagnostics_append, diagnostics_applyMark]
        rfl
      · rw [hplaced.taken, hheld.taken, List.mem_singleton] at hc
        rw [hall.taken, List.nil_append]
        exact taken_or_held hc
      · exact notMem_cells_of_held hheld hplaced
      · exact hheld.fresh flag (by simp) (mem_cells_applyMark hc ▸ hr.taken_of_named hcell)
    · rw [Generate.enterBranch, Generate.bind_of_ok (Generate.resolve_of_lookup a hl)]
      simp only
      rw [Generate.bind_of_ok (Generate.temporary_eq _ hf), Generate.bind_of_ok (Generate.temporary_eq _ hs),
        Generate.bind_of_ok (Generate.copy_eq _ _ _ _ _), Generate.bind_of_ok (Generate.release_eq _ hrs),
        Generate.bind_of_ok (Generate.emit_eq _ _ _), Generate.bind_of_ok (Generate.clear_eq _ _ _)]
      rfl
  · -- it is not: the flag is held all the same, but nothing sets it
    have hheld := Resolver.extends_define hr hdef
    have hplaced := block_placed hheld.valid (statements_placed ss) hb
    have hall := hplaced.toExtends.release hr hdef hrel
    refine ⟨flag, .ofOps (report r subject), clear flag, inner, .empty, r₁, r₂, ?_, by simp, fun a => ?_⟩
    · refine ⟨hheld.valid, hheld.size, hb, fun P head hmarks => report_tidies hheld hmarks,
        (hheld.taken _).2 (.inr (by simp)), fun c hc => ?_, rfl, fun c hc => ?_,
        fun _ => ⟨rfl, notMem_cells_of_held hheld hplaced, by simp [CellCode.cells]⟩⟩
      · rw [CellCode.append_empty, mem_cells_clear] at hc
        exact (hheld.taken c).2 (.inr (by simp [hc]))
      · rw [hplaced.taken, hheld.taken, List.mem_singleton] at hc
        rw [hall.taken]
        exact taken_or_held hc
    · rw [Generate.enterBranch, Generate.bind_of_ok (Generate.resolve_eq r a subject), hl]
      simp only
      rw [Generate.bind_of_ok (Generate.temporary_eq _ hdef), Generate.bind_of_ok (Generate.emit_eq _ _ _),
        Generate.bind_of_ok (Generate.clear_eq _ _ _)]
      rfl

/-- The code of a statement with a block is laid out around the block. -/
theorem block_blocked {kind : LoopKind} (hr : r.Valid) (h : statement (.block kind subject ss) r = .ok (code, r')) :
    ∃ cell before first inner last r₁ r₂, Blocked r ss kind cell before first inner last r₁ r₂ r' ∧
      code = before ++ .loop kind cell (first ++ inner ++ last) .empty ∧
      ∀ a, Generate.enter kind subject ⟨r, a⟩ =
        .ok cell ⟨r₁, ((a.assemble before).openLoop cell).assemble first⟩ := by
  cases kind with
  | many => exact loop_blocked hr (by rwa [Stmt.block, statement] at h)
  | once => exact branch_blocked hr (by rwa [Stmt.block, statement] at h)

end

/-! ## Statements -/

/-- Leaving a block gives nothing back. -/
theorem memory_exit {r r' : Resolver} (h : r.exit = .ok r') : r'.memory = r.memory := by
  unfold Resolver.exit at h
  split at h
  · rw [← Except.ok.inj h]
  · cases h

/-- A literal is moved out of its temporary, which is then free and zero. -/
theorem assignLiteral_tidies {r r' : Resolver} {code : CellCode} {ts : List Ident} {n : Int} (hr : r.Valid)
    (h : assign ts (.literal n) r = .ok (code, r')) {P : Int → Prop} {head : Int}
    (hmarks : ∀ c ∈ code.marks head, P c) : Tidies P r head code r' := by
  obtain ⟨source, r₁, hdef, hrel, rfl⟩ := assignLiteral_ok h
  have hheld := Resolver.extends_define hr hdef
  refine Tidies.held (tidies_of_taken hmarks (fun c hc => ?_) fun c hc => hc) hr hdef (.refl hheld.valid) hrel
    fun s t hrun => ?_
  · rcases mem_cells_assignLiteral hc with rfl | hc
    · exact (hheld.taken _).2 (.inr (by simp))
    · exact hheld.valid.taken_of_named hc
  · rw [moveInto, ← CellCode.append_assoc] at hrun
    obtain ⟨u, -, ht⟩ := (CellCode.run_append _ _ _ _ _).1 hrun
    exact not_not.1 ((run_transfer _ _ _ _ _).1 ht).2

theorem tidies_of_named {r r' : Resolver} {bs : List Binding} {code : CellCode} (hr : r.Valid)
    (hp : Placed r bs code r') {P : Int → Prop} {head : Int} (hmarks : ∀ c ∈ code.marks head, P c)
    (hcells : ∀ c ∈ code.cells, r.Named c) : Tidies P r head code r' :=
  tidies_of_taken hmarks (fun c hc => hr.taken_of_named (hcells c hc)) fun c hc => (hp.taken c).2 (.inl hc)

/-- Statements with a block, if the cells that are free behind its body are zero there. -/
theorem blocked_tidies {body : List Stmt} {r r₁ r₂ r' : Resolver} {kind : LoopKind} {cell : Int}
    {before first inner last : CellCode}
    (hbody : ∀ {r r' code}, r.Valid → statements body r = .ok (code, r') → ∀ {P : Int → Prop} {head},
      (∀ c ∈ code.marks head, P c) → Tidies P r head code r')
    (hb : Blocked r body kind cell before first inner last r₁ r₂ r') {P : Int → Prop} {head : Int}
    (hmarks : ∀ c ∈ (before ++ .loop kind cell (first ++ inner ++ last) .empty).marks head, P c) :
    Tidies P r head (before ++ .loop kind cell (first ++ inner ++ last) .empty) r' := by
  rw [hb.marks_eq] at hmarks
  obtain ⟨r₃, hinner, hx⟩ := block_ok hb.block
  refine hb.tidies (fun c hc => hmarks c (List.mem_append_left _ hc)) fun s t hs hrun => ?_
  rw [memory_exit hx]
  exact hbody hb.valid.enter hinner (fun c hc => .inl (hmarks c (List.mem_append_right _ hc))) s t hs hrun

mutual

theorem statement_tidies (x : Stmt) {r r' : Resolver} {code : CellCode} (hr : r.Valid)
    (h : statement x r = .ok (code, r')) {P : Int → Prop} {head : Int} (hmarks : ∀ c ∈ code.marks head, P c) :
    Tidies P r head code r' := by
  obtain ⟨bs, hp⟩ := statement_placed x hr h
  match x with
  | .declare names =>
    rw [statement] at h
    exact tidies_of_named hr hp hmarks (by simp [cells_declare h])
  | .assign ts (.literal n) =>
    rw [statement] at h
    exact assignLiteral_tidies hr h hmarks
  | .assign ts (.ident i) =>
    rw [statement] at h
    exact tidies_of_named hr hp hmarks fun c hc => named_of_mem_assignIdent h hc
  | .print names | .read names =>
    rw [statement] at h
    obtain ⟨rfl, rfl⟩ := Prod.mk.inj (Except.ok.inj h)
    exact tidies_of_named hr hp hmarks fun c hc => named_of_mem_pass (fun c => rfl) hc
  | .branch subject body =>
    rw [statement] at h
    obtain ⟨cell, before, first, inner, last, r₁, r₂, hb, rfl, -⟩ := branch_blocked hr h
    exact blocked_tidies (statements_tidy body) hb hmarks
  | .loop subject body =>
    rw [statement] at h
    obtain ⟨cell, before, first, inner, last, r₁, r₂, hb, rfl, -⟩ := loop_blocked hr h
    exact blocked_tidies (statements_tidy body) hb hmarks
  | .define _ _ _ | .call _ _ | .bare _ | .invalid _ =>
    rw [statement] at h
    obtain ⟨rfl, rfl⟩ := Prod.mk.inj (Except.ok.inj h)
    exact tidies_of_named hr hp hmarks (by simp [CellCode.cells, CellOp.cell?])
  | .wrap inner => exact statement_tidies inner hr (by rwa [statement] at h) hmarks

/-- **The cells that are free behind statements are zero behind them.** -/
theorem statements_tidy (ss : List Stmt) {r r' : Resolver} {code : CellCode} (hr : r.Valid)
    (h : statements ss r = .ok (code, r')) {P : Int → Prop} {head : Int} (hmarks : ∀ c ∈ code.marks head, P c) :
    Tidies P r head code r' := by
  match ss with
  | [] =>
    rw [statements] at h
    obtain ⟨rfl, rfl⟩ := Prod.mk.inj (Except.ok.inj h)
    exact fun s t hs hrun => by rwa [show t = s from hrun]
  | x :: ss =>
    obtain ⟨first, r₁, rest, hx, hss, rfl⟩ := statements_cons_ok h
    obtain ⟨bs, hp⟩ := statement_placed x hr hx
    rw [CellCode.marks_append] at hmarks
    exact (statement_tidies x hr hx fun c hc => hmarks c (List.mem_append_left _ hc)).append
      (statements_tidy ss hp.valid hss fun c hc => hmarks c (List.mem_append_right _ hc))

end

end Plan

end TapeCompiler
