import TapeCompiler.Proofs.Compiled
import TapeCompiler.Proofs.Places

/-!
# Loops on undefined subjects

A loop whose subject is not defined gets a free cell as its guard, and as free cells are zero, its body should
never run. But a diagnostic stands in front of the loop, and its text runs as code on the cell under the head.

* `Generate.Disturbed`: a cell on which a diagnostic may have run, or that a repeated block may have given to a
  variable.
* `Plan.freeLoop_keeps`: a loop on a free cell does nothing, if it is not such a cell.
* `Generate.Comes.not_visits`: **no run gets between the brackets of a loop on an undefined subject**, unless its
  guard is such a cell.
* `undefined_loop_skipped_unless_disturbed`: the same for a machine that runs a compiled source.
* `undefined_loop_entered`: **the exception happens.**
-/

namespace TapeCompiler

namespace Generate

/-- A diagnostic is emitted for a cell: before the loop that is generated from `opened` to `closed` is entered, or
behind it in the blocks around it. -/
def Marked (g : Generator) (blocks : List Block) (opened closed : Generator) (cell : Int) : Prop :=
  g.Marks opened cell ∨ closed.Marks (limit closed blocks) cell

/-- A cell that need not be zero though it is free: a diagnostic is emitted for it, or it is taken behind a block
around the loop that is repeated. The block of a branch is repeated only if a diagnostic is emitted for its flag. -/
def Disturbed (g : Generator) (blocks : List Block) (opened closed : Generator) (cell : Int) : Prop :=
  Marked g blocks opened closed cell ∨
    ∃ b ∈ blocks, (b.kind = .many ∨ Marked g blocks opened closed b.cell) ∧ b.behind.resolver.memory.Taken cell

instance (g : Generator) (blocks : List Block) (opened closed : Generator) (cell : Int) :
    Decidable (Marked g blocks opened closed cell) :=
  inferInstanceAs (Decidable (_ ∨ _))

instance (g : Generator) (blocks : List Block) (opened closed : Generator) (cell : Int) :
    Decidable (Disturbed g blocks opened closed cell) :=
  inferInstanceAs (Decidable (_ ∨ _))

end Generate

namespace Plan

variable {M P : Int → Prop} {r r' : Resolver} {head guard : Int} {before inner : CellCode}

/-- A loop on a subject that is not defined: its guard is free before it, and in front of it there is a diagnostic,
which works on no cell. -/
theorem undefinedLoop_ok {subject : Ident} {body : List Stmt} {code : CellCode} (hr : r.Valid)
    (hundefined : r.lookup? subject.name = none) (h : loop subject (statements body) r = .ok (code, r')) :
    ∃ guard before inner r₁, code = before ++ .loop .many guard inner .empty ∧ ¬ r.memory.Taken guard ∧
      (∀ P head, (∀ c ∈ before.marks head, P c) → Tidies P r head before r) ∧
      (∀ c, r.memory.Taken c → r'.memory.Taken c) ∧
      ∀ a, Generate.enterLoop subject ⟨r, a⟩ = .ok guard ⟨r₁, (a.assemble before).openLoop guard⟩ := by
  obtain ⟨cell, inner, hl, -, -⟩ | ⟨guard, r₁, inner, r₂, -, hdef, hb, hrel, rfl⟩ := loop_ok h
  · rw [hundefined] at hl
    cases hl
  · have hheld := Resolver.extends_define hr hdef
    have hplaced := block_placed hheld.valid (statements_placed body) hb
    have hall := hplaced.toExtends.release hr hdef hrel
    refine ⟨guard, _, inner, r₁, rfl, hheld.fresh guard (by simp), fun P head => report_tidies (.refl hr),
      fun c hc => (hall.taken c).2 (.inl hc), fun a => ?_⟩
    rw [Generate.enterLoop, Generate.bind_of_ok (Generate.resolve_eq r a subject), hundefined]
    simp only
    rw [Generate.bind_of_ok (Generate.temporary_eq _ hdef)]
    rfl

/-- **A loop on a free cell does nothing**, if the code in front of it keeps the free cells zero. -/
theorem freeLoop_keeps (hbefore : Keeps M P r head before r) (hfree : ¬ r.memory.Taken guard) (hP : ¬ P guard)
    (htaken : ∀ c, r.memory.Taken c → r'.memory.Taken c) :
    Keeps M P r head (before ++ .loop .many guard inner .empty) r' := by
  have hskip {s t : Store Int} (hs : FreeZero r.memory P s)
      (hrun : (before ++ .loop .many guard inner .empty).Run head s t) : before.Run head s t := by
    obtain ⟨u, hu, ht⟩ := (CellCode.run_append _ _ _ _ _).1 hrun
    have hzero : u.value guard = 0 := hbefore.tidies s u hs hu guard hfree hP
    rw [run_loop] at ht
    obtain rfl := (repeats_of_not fun hne => hne hzero).1 ht
    exact hu
  refine ⟨fun s t hs hrun => ?_, fun s t c hs hrun hc hM => ?_⟩
  · refine (hbefore.tidies s t hs (hskip hs hrun)).weaken fun c hfree hP => ⟨fun hc => hfree (htaken c hc), hP⟩
  · rw [CellCode.cells_append, List.mem_append, not_or] at hc
    exact hbefore.frame s t c hs (hskip hs hrun) hc.1 hM

end Plan

/-- **No run gets between the brackets of a loop on an undefined subject**, if its guard is not disturbed. -/
theorem Generate.Comes.not_visits {size : ℕ} {ss body : List Stmt} {subject : Ident}
    {g g₁ opened closed : Generator} {blocks : List Block} {guard : Int} {code : CellCode} {r' : Resolver}
    (hcomes : Comes ss g blocks (.loop subject body) g₁) (hfits : g.Fits size code)
    (hplan : Plan.statements ss g.resolver = .ok (code, r')) (hundefined : g₁.resolver.lookup? subject.name = none)
    (hopen : enterLoop subject g₁ = .ok guard opened)
    (hclose : statement (.loop subject body) g₁ = .ok () closed) (hP : ¬ Disturbed g blocks opened closed guard)
    {s : Store Int} (hs : FreeZero g.resolver.memory (Disturbed g blocks opened closed) s) {k : ℕ} {t : Config}
    (hin : (operations opened.instructions).length ≤ (operations g.instructions).length + k)
    (hout : (operations g.instructions).length + k < (operations closed.instructions).length) :
    ¬ (code.tree g.assembler.position).Visits (s.config size g.assembler.position) k t := by
  intro hv
  obtain ⟨sub, rx, hx, hsub, hbefore, -, -⟩ := hcomes.planned hfits hplan
  have hclosed := (EStateM.Result.ok.inj (hclose.symm.trans (statement_of_plan hx))).2
  obtain ⟨guard', before, inner, r₁, rfl, hfree, htidy, htaken, henter⟩ :=
    Plan.undefinedLoop_ok hsub.valid hundefined (by rwa [Plan.statement] at hx)
  obtain ⟨rfl, hopened⟩ := EStateM.Result.ok.inj (hopen.symm.trans (henter g₁.assembler))
  -- the diagnostic in front of the loop is one of those that count
  have hfront : Generator.instructions ⟨g₁.resolver, g₁.assembler.assemble before⟩ <+: opened.instructions := by
    rw [hopened, Generator.instructions_openLoop]
    exact List.prefix_append _ _
  have hmarks : ∀ c ∈ before.marks g₁.assembler.position, Marked g blocks opened closed c := fun c hc =>
    .inl ((hsub.left.marks g₁.resolver hc).mono hbefore hfront)
  have hreport : Plan.Keeps (Marked g blocks opened closed) (Disturbed g blocks opened closed) g₁.resolver
      g₁.assembler.position before g₁.resolver :=
    Plan.keeps_of_marks (htidy _ _ fun c hc => .inl (hmarks c hc)) hmarks
  have hex : Excepts (Marked g blocks opened closed) (Disturbed g blocks opened closed) g blocks g₁ closed := by
    refine ⟨fun c => .inl, fun b hb hrepeated c hc => .inr ⟨b, hb, hrepeated, hc⟩, fun c hc => .inl ?_, fun c => .inr⟩
    exact hc.mono List.prefix_rfl ((Generator.isPrefix_assemble g₁.resolver _ _ before).trans hfront)
  obtain ⟨⟨is, his⟩, -⟩ :=
    hcomes.occurs hfits hplan hx (Plan.freeLoop_keeps hreport hfree hP htaken) hclosed hex
  -- the place lies behind the instructions before the statement
  have hskipped : (operations g₁.instructions).length = (operations g.instructions).length + (operations is).length := by
    rw [his.emitted, operations_append, List.length_append]
  have hfirst : opened.instructions = g₁.instructions ++ (before.instructions g₁.assembler.comments
      g₁.assembler.position ++ (travel (before.headAfter g₁.assembler.position) guard ++ [.openLoop])) := by
    rw [hopened, Generator.instructions_openLoop]
    simp [Generator.instructions, Assembler.assemble]
  have hlast := Generator.instructions_assemble rx g₁.assembler (before ++ .loop .many guard inner .empty)
  rw [hfirst, operations_append, List.length_append, hskipped] at hin
  rw [hclosed, hlast, operations_append, List.length_append, ← Generator.instructions, hskipped] at hout
  obtain ⟨j, rfl⟩ : ∃ j, k = (operations is).length + j := Nat.exists_eq_add_of_le (by omega)
  obtain ⟨u, hu, hv⟩ := his.reached s j t hs (by omega) hv
  have hzero : ∀ v, before.Run g₁.assembler.position u v → v.value guard = 0 := fun v hrun =>
    hreport.tidies u v hu hrun guard hfree hP
  exact CellCode.not_visits_of_zero g₁.assembler.comments hsub.head hsub.within hsub.quiet hzero (by omega)
    (by omega) hv

/-- A machine that has loaded a compiled source never comes to a place between the brackets of a loop, unless the
guard of the loop is disturbed. -/
def SkippedUnlessDisturbed (c : Compiled) (size : ℕ) (input : String) (g : Generator)
    (blocks : List Generate.Block) (opened closed : Generator) (guard : Int) : Prop :=
  closed.instructions <+: c.instructions ∧
  ∃ m, (Machine.blank size).load c.code input = (.ok (), m) ∧
    ∀ n, (operations opened.instructions).length ≤ (m.after n).pc →
      (m.after n).pc < (operations closed.instructions).length →
      Generate.Disturbed g blocks opened closed guard

/-- The generator of a compiled source starts with no cell taken, and the plan of the program fits it. -/
theorem fits_of_compile {source : String} {options : Options} {c : Compiled} {program : List Stmt} {g : Generator}
    {size : ℕ} (hcompile : compile source options = .ok c) (hparse : parse source (scan source) = .ok program)
    (hg : Generator.ofSize options.tapeSize options.comments = .ok g) (hsize : options.tapeSize ≤ size) :
    0 < size ∧ g.assembler = .new options.comments ∧ ∃ code r', Plan.statements program g.resolver = .ok (code, r') ∧
      g.Fits size code ∧ c.instructions = code.instructions options.comments 0 := by
  obtain ⟨program', code, hparse', hplan, hc⟩ := exists_plan_of_compile hcompile
  obtain rfl := Except.ok.inj (hparse.symm.trans hparse')
  obtain ⟨hpos, hwithin⟩ := plan_within hplan
  obtain ⟨r, r', hr, hs⟩ := plan_ok hplan
  obtain ⟨r₀, hr₀, rfl⟩ := exists_of_map_ok hg
  obtain rfl := Except.ok.inj (hr.symm.trans hr₀)
  obtain ⟨hvalid, -, hmemory, -, -⟩ := Resolver.valid_ofSize hr
  have hcells : 0 < size := by omega
  have hle : r.memory.size ≤ size := by omega
  have hhead : InTape size 0 := ⟨by omega, by omega⟩
  exact ⟨hcells, rfl, code, r', hs, ⟨hvalid, hle, hhead, fun _ => rfl, hwithin.mono (by omega), plan_quiet hparse hplan⟩,
    hc⟩

/-- **A loop on an undefined subject is skipped** whenever a machine comes to it, with whatever input and in
whatever pass of the loops around it, unless its guard is disturbed. -/
theorem undefined_loop_skipped_unless_disturbed {source : String} {options : Options} {c : Compiled}
    {program body : List Stmt} {subject : Ident} {g g₁ opened closed : Generator} {blocks : List Generate.Block}
    {guard : Int} {size : ℕ} (hcompile : compile source options = .ok c)
    (hparse : parse source (scan source) = .ok program)
    (hg : Generator.ofSize options.tapeSize options.comments = .ok g)
    (hcomes : Generate.Comes program g blocks (.loop subject body) g₁)
    (hundefined : g₁.resolver.lookup? subject.name = none)
    (hopen : Generate.enterLoop subject g₁ = .ok guard opened)
    (hclose : Generate.statement (.loop subject body) g₁ = .ok () closed)
    (hsize : options.tapeSize ≤ size) (input : String) :
    SkippedUnlessDisturbed c size input g blocks opened closed guard := by
  obtain ⟨hcells, hnew, code, r', hplan, hfits, hc⟩ := fits_of_compile hcompile hparse hg hsize
  obtain ⟨m, hload, hstarts, hconfig⟩ := starts_compiled hc hfits.quiet hcells input
  refine ⟨?_, m, hload, fun n hin hout => ?_⟩
  · obtain ⟨sub, rx, hx, -, -, hclosed, hlimit⟩ := hcomes.planned hfits hplan
    obtain rfl := (EStateM.Result.ok.inj (hclose.symm.trans (Generate.statement_of_plan hx))).2
    have hend := hclosed.trans hlimit
    rw [Generator.instructions_assemble r', hnew] at hend
    rwa [hc]
  · by_contra hdisturbed
    obtain ⟨k, s, j, hafter, hv⟩ := Machine.after_visits hstarts n
    rw [hafter] at hin hout
    rw [hconfig] at hv
    -- at first all cells are zero
    have hzero : FreeZero g.resolver.memory (Generate.Disturbed g blocks opened closed)
        (Store.zero Int input.toList) := fun _ _ _ => rfl
    have hnone : (operations g.instructions).length = 0 := by
      simp [Generator.instructions, hnew, Assembler.new, operations_nil]
    refine hcomes.not_visits hfits hplan hundefined hopen hclose hdisturbed hzero ?_ ?_ (by rwa [hnew])
    · rw [hnone, Nat.zero_add]
      exact hin
    · rw [hnone, Nat.zero_add]
      exact hout

namespace Generate

/-- The generator behind a step. -/
def result {α : Type} (x : Generating α) (g : Generator) : Generator :=
  match x g with
  | .ok _ g' | .error _ g' => g'

/-- The result of a step, if it does not fail. -/
def value? {α : Type} (x : Generating α) (g : Generator) : Option α :=
  match x g with
  | .ok a _ => some a
  | .error _ _ => none

theorem eq_result {α : Type} {x : Generating α} {g : Generator} {a : α} (h : value? x g = some a) :
    x g = .ok a (result x g) := by
  unfold value? at h
  unfold result
  cases hx : x g with
  | ok b g' =>
    rw [hx] at h
    rw [Option.some.inj h]
  | error e g' =>
    rw [hx] at h
    cases h

end Generate

/-- A loop on an undefined subject, in a branch in a loop. Its diagnostic runs on the flag of the branch. -/
def skippingSource : String :=
  "var $i, $k; $i = 2; while -$i \x7b if $i \x7b while $u \x7b print $k; \x7d \x7d \x7d"

/-- The loop of `skippingSource` that is skipped. -/
def skippedLoop : Stmt := .loop ⟨.none, "$u"⟩ [.print [⟨.none, "$k"⟩]]

def skippingBranch : Stmt := .branch ⟨.none, "$i"⟩ [skippedLoop]

def skippingLoop : Stmt := .loop ⟨.minus, "$i"⟩ [skippingBranch]

def skippingProgram : List Stmt :=
  [.declare [⟨.none, "$i"⟩, ⟨.none, "$k"⟩], .assign [⟨.none, "$i"⟩] (.literal 2), skippingLoop]

theorem parse_skippingSource : parse skippingSource (scan skippingSource) = .ok skippingProgram := by
  decide +kernel

/-- The options of the runs below. -/
def skippingOptions : Options := { tapeSize := 6 }

theorem ok_skippingSource : (compile skippingSource skippingOptions).map Compiled.ok = .ok false := by
  decide +kernel

section

open Generate

def skippingStart : Generator := ⟨⟨6, ⟨List.replicate 6 false⟩, ⟨[], []⟩⟩, .new true⟩

/-- The generator at the outer loop of `skippingSource`. -/
def atOuterLoop : Generator :=
  result (statement (.assign [⟨.none, "$i"⟩] (.literal 2)))
    (result (statement (.declare [⟨.none, "$i"⟩, ⟨.none, "$k"⟩])) skippingStart)

/-- The generator at the branch in the outer loop. -/
def atBranch : Generator :=
  let g := result (enter .many ⟨.minus, "$i"⟩) atOuterLoop
  { g with resolver := g.resolver.enter }

/-- The generator at the loop in the branch. -/
def atSkippedLoop : Generator :=
  let g := result (enter .once ⟨.none, "$i"⟩) atBranch
  { g with resolver := g.resolver.enter }

/-- The blocks around the loop in the branch. -/
def aroundSkippedLoop : List Block :=
  [⟨.many, 0, result (statement skippingLoop) atOuterLoop⟩, ⟨.once, 2, result (statement skippingBranch) atBranch⟩]

theorem comes_skippedLoop :
    Comes skippingProgram skippingStart aroundSkippedLoop skippedLoop atSkippedLoop :=
  .later (eq_result (by decide +kernel)) (.later (eq_result (by decide +kernel))
    (.inBlock .many (eq_result (by decide +kernel)) (.inBlock .once (eq_result (by decide +kernel)) .here
      (eq_result (by decide +kernel))) (eq_result (by decide +kernel))))

theorem undefined_loop_skipped_nested : ∃ c opened closed, compile skippingSource skippingOptions = .ok c ∧
    parse skippingSource (scan skippingSource) = .ok skippingProgram ∧
    Generator.ofSize 6 true = .ok skippingStart ∧
    Comes skippingProgram skippingStart aroundSkippedLoop skippedLoop atSkippedLoop ∧
    atSkippedLoop.resolver.lookup? "$u" = none ∧
    enterLoop ⟨.none, "$u"⟩ atSkippedLoop = .ok 3 opened ∧ statement skippedLoop atSkippedLoop = .ok () closed ∧
    ¬ Disturbed skippingStart aroundSkippedLoop opened closed 3 ∧
    SkippedUnlessDisturbed c 8 "input" skippingStart aroundSkippedLoop opened closed 3 := by
  obtain ⟨c, hc, -⟩ := exists_of_map_ok ok_skippingSource
  have hstart : Generator.ofSize 6 true = .ok skippingStart := by decide +kernel
  have hundefined : atSkippedLoop.resolver.lookup? "$u" = none := by decide +kernel
  have hopen : enterLoop ⟨.none, "$u"⟩ atSkippedLoop = .ok 3 (result (enterLoop ⟨.none, "$u"⟩) atSkippedLoop) :=
    eq_result (by decide +kernel)
  have hclose : statement skippedLoop atSkippedLoop = .ok () (result (statement skippedLoop) atSkippedLoop) :=
    eq_result (by decide +kernel)
  exact ⟨c, _, _, hc, parse_skippingSource, hstart, comes_skippedLoop, hundefined, hopen, hclose, by decide +kernel,
    undefined_loop_skipped_unless_disturbed hc parse_skippingSource hstart comes_skippedLoop hundefined hopen hclose
      (by decide) "input"⟩

/-- A loop on an undefined subject whose diagnostic runs on its guard. -/
def enteredSource : String := "while -$u \x7b var $a; print $a; \x7d"

/-- The loop of `enteredSource`. -/
def enteredLoop : Stmt := .loop ⟨.minus, "$u"⟩ [.declare [⟨.none, "$a"⟩], .print [⟨.none, "$a"⟩]]

theorem undefined_loop_entered : ∃ c g opened closed m, compile enteredSource { tapeSize := 4 } = .ok c ∧
    parse enteredSource (scan enteredSource) = .ok [enteredLoop] ∧ Generator.ofSize 4 true = .ok g ∧
    Comes [enteredLoop] g [] enteredLoop g ∧ g.resolver.lookup? "$u" = none ∧
    enterLoop ⟨.minus, "$u"⟩ g = .ok 0 opened ∧ statement enteredLoop g = .ok () closed ∧
    (Machine.blank 4).load c.code "" = (.ok (), m) ∧ (operations opened.instructions).length ≤ (m.after 3).pc ∧
    (m.after 3).pc + 1 < (operations closed.instructions).length := by
  have hrun : (compile enteredSource { tapeSize := 4 }).map (fun c =>
      let loaded := (Machine.blank 4).load c.code ""
      (loaded.1, (loaded.2.after 3).pc)) = .ok (.ok (), 3) := by decide +kernel
  obtain ⟨c, hc, hrun⟩ := exists_of_map_ok hrun
  simp only [Prod.mk.injEq] at hrun
  obtain ⟨hload, hpc⟩ := hrun
  refine ⟨c, ⟨⟨4, ⟨List.replicate 4 false⟩, ⟨[], []⟩⟩, .new true⟩, _, _, _, hc, by decide +kernel, by decide +kernel,
    .here, by decide +kernel, eq_result (by decide +kernel), eq_result (by decide +kernel), Prod.ext hload rfl, ?_, ?_⟩
  · rw [hpc]
    decide +kernel
  · rw [hpc]
    decide +kernel

end

end TapeCompiler
