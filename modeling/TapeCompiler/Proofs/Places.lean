import TapeCompiler.Proofs.CellCode.Blocked
import TapeCompiler.Proofs.Head

/-!
# Places in the generated code

A statement stands behind others and inside blocks, and the code of a block may run many times. Where a machine
gets to the code of the statement, the free cells are zero, with three kinds of exceptions: a diagnostic may have
run on a cell, a variable that is declared in a repeated block may have it, and the flag of a branch may be such a
cell, so that the branch is repeated as well.

* `Generator.Marks`: between two moments of generation a diagnostic is emitted, with the head on some cell.
* `Generate.Comes`: a statement that is generated in the course of others, and the blocks around it.
* `Plan.Keeps`: code that keeps the free cells zero, and leaves alone what it does not name.
* `Plan.Blocked.entered`: **the free cells are zero whenever a block is entered.**
* `Occurs`: the code of a statement in the code of others.
* `Generate.Comes.occurs`: **where the code of a statement is reached, the free cells are zero.**
-/

namespace TapeCompiler

/-! ## Diagnostics between two moments -/

theorem CellOp.deltaOf_instructions (comments : Bool) (head : Int) (o : CellOp) :
    head + deltaOf (o.instructions comments head) = o.headAfter head := by
  cases o with
  | add cell n | print cell | read cell =>
    simp only [instructions, headAfter, deltaOf_append, Assembler.deltaOf_travel, deltaOf, Instruction.delta]
    omega
  | comment text => cases comments <;> simp [instructions, headAfter, deltaOf, Instruction.delta]
  | mark d | declared cell => simp [instructions, headAfter, deltaOf, Instruction.delta]

theorem CellCode.deltaOf_instructions (comments : Bool) (head : Int) (code : CellCode) :
    head + deltaOf (code.instructions comments head) = code.headAfter head := by
  induction code generalizing head with
  | empty => simp [instructions, headAfter, deltaOf]
  | op o next ih =>
    have hop := o.deltaOf_instructions comments head
    rw [instructions, deltaOf_append, headAfter, ← ih, ← hop]
    omega
  | loop kind cell body next ihb ihn =>
    have hbody := ihb cell
    have hnext := ihn cell
    simp only [instructions, deltaOf_append, deltaOf, Assembler.deltaOf_travel, Instruction.delta, headAfter]
    omega

/-- Where a diagnostic of code runs, it is one of its instructions. -/
theorem CellCode.exists_marker {code : CellCode} {c head : Int} (comments : Bool) (h : c ∈ code.marks head) :
    ∃ is d, is ++ [.marker d] <+: code.instructions comments head ∧ head + deltaOf is = c := by
  induction code generalizing head with
  | empty => simp [marks] at h
  | op o next ih =>
    rw [marks, List.mem_append] at h
    rcases h with h | h
    · cases o with
      | mark d =>
        obtain rfl := List.mem_singleton.1 h
        exact ⟨[], d, by simp [instructions, CellOp.instructions], by simp [deltaOf]⟩
      | add _ _ | print _ | read _ | comment _ | declared _ => cases h
    · obtain ⟨is, d, his, hdelta⟩ := ih h
      refine ⟨o.instructions comments head ++ is, d, ?_, ?_⟩
      · rw [List.append_assoc, instructions]
        exact (List.prefix_append_right_inj _).2 his
      · rw [deltaOf_append, ← hdelta, ← o.deltaOf_instructions comments head]
        omega
  | loop kind cell body next ihb ihn =>
    rw [marks, List.mem_append] at h
    rcases h with h | h
    · -- in the body: the first pass comes to it
      obtain ⟨is, d, his, hdelta⟩ := ihb h
      refine ⟨travel head cell ++ .openLoop :: is, d, ?_, ?_⟩
      · rw [List.append_assoc, List.cons_append, instructions]
        refine (List.prefix_append_right_inj _).2 (List.cons_prefix_cons.2 ⟨rfl, ?_⟩)
        rw [List.append_assoc]
        exact his.trans (List.prefix_append _ _)
      · simp only [deltaOf_append, Assembler.deltaOf_travel, deltaOf, Instruction.delta]
        omega
    · -- behind the loop: the passes lead back to where they began
      obtain ⟨is, d, his, hdelta⟩ := ihn h
      have hbody := body.deltaOf_instructions comments cell
      refine ⟨travel head cell ++ .openLoop :: (body.instructions comments cell ++
        travel (body.headAfter cell) cell ++ .closeLoop :: is), d, ?_, ?_⟩
      · simpa [instructions] using his
      · simp only [deltaOf_append, Assembler.deltaOf_travel, deltaOf, Instruction.delta]
        omega

namespace Generator

/-- Between two moments of generation a diagnostic is emitted, with the head on a cell. -/
def Marks (g g' : Generator) (cell : Int) : Prop :=
  ∃ is d, g.instructions <+: is ∧ is ++ [.marker d] <+: g'.instructions ∧ deltaOf is = cell

theorem Marks.mono {g₀ g₁ g₂ g₃ : Generator} {c : Int} (h : g₁.Marks g₂ c)
    (hbefore : g₀.instructions <+: g₁.instructions) (hbehind : g₂.instructions <+: g₃.instructions) :
    g₀.Marks g₃ c := by
  obtain ⟨is, d, hstart, hend, hdelta⟩ := h
  exact ⟨is, d, hbefore.trans hstart, hend.trans hbehind, hdelta⟩

theorem marks_iff {g g' : Generator} {c : Int} : g.Marks g' c ↔
    ∃ n < g'.instructions.length, g.instructions <+: g'.instructions.take n ∧
      (g'.instructions[n]?.bind Instruction.diagnostic?).isSome = true ∧ deltaOf (g'.instructions.take n) = c := by
  constructor
  · rintro ⟨is, d, hstart, ⟨js, hjs⟩, hdelta⟩
    have htake : g'.instructions.take is.length = is := by
      rw [← hjs, List.append_assoc, List.take_left]
    refine ⟨is.length, ?_, by rwa [htake], ?_, by rwa [htake]⟩
    · rw [← hjs]
      simp
    · rw [← hjs]
      simp [Instruction.diagnostic?]
  · rintro ⟨n, hn, hstart, hmarker, hdelta⟩
    rw [List.getElem?_eq_getElem hn, Option.bind_some] at hmarker
    cases hi : g'.instructions[n] with
    | marker d =>
      refine ⟨g'.instructions.take n, d, hstart, ?_, hdelta⟩
      rw [← hi, List.take_append_getElem hn]
      exact List.take_prefix _ _
    | move _ | add _ | openLoop | closeLoop | print | read | comment _ =>
      simp [hi, Instruction.diagnostic?] at hmarker

instance (g g' : Generator) (c : Int) : Decidable (g.Marks g' c) :=
  decidable_of_iff _ marks_iff.symm

variable {g : Generator} {r r' : Resolver} {a : Assembler} {code rest : CellCode}

theorem instructions_assemble (r : Resolver) (a : Assembler) (code : CellCode) :
    Generator.instructions ⟨r, a.assemble code⟩ = a.emitted.toList ++ code.instructions a.comments a.position := by
  simp [instructions, Assembler.assemble]

theorem isPrefix_assemble (r r' : Resolver) (a : Assembler) (code : CellCode) :
    Generator.instructions ⟨r, a⟩ <+: Generator.instructions ⟨r', a.assemble code⟩ := by
  rw [instructions_assemble]
  exact List.prefix_append _ _

theorem position_openLoop (r : Resolver) (a : Assembler) (cell : Int) :
    (⟨r, a.openLoop cell⟩ : Generator).assembler.position = cell := by
  simp [Assembler.openLoop, Assembler.move_eq, Assembler.emit_eq]

theorem comments_openLoop (r : Resolver) (a : Assembler) (cell : Int) :
    (⟨r, a.openLoop cell⟩ : Generator).assembler.comments = a.comments := by
  simp [Assembler.openLoop, Assembler.move_eq, Assembler.emit_eq]

theorem instructions_openLoop (r : Resolver) (a : Assembler) (cell : Int) :
    Generator.instructions ⟨r, a.openLoop cell⟩ = a.emitted.toList ++ (travel a.position cell ++ [.openLoop]) := by
  simp [instructions, Assembler.openLoop, Assembler.move_eq, Assembler.emit_eq]

theorem isPrefix_openLoop (r r' : Resolver) (a : Assembler) (cell : Int) (first : CellCode) :
    Generator.instructions ⟨r, a⟩ <+: Generator.instructions ⟨r', (a.openLoop cell).assemble first⟩ := by
  refine List.IsPrefix.trans ?_ (isPrefix_assemble r r' _ first)
  rw [instructions_openLoop]
  exact List.prefix_append _ _

/-- A block in a loop that is not closed yet. -/
theorem isPrefix_block (r r' : Resolver) (a : Assembler) (kind : LoopKind) (cell : Int)
    (before first inner last : CellCode) :
    Generator.instructions ⟨r, (((a.assemble before).openLoop cell).assemble first).assemble inner⟩ <+:
      Generator.instructions ⟨r', a.assemble (before ++ .loop kind cell (first ++ inner ++ last) .empty)⟩ := by
  rw [← Assembler.assemble_append, Assembler.assemble_append _ before]
  generalize a.assemble before = b
  have hopen := instructions_openLoop r b cell
  have hcomments := comments_openLoop r b cell
  have hposition := position_openLoop r b cell
  simp only [instructions] at hopen hcomments hposition
  rw [instructions_assemble, instructions_assemble, hopen, hcomments, hposition]
  simp [CellCode.instructions]

/-- The diagnostics among instructions of code are diagnostics of the code. -/
theorem diagnosticsOf_subset {is js : List Instruction} (hstart : g.instructions <+: is)
    (hend : is ++ js <+: Generator.instructions ⟨r', g.assembler.assemble code⟩) :
    diagnosticsOf js ⊆ code.diagnostics := by
  obtain ⟨ks, rfl⟩ := hstart
  rw [instructions_assemble, List.append_assoc] at hend
  have hle : ks ++ js <+: code.instructions g.assembler.comments g.assembler.position :=
    (List.prefix_append_right_inj _).1 hend
  rw [← CellCode.diagnosticsOf_instructions g.assembler.comments g.assembler.position]
  exact (((List.sublist_append_right ks js).trans hle.sublist).filterMap _).subset

/-! ## Code that fits a tape -/

/-- Code that a generator goes on with, for a tape of some size. -/
structure Fits (g : Generator) (size : ℕ) (code : CellCode) : Prop where
  valid : g.resolver.Valid
  memory : g.resolver.memory.size ≤ size
  head : InTape size g.assembler.position
  tracks : code.diagnostics ≠ [] → g.assembler.Tracks
  within : code.Within size
  quiet : code.Quiet

variable {size : ℕ}

theorem Fits.left (h : g.Fits size (code ++ rest)) : g.Fits size code where
  valid := h.valid
  memory := h.memory
  head := h.head
  tracks hd := h.tracks (by simp [hd])
  within := h.within.append.1
  quiet d hd := h.quiet d (by simp [hd])

theorem Fits.right (h : Fits ⟨r, a⟩ size (code ++ rest)) (hvalid : r'.Valid)
    (hmemory : r'.memory.size = r.memory.size) : Fits ⟨r', a.assemble code⟩ size rest where
  valid := hvalid
  memory := hmemory ▸ h.memory
  head := CellCode.inTape_headAfter h.head h.within.append.1
  tracks hd := (a.becomes_assemble code).tracks (h.tracks (by simp [hd]))
  within := h.within.append.2
  quiet d hd := h.quiet d (by simp [hd])

theorem Fits.inBody {kind : LoopKind} {cell : Int}
    (h : Fits ⟨r, a⟩ size (.loop kind cell code .empty)) : Fits ⟨r.enter, a.openLoop cell⟩ size code where
  valid := h.valid.enter
  memory := h.memory
  head := by rw [position_openLoop]; exact h.within.loop.1
  tracks hd := Assembler.tracks_perform (h.tracks (by simp [CellCode.diagnostics, hd])) (.openLoop cell)
  within := h.within.loop.2.1
  quiet := h.quiet.loop.1

/-- Where a diagnostic of code runs, it has been emitted. -/
theorem Fits.marks (h : g.Fits size code) (r' : Resolver) {c : Int} (hc : c ∈ code.marks g.assembler.position) :
    g.Marks ⟨r', g.assembler.assemble code⟩ c := by
  obtain ⟨is, d, his, hdelta⟩ := CellCode.exists_marker g.assembler.comments hc
  have htracks : g.assembler.Tracks := h.tracks fun hd => by simp [CellCode.marks_of_quiet hd] at hc
  refine ⟨g.instructions ++ is, d, List.prefix_append _ _, ?_, ?_⟩
  · rw [instructions_assemble, List.append_assoc]
    exact (List.prefix_append_right_inj _).2 his
  · rw [deltaOf_append, ← hdelta, htracks]
    rfl

end Generator

/-! ## Statements among others -/

namespace Generate

/-- A block around a statement: the loop that its code is in, and the generator behind that. -/
structure Block where
  kind : LoopKind
  cell : Int
  behind : Generator

/-- While statements are generated from `g` on, the statement `x` is generated from `g'` on. The blocks around it
are listed from the outermost one. -/
inductive Comes : List Stmt → Generator → List Block → Stmt → Generator → Prop
  | here {x : Stmt} {ss : List Stmt} {g : Generator} : Comes (x :: ss) g [] x g
  | inBlock (kind : LoopKind) {subject : Ident} {body ss : List Stmt} {g g₁ g₂ g' : Generator} {cell : Int}
    {blocks : List Block} {x : Stmt} (hopen : enter kind subject g = .ok cell g₁)
    (hbody : Comes body { g₁ with resolver := g₁.resolver.enter } blocks x g')
    (hblock : statement (.block kind subject body) g = .ok () g₂) :
    Comes (.block kind subject body :: ss) g (⟨kind, cell, g₂⟩ :: blocks) x g'
  | wrapped {y x : Stmt} {ss : List Stmt} {g g' : Generator} {blocks : List Block}
    (hinner : Comes (y :: ss) g blocks x g') : Comes (.wrap y :: ss) g blocks x g'
  | later {y x : Stmt} {ss : List Stmt} {g g₁ g' : Generator} {blocks : List Block}
    (hfirst : statement y g = .ok () g₁) (hrest : Comes ss g₁ blocks x g') : Comes (y :: ss) g blocks x g'

/-- The end of the outermost block around a statement, or of the statement itself. -/
def limit (closed : Generator) : List Block → Generator
  | [] => closed
  | b :: _ => b.behind

end Generate

/-! ## Code around a place -/

namespace Plan

/-- Code that keeps the free cells zero up to the exceptions `P`. Where they are zero, it leaves alone what it does
not name, up to the cells in `M`. -/
structure Keeps (M P : Int → Prop) (r : Resolver) (head : Int) (code : CellCode) (r' : Resolver) : Prop where
  tidies : Tidies P r head code r'
  frame : ∀ s t c, FreeZero r.memory P s → code.Run head s t → c ∉ code.cells → ¬ M c → t.value c = s.value c

variable {M P : Int → Prop} {r r₁ r₂ r' : Resolver} {head cell : Int} {code rest : CellCode}

theorem Keeps.append (h : Keeps M P r head code r₁) (h' : Keeps M P r₁ (code.headAfter head) rest r₂) :
    Keeps M P r head (code ++ rest) r₂ := by
  refine ⟨h.tidies.append h'.tidies, fun s t c hs hrun hc hM => ?_⟩
  obtain ⟨u, hu, ht⟩ := (CellCode.run_append _ _ _ _ _).1 hrun
  rw [CellCode.cells_append, List.mem_append, not_or] at hc
  rw [h'.frame u t c (h.tidies s u hs hu) ht hc.2 hM, h.frame s u c hs hu hc.1 hM]

theorem keeps_of_marks (h : Tidies P r head code r') (hmarks : ∀ c ∈ code.marks head, M c) :
    Keeps M P r head code r' :=
  ⟨h, fun _ _ c _ hrun hc hM => CellCode.run_frame hc (fun hmark => hM (hmarks c hmark)) hrun⟩

/-- A block takes and gives back the cells that its statements do. -/
theorem Keeps.block (h : Keeps M P r.enter head code r₁) (hexit : r₁.exit = .ok r') : Keeps M P r head code r' := by
  refine ⟨fun s t hs hrun => ?_, h.frame⟩
  rw [memory_exit hexit]
  exact h.tidies s t hs hrun

namespace Blocked

variable {ss : List Stmt} {kind : LoopKind} {before first inner last : CellCode}

/-- **The flag of a branch is zero behind a pass**, unless it is in `M`. -/
theorem value_flag (h : Blocked r ss .once cell before first inner last r₁ r₂ r')
    (hinner : Keeps M P r₁ (first.headAfter cell) inner r₂) (hM : ¬ M cell) {s t : Store Int}
    (hs : FreeZero r₁.memory P s) (hrun : (first ++ inner ++ last).Run cell s t) : t.value cell = 0 := by
  obtain ⟨hfirst, hcell, hlast⟩ := h.once rfl
  obtain ⟨v, hv, ht⟩ := (CellCode.run_append _ _ _ _ _).1 hrun
  obtain ⟨u, hu, hv⟩ := (CellCode.run_append _ _ _ _ _).1 hv
  have hmarks : cell ∉ last.marks ((first ++ inner).headAfter cell) := by
    rw [CellCode.marks_of_quiet h.quiet_last]
    simp
  rw [CellCode.run_frame hlast hmarks ht, hinner.frame u v cell (h.first_tidies s u hs hu) hv hcell hM]
  rw [hfirst] at hu
  rw [(run_clear _ _ _ _).1 hu, Store.value_set_self]

/-- **The free cells are zero whenever a block is entered.** A block is repeated if it is that of a loop, or if its
flag is in `M`. -/
theorem entered (h : Blocked r ss kind cell before first inner last r₁ r₂ r')
    (hinner : Keeps M P r₁ (first.headAfter cell) inner r₂)
    (hrepeated : kind = .many ∨ M cell → ∀ c ∈ inner.varCells, P c) {s u : Store Int}
    (hs : FreeZero r₁.memory P s)
    (hpasses : Passes (fun s => s.value cell ≠ 0) ((first ++ inner ++ last).Run cell) s u)
    (htest : u.value cell ≠ 0) : FreeZero r₁.memory P u := by
  by_cases hmany : kind = .many ∨ M cell
  · refine passes_free (h.pass_tidies hinner.tidies) (fun c hc => ?_) hs hpasses
    exact ((h.placed.taken c).1 hc).imp_right (hrepeated hmany c)
  · obtain ⟨hkind, hM⟩ := not_or.1 hmany
    cases kind with
    | many => exact absurd rfl hkind
    | once =>
      have hu : u = s :=
        hpasses.eq_of_once (fun v hv => not_not.2 (h.value_flag hinner hM hs hv)) htest
      rwa [hu]

/-- The code of a statement with a block, if that of the block is known. -/
theorem keeps (h : Blocked r ss kind cell before first inner last r₁ r₂ r')
    (hinner : Keeps M P r₁ (first.headAfter cell) inner r₂)
    (hrepeated : kind = .many ∨ M cell → ∀ c ∈ inner.varCells, P c)
    (hmarks : ∀ c ∈ before.marks head, M c) (hMP : ∀ c, M c → P c) :
    Keeps M P r head (before ++ .loop kind cell (first ++ inner ++ last) .empty) r' := by
  have hbefore : Keeps M P r head before r₁ :=
    keeps_of_marks (h.tidy P head fun c hc => hMP c (hmarks c hc)) hmarks
  have hfirst : Keeps M P r₁ cell first r₁ :=
    keeps_of_marks h.first_tidies (by simp [CellCode.marks_of_quiet h.quiet_first])
  have hlast : Keeps M P r₂ ((first ++ inner).headAfter cell) last r₂ :=
    keeps_of_marks h.last_tidies (by simp [CellCode.marks_of_quiet h.quiet_last])
  have hpass : Keeps M P r₁ cell (first ++ inner ++ last) r₂ := (hfirst.append hinner).append hlast
  -- a pass starts with the free cells zero, whichever pass it is
  have hstart {s u : Store Int} (hs : FreeZero r₁.memory P s)
      (hpasses : Passes (fun s => s.value cell ≠ 0) ((first ++ inner ++ last).Run cell) s u) :=
    h.entered hinner hrepeated hs hpasses
  refine ⟨fun s t hs hrun c hfree hP => ?_, fun s t c hs hrun hc hM => ?_⟩
  · obtain ⟨u, hu, ht⟩ := (CellCode.run_append _ _ _ _ _).1 hrun
    rw [run_loop] at ht
    obtain ⟨hpasses, htest⟩ := ht
    have hentry := hbefore.tidies s u hs hu
    have hend : FreeZero r₂.memory P t := by
      rcases hpasses.cases_tail with rfl | ⟨v, hpasses, hv, hlast⟩
      · exact hentry.weaken fun c hfree hP => ⟨fun hc => hfree ((h.placed.taken c).2 (.inl hc)), hP⟩
      · exact hpass.tidies v t (hstart hentry hpasses hv) hlast
    by_cases hcell : c = cell
    · rw [hcell]
      exact not_not.1 htest
    · exact hend c (fun hc => hfree ((h.behind c hc).resolve_left hcell)) hP
  · obtain ⟨u, hu, ht⟩ := (CellCode.run_append _ _ _ _ _).1 hrun
    rw [run_loop] at ht
    simp only [CellCode.cells_append, CellCode.cells, List.append_nil, List.mem_append, List.mem_cons, not_or] at hc
    have hentry := hbefore.tidies s u hs hu
    rw [← hbefore.frame s u c hs hu hc.1 hM]
    obtain ⟨hpasses, -⟩ := ht
    -- the passes before a pass show that it starts with the free cells zero
    clear hrun
    induction hpasses with
    | refl => rfl
    | tail hprevious hstep ih =>
      rw [← ih]
      refine hpass.frame _ _ c (hstart hentry hprevious hstep.1) hstep.2 ?_ hM
      simpa [CellCode.cells_append, not_or, and_assoc] using hc.2.2

end Blocked

end Plan

/-- In code that is generated from `g` on, the part `sub` is generated from `g'` on, behind the instructions `is`.
If the free cells are zero at first, they are zero whenever the code gets there. -/
structure Occurs (size : ℕ) (P : Int → Prop) (code : CellCode) (g : Generator) (sub : CellCode) (g' : Generator)
    (is : List Instruction) : Prop where
  emitted : g'.instructions = g.instructions ++ is
  first : is ++ sub.instructions g'.assembler.comments g'.assembler.position <+:
    code.instructions g.assembler.comments g.assembler.position
  reached : ∀ s k t, FreeZero g.resolver.memory P s →
    k ≤ (operations (sub.instructions g'.assembler.comments g'.assembler.position)).length →
    (code.tree g.assembler.position).Visits (s.config size g.assembler.position) ((operations is).length + k) t →
    ∃ u, FreeZero g'.resolver.memory P u ∧
      (sub.tree g'.assembler.position).Visits (u.config size g'.assembler.position) k t

namespace Occurs

variable {size : ℕ} {P : Int → Prop} {code rest sub : CellCode} {g g' : Generator} {is : List Instruction}
  {r r₁ : Resolver} {a : Assembler}

theorem whole (size : ℕ) (P : Int → Prop) (code : CellCode) (g : Generator) : Occurs size P code g code g [] where
  emitted := (List.append_nil _).symm
  first := List.prefix_rfl
  reached s k t hs _ hv := ⟨s, hs, by simpa using hv⟩

/-- A place in the part lies before the end of the code. -/
theorem le_length (h : Occurs size P code g sub g' is) {k : ℕ}
    (hk : k ≤ (operations (sub.instructions g'.assembler.comments g'.assembler.position)).length) :
    (operations is).length + k ≤
      (operations (code.instructions g.assembler.comments g.assembler.position)).length := by
  obtain ⟨js, hjs⟩ := h.first
  rw [← hjs, operations_append, operations_append, List.length_append, List.length_append]
  omega

theorem append_left (h : Occurs size P code g sub g' is) (hq : code.Quiet) (rest : CellCode) :
    Occurs size P (code ++ rest) g sub g' is where
  emitted := h.emitted
  first := by
    rw [CellCode.instructions_append]
    exact h.first.trans (List.prefix_append _ _)
  reached s k t hs hk hv := h.reached s k t hs hk (CellCode.visits_tree_left hq (h.le_length hk) hv)

theorem append_right (h : Occurs size P rest ⟨r₁, a.assemble code⟩ sub g' is)
    (htidy : Plan.Tidies P r a.position code r₁) (hfits : Generator.Fits ⟨r, a⟩ size code) :
    Occurs size P (code ++ rest) ⟨r, a⟩ sub g' (code.instructions a.comments a.position ++ is) where
  emitted := by
    rw [h.emitted, Generator.instructions_assemble, List.append_assoc]
    rfl
  first := by
    rw [CellCode.instructions_append, List.append_assoc]
    exact (List.prefix_append_right_inj _).2 h.first
  reached s k t hs hk hv := by
    rw [operations_append, List.length_append, Nat.add_assoc] at hv
    obtain ⟨u, hu, hv⟩ := CellCode.visits_tree_right hfits.head hfits.within hfits.quiet hv
    exact h.reached u k t (htidy s u hs hu) hk hv

/-- The body of a loop that is entered with the free cells zero. -/
theorem inBody {kind : LoopKind} {cell : Int} {body : CellCode}
    (h : Occurs size P body ⟨r.enter, a.openLoop cell⟩ sub g' is)
    (hfits : Generator.Fits ⟨r, a⟩ size (.loop kind cell body .empty))
    (hentered : ∀ s u, FreeZero r.memory P s → Passes (fun s => s.value cell ≠ 0) (body.Run cell) s u →
      u.value cell ≠ 0 → FreeZero r.memory P u) :
    Occurs size P (.loop kind cell body .empty) ⟨r, a⟩ sub g' (travel a.position cell ++ [.openLoop] ++ is) where
  emitted := by
    rw [h.emitted, Generator.instructions_openLoop, List.append_assoc]
    rfl
  first := by
    have hfirst := h.first
    rw [Generator.comments_openLoop, Generator.position_openLoop] at hfirst
    rw [CellCode.instructions, List.append_assoc, List.append_assoc, List.singleton_append]
    refine (List.prefix_append_right_inj _).2 (List.cons_prefix_cons.2 ⟨rfl, ?_⟩)
    rw [List.append_assoc]
    exact hfirst.trans (List.prefix_append _ _)
  reached s k t hs hk hv := by
    have hle := h.le_length hk
    rw [Generator.comments_openLoop, Generator.position_openLoop] at hle
    rw [operations_append, List.length_append, Nat.add_assoc] at hv
    obtain ⟨u, hpasses, htest, hv⟩ := CellCode.visits_tree_body hfits.head hfits.within hfits.quiet hle hv
    refine h.reached u k t (hentered s u hs hpasses htest) hk ?_
    rwa [Generator.position_openLoop]

end Occurs

namespace Plan.Blocked

variable {size : ℕ} {M P : Int → Prop} {r r₁ r₂ r' : Resolver} {ss : List Stmt} {kind : LoopKind} {cell : Int}
  {before first inner last : CellCode} {a : Assembler}

theorem fits (hb : Blocked r ss kind cell before first inner last r₁ r₂ r')
    (h : Generator.Fits ⟨r, a⟩ size (before ++ .loop kind cell (first ++ inner ++ last) .empty)) :
    Generator.Fits ⟨r₁.enter, ((a.assemble before).openLoop cell).assemble first⟩ size inner :=
  (h.right hb.valid hb.size).inBody.left.right hb.valid.enter rfl

/-- A part of a block is a part of the whole code. -/
theorem occurs (hb : Blocked r ss kind cell before first inner last r₁ r₂ r')
    (hfits : Generator.Fits ⟨r, a⟩ size (before ++ .loop kind cell (first ++ inner ++ last) .empty))
    (hinner : Keeps M P r₁ (first.headAfter cell) inner r₂)
    (hrepeated : kind = .many ∨ M cell → ∀ c ∈ inner.varCells, P c)
    (hmarks : ∀ c ∈ before.marks a.position, P c) {sub : CellCode} {g' : Generator} {is : List Instruction}
    (h : Occurs size P inner ⟨r₁.enter, ((a.assemble before).openLoop cell).assemble first⟩ sub g' is) :
    ∃ is, Occurs size P (before ++ .loop kind cell (first ++ inner ++ last) .empty) ⟨r, a⟩ sub g' is := by
  have hloop := hfits.right hb.valid hb.size
  have hbody := hloop.inBody
  have hfirst (head : Int) : Tidies P r₁.enter head first r₁.enter := hb.first_tidies
  have hpass := (h.append_right (hfirst _) hbody.left.left).append_left hbody.left.quiet last
  have hall := hpass.inBody hloop fun s u hs hpasses htest => hb.entered hinner hrepeated hs hpasses htest
  exact ⟨_, hall.append_right (hb.tidy P _ hmarks) hfits.left⟩

end Plan.Blocked

namespace Generate

variable {size : ℕ} {M P : Int → Prop} {ss : List Stmt} {g g' closed : Generator} {blocks : List Block} {x : Stmt}
  {code sub : CellCode} {r' rx : Resolver}

theorem statement_of_plan (h : Plan.statement x g.resolver = .ok (code, r')) :
    statement x g = .ok () ⟨r', g.assembler.assemble code⟩ := by
  obtain ⟨code', r'', hplan, hx, -⟩ | ⟨e, g'', hplan, -, -⟩ := statement_follows x g.resolver g.assembler
  · obtain ⟨rfl, rfl⟩ := Prod.mk.inj (Except.ok.inj (h.symm.trans hplan))
    exact hx
  · cases h.symm.trans hplan

/-- The statement has a plan as well. Its code fits, and it lies between the start and the end of the blocks around
it. -/
theorem Comes.planned (h : Comes ss g blocks x g') (hfits : g.Fits size code)
    (hplan : Plan.statements ss g.resolver = .ok (code, r')) :
    ∃ sub rx, Plan.statement x g'.resolver = .ok (sub, rx) ∧ g'.Fits size sub ∧
      g.instructions <+: g'.instructions ∧
      Generator.instructions ⟨rx, g'.assembler.assemble sub⟩ <+:
        (limit ⟨rx, g'.assembler.assemble sub⟩ blocks).instructions ∧
      (limit ⟨rx, g'.assembler.assemble sub⟩ blocks).instructions <+:
        Generator.instructions ⟨r', g.assembler.assemble code⟩ := by
  induction h generalizing code r' with
  | here =>
    obtain ⟨first, r₁, rest, hfirst, -, rfl⟩ := Plan.statements_cons_ok hplan
    refine ⟨first, r₁, hfirst, hfits.left, List.prefix_rfl, List.prefix_rfl, ?_⟩
    rw [Assembler.assemble_append]
    exact Generator.isPrefix_assemble _ _ _ _
  | @inBlock kind subject body ss g g₁ g₂ g' cell blocks x hopen hbody hblock ih =>
    obtain ⟨r, a⟩ := g
    obtain ⟨stmt, r₂, rest, hstmt, -, rfl⟩ := Plan.statements_cons_ok hplan
    -- what is generated for the block is its plan, so the statement is looked for in the plan
    obtain rfl := (EStateM.Result.ok.inj (hblock.symm.trans (statement_of_plan hstmt))).2
    obtain ⟨cell', before, first, inner, last, r₄, r₅, hb, rfl, henter⟩ := Plan.block_blocked hfits.valid hstmt
    obtain ⟨rfl, rfl⟩ := EStateM.Result.ok.inj (hopen.symm.trans (henter a))
    obtain ⟨r₆, hinner, -⟩ := Plan.block_ok hb.block
    obtain ⟨sub, rx, hx, hsub, hbefore, hclosed, hlimit⟩ := ih (hb.fits hfits.left) hinner
    refine ⟨sub, rx, hx, hsub, ?_, hclosed.trans (hlimit.trans ?_), ?_⟩
    · exact ((Generator.isPrefix_assemble _ r₄ _ before).trans
        (Generator.isPrefix_openLoop _ _ _ cell first)).trans hbefore
    · exact Generator.isPrefix_block r₆ r₂ a kind cell before first inner last
    · rw [Assembler.assemble_append _ _ rest]
      exact Generator.isPrefix_assemble _ _ _ _
  | wrapped _ ih => exact ih hfits (by rwa [Plan.statements, Plan.statement, ← Plan.statements] at hplan)
  | later hfirst _ ih =>
    obtain ⟨first, r₁, rest, hy, hss, rfl⟩ := Plan.statements_cons_ok hplan
    obtain rfl := (EStateM.Result.ok.inj (hfirst.symm.trans (statement_of_plan hy))).2
    obtain ⟨bs, hp⟩ := Plan.statement_placed _ hfits.valid hy
    obtain ⟨sub, rx, hx, hsub, hbefore, hclosed, hlimit⟩ := ih (hfits.right hp.valid hp.size) hss
    refine ⟨sub, rx, hx, hsub, (Generator.isPrefix_assemble _ _ _ _).trans hbefore, hclosed, ?_⟩
    rwa [Assembler.assemble_append]

/-- Exceptions around a statement that is generated from `g'` to `closed`. In `M` are the cells of the diagnostics
before it, and behind it up to the end of the blocks around it; in `P` are also the cells of what is declared in
blocks that are repeated. -/
structure Excepts (M P : Int → Prop) (g : Generator) (blocks : List Block) (g' closed : Generator) : Prop where
  marked : ∀ c, M c → P c
  repeated : ∀ b ∈ blocks, b.kind = .many ∨ M b.cell → ∀ c, b.behind.resolver.memory.Taken c → P c
  before : ∀ c, g.Marks g' c → M c
  behind : ∀ c, closed.Marks (limit closed blocks) c → M c

/-- Statements behind a place, if the cells of their diagnostics are in `M`. -/
theorem keeps_behind {r : Resolver} {a : Assembler} (hfits : Generator.Fits ⟨r, a⟩ size code)
    (hplan : Plan.statements ss r = .ok (code, r')) (hclosed : closed.instructions <+: Generator.instructions ⟨r, a⟩)
    (hmarks : ∀ c, closed.Marks ⟨r', a.assemble code⟩ c → M c) (hMP : ∀ c, M c → P c) :
    Plan.Keeps M P r a.position code r' := by
  have hall : ∀ c ∈ code.marks a.position, M c := fun c hc =>
    hmarks c ((hfits.marks r' hc).mono hclosed List.prefix_rfl)
  exact Plan.keeps_of_marks (Plan.statements_tidy ss hfits.valid hplan fun c hc => hMP c (hall c hc)) hall

/-- **Where the code of a statement is reached, the free cells are zero**, up to the exceptions. All the code keeps
them so, if the cells of the diagnostics behind the statement are in `M`. -/
theorem Comes.occurs (h : Comes ss g blocks x g') (hfits : g.Fits size code)
    (hplan : Plan.statements ss g.resolver = .ok (code, r')) (hx : Plan.statement x g'.resolver = .ok (sub, rx))
    (hsub : Plan.Keeps M P g'.resolver g'.assembler.position sub rx)
    (hclose : closed = ⟨rx, g'.assembler.assemble sub⟩) (hex : Excepts M P g blocks g' closed) :
    (∃ is, Occurs size P code g sub g' is) ∧
      ((∀ c, closed.Marks ⟨r', g.assembler.assemble code⟩ c → M c) →
        Plan.Keeps M P g.resolver g.assembler.position code r') := by
  subst hclose
  induction h generalizing code r' with
  | here =>
    obtain ⟨first, r₁, rest, hfirst, hrest, rfl⟩ := Plan.statements_cons_ok hplan
    obtain ⟨rfl, rfl⟩ := Prod.mk.inj (Except.ok.inj (hfirst.symm.trans hx))
    obtain ⟨bs, hp⟩ := Plan.statement_placed _ hfits.valid hfirst
    refine ⟨⟨[], (Occurs.whole size P _ _).append_left hfits.left.quiet rest⟩, fun hmarks => ?_⟩
    rw [Assembler.assemble_append] at hmarks
    exact hsub.append (keeps_behind (hfits.right hp.valid hp.size) hrest List.prefix_rfl hmarks hex.marked)
  | @inBlock kind subject body ss g g₁ g₂ g' cell blocks x hopen hbody hblock ih =>
    obtain ⟨r, a⟩ := g
    obtain ⟨stmt, r₂, rest, hstmt, hrest, rfl⟩ := Plan.statements_cons_ok hplan
    obtain rfl := (EStateM.Result.ok.inj (hblock.symm.trans (statement_of_plan hstmt))).2
    obtain ⟨cell', before, first, inner, last, r₄, r₅, hb, rfl, henter⟩ := Plan.block_blocked hfits.valid hstmt
    obtain ⟨rfl, rfl⟩ := EStateM.Result.ok.inj (hopen.symm.trans (henter a))
    obtain ⟨r₆, hinner, hexit⟩ := Plan.block_ok hb.block
    obtain ⟨sub', rx', hx', -, hbefore, hclosed, hlimit⟩ := hbody.planned (hb.fits hfits.left) hinner
    obtain ⟨rfl, rfl⟩ := Prod.mk.inj (Except.ok.inj (hx.symm.trans hx'))
    have hfront := (Generator.isPrefix_openLoop r₄ r₄.enter (a.assemble before) cell first).trans hbefore
    have hwhole := Generator.isPrefix_block r₆ r₂ a kind cell before first inner last
    have hmarks : ∀ c ∈ before.marks a.position, M c := fun c hc =>
      hex.before c ((hfits.left.left.marks r₄ hc).mono List.prefix_rfl hfront)
    have hrepeated : kind = .many ∨ M cell → ∀ c ∈ inner.varCells, P c := fun hmany c hc =>
      hex.repeated _ List.mem_cons_self hmany c (hb.taken_of_mem hc)
    obtain ⟨⟨is, his⟩, hkeeps⟩ := ih (hb.fits hfits.left) hinner hx hsub
      ⟨hex.marked, fun b hb => hex.repeated b (List.mem_cons_of_mem _ hb),
        fun c hc => hex.before c (hc.mono ((Generator.isPrefix_assemble r r₄ a before).trans
          (Generator.isPrefix_openLoop _ _ _ cell first)) List.prefix_rfl),
        fun c hc => hex.behind c (hc.mono List.prefix_rfl (hlimit.trans hwhole))⟩
    -- behind the statement, and in its blocks, all diagnostics run on cells in `M`
    have hblockKeeps : Plan.Keeps M P r₄ (first.headAfter cell) inner r₅ := by
      have hposition := Generator.position_openLoop r₄ (a.assemble before) cell
      rw [← hposition]
      exact (hkeeps fun c hc => hex.behind c (hc.mono List.prefix_rfl hwhole)).block hexit
    obtain ⟨js, hjs⟩ := hb.occurs hfits.left hblockKeeps hrepeated (fun c hc => hex.marked c (hmarks c hc)) his
    refine ⟨⟨js, hjs.append_left hfits.left.quiet rest⟩, fun hall => ?_⟩
    rw [Assembler.assemble_append _ _ rest] at hall
    obtain ⟨bs, hp⟩ := Plan.statement_placed _ hfits.valid hstmt
    refine (hb.keeps hblockKeeps hrepeated hmarks hex.marked).append ?_
    exact keeps_behind (hfits.right hp.valid hp.size) hrest (hclosed.trans (hlimit.trans hwhole)) hall hex.marked
  | wrapped _ ih =>
    exact ih hfits (by rwa [Plan.statements, Plan.statement, ← Plan.statements] at hplan) hx hsub hex
  | later hfirst hcomes ih =>
    obtain ⟨first, r₁, rest, hy, hss, rfl⟩ := Plan.statements_cons_ok hplan
    obtain rfl := (EStateM.Result.ok.inj (hfirst.symm.trans (statement_of_plan hy))).2
    obtain ⟨bs, hp⟩ := Plan.statement_placed _ hfits.valid hy
    obtain ⟨-, -, -, -, hbefore, -, -⟩ := hcomes.planned (hfits.right hp.valid hp.size) hss
    have hmarks : ∀ c ∈ first.marks _, M c := fun c hc =>
      hex.before c ((hfits.left.marks r₁ hc).mono List.prefix_rfl hbefore)
    have htidy := Plan.statement_tidies _ hfits.valid hy fun c hc => hex.marked c (hmarks c hc)
    obtain ⟨⟨is, his⟩, hkeeps⟩ := ih (hfits.right hp.valid hp.size) hss hx hsub
      ⟨hex.marked, hex.repeated,
        fun c hc => hex.before c (hc.mono (Generator.isPrefix_assemble _ _ _ _) List.prefix_rfl), hex.behind⟩
    refine ⟨⟨_, his.append_right htidy hfits.left⟩, fun hall => ?_⟩
    rw [Assembler.assemble_append] at hall
    exact (Plan.keeps_of_marks htidy hmarks).append (hkeeps hall)

/-- Without diagnostics, only what is declared in loops around a statement is an exception. -/
theorem Comes.occurs_of_quiet (h : Comes ss g blocks x g') (hfits : g.Fits size code)
    (hplan : Plan.statements ss g.resolver = .ok (code, r')) (hd : code.diagnostics = [])
    (hx : Plan.statement x g'.resolver = .ok (sub, rx))
    (hloops : ∀ b ∈ blocks, b.kind = .many → ∀ c, b.behind.resolver.memory.Taken c → P c) :
    ∃ is, Occurs size P code g sub g' is := by
  obtain ⟨sub', rx', hx', hsub, hbefore, hclosed, hlimit⟩ := h.planned hfits hplan
  obtain ⟨rfl, rfl⟩ := Prod.mk.inj (Except.ok.inj (hx.symm.trans hx'))
  have hend := hclosed.trans hlimit
  have hmarks {g₂ : Generator} (hle : g₂.instructions <+: Generator.instructions ⟨r', g.assembler.assemble code⟩)
      (c : Int) : ¬ g.Marks g₂ c := by
    rintro ⟨is, d, hstart, his, -⟩
    have hsubset := Generator.diagnosticsOf_subset hstart (his.trans hle)
    simp [hd, diagnosticsOf, Instruction.diagnostic?] at hsubset
  have hnone : ∀ c ∈ sub.marks g'.assembler.position, False := fun c hc =>
    hmarks hend c ((hsub.marks rx hc).mono hbefore List.prefix_rfl)
  have hkeeps : Plan.Keeps (fun _ => False) P g'.resolver g'.assembler.position sub rx :=
    Plan.keeps_of_marks (Plan.statement_tidies x hsub.valid hx fun c hc => (hnone c hc).elim) hnone
  refine (h.occurs hfits hplan hx hkeeps rfl ⟨fun _ => False.elim, fun b hb hmany => ?_, ?_, fun c hc => ?_⟩).1
  · exact hloops b hb (hmany.resolve_right id)
  · exact hmarks ((Generator.isPrefix_assemble g'.resolver rx _ sub).trans hend)
  · exact hmarks hlimit c (hc.mono (hbefore.trans (Generator.isPrefix_assemble g'.resolver rx _ sub)) List.prefix_rfl)

end Generate

end TapeCompiler
