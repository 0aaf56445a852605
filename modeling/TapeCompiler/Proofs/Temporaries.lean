import TapeCompiler.Proofs.Compiled
import TapeCompiler.Proofs.Places

/-!
# Temporaries

The generator takes a free cell for a literal, and two for a branch, and its code relies on their being
zero. They are, wherever the generated code gets to, except inside a loop that declares variables: their
cells are free again when the next pass starts, and hold what the last pass has left there.

* `Generate.Takes`: a temporary that is taken while statements are generated.
* `Generate.Takes.visited`: **the cell of a temporary is zero where the code gets to it**, or a variable of
  a loop around it has that cell.
* `temporary_zero_unless_reused`: the same for a machine that runs a compiled source.
* `reused_temporary_not_zero`: **the exception happens.**
-/

namespace TapeCompiler

namespace Generate

/-- While statements are generated from `g` on, `temporary` gives a cell and leaves the generator `g'`.
The loops around that place are listed from the outermost one, each by the generator behind it. Statements
with a subject that is not defined are left out: they leave a diagnostic. -/
inductive Takes : List Stmt → Generator → List Generator → Generator → Int → Prop
  | literal {ts : List Ident} {n : Int} {ss : List Stmt} {g g₁ g' : Generator} {source : Int}
    (hremark : emit (·.comment (Stmt.assign ts (.literal n)).text) g = .ok () g₁)
    (hsource : temporary g₁ = .ok source g') :
    Takes (.assign ts (.literal n) :: ss) g [] g' source
  | flag {subject : Ident} {body ss : List Stmt} {g g₁ g' : Generator} {cell flag : Int}
    (hcell : resolve subject g = .ok (some cell) g₁) (hflag : temporary g₁ = .ok flag g') :
    Takes (.branch subject body :: ss) g [] g' flag
  | scratch {subject : Ident} {body ss : List Stmt} {g g₁ g₂ g' : Generator} {cell flag scratch : Int}
    (hcell : resolve subject g = .ok (some cell) g₁) (hflag : temporary g₁ = .ok flag g₂)
    (hscratch : temporary g₂ = .ok scratch g') :
    Takes (.branch subject body :: ss) g [] g' scratch
  | inBranch {subject : Ident} {body ss : List Stmt} {g g₁ g₂ g₃ g₄ g' : Generator}
    {loops : List Generator} {cell flag scratch inner : Int}
    (hcell : resolve subject g = .ok (some cell) g₁) (hflag : temporary g₁ = .ok flag g₂)
    (hscratch : temporary g₂ = .ok scratch g₃)
    (hopen : (do
      copy cell flag scratch
      release scratch
      emit (·.openLoop flag)
      clear flag : Generating Unit) g₃ = .ok () g₄)
    (hbody : Takes body { g₄ with resolver := g₄.resolver.enter } loops g' inner) :
    Takes (.branch subject body :: ss) g loops g' inner
  | inLoop {subject : Ident} {body ss : List Stmt} {g g₁ g₂ g₃ g' : Generator}
    {loops : List Generator} {cell inner : Int}
    (hcell : resolve subject g = .ok (some cell) g₁) (hopen : emit (·.openLoop cell) g₁ = .ok () g₂)
    (hbody : Takes body { g₂ with resolver := g₂.resolver.enter } loops g' inner)
    (hloop : statement (.loop subject body) g = .ok () g₃) :
    Takes (.loop subject body :: ss) g (g₃ :: loops) g' inner
  | wrapped {x : Stmt} {ss : List Stmt} {g g' : Generator} {loops : List Generator} {cell : Int}
    (hinner : Takes (x :: ss) g loops g' cell) : Takes (.wrap x :: ss) g loops g' cell
  | later {x : Stmt} {ss : List Stmt} {g g₁ g' : Generator} {loops : List Generator} {cell : Int}
    (hfirst : statement x g = .ok () g₁) (hrest : Takes ss g₁ loops g' cell) :
    Takes (x :: ss) g loops g' cell

theorem temporary_ok {g g' : Generator} {cell : Int} (h : temporary g = .ok cell g') :
    ∃ (n : ℕ) (r : Resolver), cell = n ∧ g.resolver.define none = .ok (n, r) ∧ g' = ⟨r, g.assembler⟩ := by
  unfold temporary at h
  cases hd : g.resolver.define none with
  | error e => simp [hd] at h
  | ok v =>
    simp only [hd, EStateM.Result.ok.injEq] at h
    exact ⟨v.1, v.2, h.1.symm, rfl, h.2.symm⟩

theorem resolve_some {i : Ident} {g g' : Generator} {cell : Int} (h : resolve i g = .ok (some cell) g') :
    g.resolver.lookup? i.name = some cell ∧ g' = g := by
  unfold resolve at h
  cases hl : g.resolver.lookup? i.name with
  | none => simp [hl] at h
  | some c =>
    simp only [hl, EStateM.Result.ok.injEq, Option.some.injEq] at h
    exact ⟨by rw [h.1], h.2.symm⟩

/-- Generation up to the block of a branch, in the parts of `Takes.inBranch`. -/
theorem enterBranch_ok {subject : Ident} {g g₁ g₂ g₃ g₄ : Generator} {cell flag scratch : Int}
    (hcell : resolve subject g = .ok (some cell) g₁) (hflag : temporary g₁ = .ok flag g₂)
    (hscratch : temporary g₂ = .ok scratch g₃)
    (hopen : (do
      copy cell flag scratch
      release scratch
      emit (·.openLoop flag)
      clear flag : Generating Unit) g₃ = .ok () g₄) : enterBranch subject g = .ok flag g₄ := by
  have hresult := bind_of_ok (f := fun _ => pure flag) hopen
  simp only [bind_assoc] at hresult
  rw [enterBranch, bind_of_ok hcell]
  simp only
  rw [bind_of_ok hflag, bind_of_ok hscratch, hresult]
  rfl

/-- The body of a block has a plan where generation has come to it. -/
theorem body_planned {kind : LoopKind} {subject : Ident} {body : List Stmt} {g g₁ : Generator} {cell : Int}
    {code : CellCode} {r' : Resolver} (hr : g.resolver.Valid) (hopen : enter kind subject g = .ok cell g₁)
    (hplan : Plan.statement (.block kind subject body) g.resolver = .ok (code, r')) :
    ∃ inner r₁, g₁.resolver.enter.Valid ∧ Plan.statements body g₁.resolver.enter = .ok (inner, r₁) := by
  obtain ⟨cell', before, first, inner, last, r₁, r₂, hb, -, henter⟩ := Plan.block_blocked hr hplan
  obtain ⟨-, rfl⟩ := EStateM.Result.ok.inj (hopen.symm.trans (henter g.assembler))
  obtain ⟨r₃, hinner, -⟩ := Plan.block_ok hb.block
  exact ⟨inner, r₃, hb.valid.enter, hinner⟩

/-- A cell that is defined is free before, and it lies on the tape. -/
theorem free_of_define {r r₁ : Resolver} {n : ℕ} (hr : r.Valid) (hdef : r.define none = .ok (n, r₁)) :
    ¬ r.memory.Taken n ∧ InTape r.memory.size n := by
  have hext := Resolver.extends_define hr hdef
  have htape := ((hext.taken n).2 (.inr (by simp))).inTape
  rw [hext.size] at htape
  exact ⟨hext.fresh n (by simp), htape⟩

/-- A statement takes a free cell before any of its code is emitted. -/
structure TakesFirst (x : Stmt) (g g' : Generator) (c : Int) : Prop where
  free : ¬ g.resolver.memory.Taken c
  tape : InTape g.resolver.memory.size c
  emitted : ∃ is, g'.instructions = g.instructions ++ is ∧ operations is = [] ∧
    ∀ code r', Plan.statement x g.resolver = .ok (code, r') →
      is <+: code.instructions g.assembler.comments g.assembler.position

namespace TakesFirst

variable {subject : Ident} {body : List Stmt} {g g₁ g₂ g' : Generator} {cell held c : Int}

theorem literal {ts : List Ident} {n : Int} (hr : g.resolver.Valid)
    (hremark : emit (·.comment (Stmt.assign ts (.literal n)).text) g = .ok () g₁)
    (hsource : temporary g₁ = .ok c g') : TakesFirst (.assign ts (.literal n)) g g' c := by
  obtain rfl := (EStateM.Result.ok.inj hremark).2
  obtain ⟨m, r, rfl, hdef, rfl⟩ := temporary_ok hsource
  obtain ⟨hfree, htape⟩ := free_of_define hr hdef
  -- the remark may be emitted before the cell is taken, but it is no code
  have hops : operations ((CellOp.comment (Stmt.assign ts (.literal n)).text).instructions
      g.assembler.comments g.assembler.position) = [] := by
    rw [CellOp.operations_instructions _ _ (by simp)]
    rfl
  refine ⟨hfree, htape, _, ?_, hops, fun code r' hplan => ?_⟩
  · simp [Generator.instructions, Assembler.comment_eq, Assembler.assemble, CellCode.instructions]
  · rw [Plan.statement] at hplan
    obtain ⟨m, r₂, -, -, rfl⟩ := Plan.assignLiteral_ok hplan
    exact ⟨_, rfl⟩

theorem flag (hr : g.resolver.Valid) (hcell : resolve subject g = .ok (some cell) g₁)
    (hflag : temporary g₁ = .ok c g') : TakesFirst (.branch subject body) g g' c := by
  obtain ⟨-, rfl⟩ := resolve_some hcell
  obtain ⟨n, r₂, rfl, hdef, rfl⟩ := temporary_ok hflag
  obtain ⟨hfree, htape⟩ := free_of_define hr hdef
  exact ⟨hfree, htape, [], (List.append_nil _).symm, operations_nil, fun _ _ _ => List.nil_prefix⟩

theorem scratch (hr : g.resolver.Valid) (hcell : resolve subject g = .ok (some cell) g₁)
    (hflag : temporary g₁ = .ok held g₂) (hscratch : temporary g₂ = .ok c g') :
    TakesFirst (.branch subject body) g g' c := by
  obtain ⟨-, rfl⟩ := resolve_some hcell
  obtain ⟨n, r₂, rfl, hdef, rfl⟩ := temporary_ok hflag
  obtain ⟨m, r₃, rfl, hdef', rfl⟩ := temporary_ok hscratch
  have hext := Resolver.extends_define hr hdef
  obtain ⟨hfree, htape⟩ := free_of_define hext.valid hdef'
  rw [hext.size] at htape
  exact ⟨fun hc => hfree ((hext.taken _).2 (.inl hc)), htape, [], (List.append_nil _).symm, operations_nil,
    fun _ _ _ => List.nil_prefix⟩

end TakesFirst

/-- **A temporary is taken at the start of a statement** that comes in the course of the others. The loops around
it are among the blocks around that statement. -/
theorem Takes.comes {ss : List Stmt} {g g' : Generator} {loops : List Generator} {c : Int}
    (h : Takes ss g loops g' c) {code : CellCode} {r' : Resolver} (hr : g.resolver.Valid)
    (hplan : Plan.statements ss g.resolver = .ok (code, r')) :
    ∃ blocks x g₁, Comes ss g blocks x g₁ ∧ (∀ b ∈ blocks, b.kind = .many → b.behind ∈ loops) ∧
      TakesFirst x g₁ g' c := by
  induction h generalizing code r' with
  | literal hremark hsource => exact ⟨[], _, _, .here, by simp, .literal hr hremark hsource⟩
  | flag hcell hflag => exact ⟨[], _, _, .here, by simp, .flag hr hcell hflag⟩
  | scratch hcell hflag hscratch => exact ⟨[], _, _, .here, by simp, .scratch hr hcell hflag hscratch⟩
  | @inBranch subject body ss g g₁ g₂ g₃ g₄ g' loops cell flag scratch inner hcell hflag hscratch hopen _ ih =>
    obtain ⟨first, r₁, rest, hfirst, -, -⟩ := Plan.statements_cons_ok hplan
    have hfirst : Plan.statement (.block .once subject body) g.resolver = .ok (first, r₁) := hfirst
    have henter : enter .once subject g = .ok flag g₄ := enterBranch_ok hcell hflag hscratch hopen
    obtain ⟨code, r₂, hvalid, hbody⟩ := body_planned hr henter hfirst
    obtain ⟨blocks, x, g₅, hcomes, hloops, htakes⟩ := ih hvalid hbody
    refine ⟨_, x, g₅, .inBlock .once henter hcomes (statement_of_plan hfirst), fun b hb hmany => ?_, htakes⟩
    rcases List.mem_cons.1 hb with rfl | hb
    · -- a branch is no loop
      cases hmany
    · exact hloops b hb hmany
  | @inLoop subject body ss g g₁ g₂ g₃ g' loops cell inner hcell hopen _ hloop ih =>
    obtain ⟨first, r₁, rest, hfirst, -, -⟩ := Plan.statements_cons_ok hplan
    have hfirst : Plan.statement (.block .many subject body) g.resolver = .ok (first, r₁) := hfirst
    have henter : enter .many subject g = .ok cell g₂ := by
      rw [enter, enterLoop, bind_of_ok hcell]
      simp only
      rw [bind_of_ok hopen]
      rfl
    obtain ⟨code, r₂, hvalid, hbody⟩ := body_planned hr henter hfirst
    obtain ⟨blocks, x, g₅, hcomes, hloops, htakes⟩ := ih hvalid hbody
    refine ⟨_, x, g₅, .inBlock .many henter hcomes hloop, fun b hb hmany => ?_, htakes⟩
    rcases List.mem_cons.1 hb with rfl | hb
    · -- the loop is the outermost of those around
      exact List.mem_cons_self
    · exact List.mem_cons_of_mem _ (hloops b hb hmany)
  | wrapped _ ih =>
    obtain ⟨blocks, x, g₁, hcomes, hloops, htakes⟩ :=
      ih hr (by rwa [Plan.statements, Plan.statement, ← Plan.statements] at hplan)
    exact ⟨blocks, x, g₁, .wrapped hcomes, hloops, htakes⟩
  | later hfirst _ ih =>
    obtain ⟨first, r₁, rest, hx, hss, -⟩ := Plan.statements_cons_ok hplan
    obtain rfl := (EStateM.Result.ok.inj (hfirst.symm.trans (statement_of_plan hx))).2
    obtain ⟨bs, hp⟩ := Plan.statement_placed _ hr hx
    obtain ⟨blocks, x, g₁, hcomes, hloops, htakes⟩ := ih hp.valid hss
    exact ⟨blocks, x, g₁, .later hfirst hcomes, hloops, htakes⟩

end Generate

theorem FreeZero.tape {o : Occupancy} {P : Int → Prop} {s : Store Int} (h : FreeZero o P s) {c : Int}
    (hfree : ¬ o.Taken c) {size : ℕ} (hc : InTape size c) (head : Int) :
    (s.config size head).tape[c.toNat]? = some 0 ∨ P c := by
  by_cases hP : P c
  · exact .inr hP
  · refine .inl ?_
    obtain ⟨h0, hlt⟩ := hc
    rw [Store.tape_config _ _ (by omega), Int.toNat_of_nonneg h0, h c hfree hP]

/-- Code that is generated from `g` on gets to the place behind its first instructions `is`. There a cell
is zero, unless it is an exception from the start or is taken behind one of the loops. -/
structure ZeroAt (size : ℕ) (code : CellCode) (g : Generator) (loops : List Generator) (g' : Generator)
    (cell : Int) (is : List Instruction) : Prop where
  emitted : g'.instructions = g.instructions ++ is
  first : is <+: code.instructions g.assembler.comments g.assembler.position
  zero : ∀ (P : Int → Prop) (s : Store Int) (t : Config), FreeZero g.resolver.memory P s →
    (code.tree g.assembler.position).Visits (s.config size g.assembler.position)
      (operations is).length t →
    t.tape[cell.toNat]? = some 0 ∨ P cell ∨ ∃ e ∈ loops, e.resolver.memory.Taken cell

/-- The plan of statements has a place where a cell is zero: where `g` has become `g'`. -/
def Visited (size : ℕ) (ss : List Stmt) (g : Generator) (loops : List Generator) (g' : Generator)
    (c : Int) : Prop :=
  ∀ code r', Plan.statements ss g.resolver = .ok (code, r') → g.resolver.Valid → code.diagnostics = [] →
    g.resolver.memory.size ≤ size → InTape size g.assembler.position → code.Within size →
    ∃ is, ZeroAt size code g loops g' c is

/-- **The cell of a temporary is zero where the code gets to it**, unless a variable of a loop around it
has that cell. -/
theorem Generate.Takes.visited {ss : List Stmt} {g g' : Generator} {loops : List Generator} {c : Int}
    (h : Takes ss g loops g' c) (size : ℕ) : Visited size ss g loops g' c := by
  intro code r' hplan hr hd hsize hhead hin
  have hfits : g.Fits size code :=
    ⟨hr, hsize, hhead, fun hne => absurd hd hne, hin, CellCode.quiet_of_nil hd⟩
  obtain ⟨blocks, x, g₁, hcomes, hloops, hfree, htape, js, hjs, hops, hfirst⟩ := h.comes hr hplan
  obtain ⟨sub, rx, hx, hsub, -⟩ := hcomes.planned hfits hplan
  obtain ⟨is, hplace⟩ := hcomes.occurs_of_quiet (P := fun _ => True) hfits hplan hd hx (by simp)
  refine ⟨is ++ js, by rw [hjs, hplace.emitted, List.append_assoc], ?_, fun P s t hs hv => ?_⟩
  · exact ((List.prefix_append_right_inj is).2 (hfirst sub rx hx)).trans hplace.first
  · obtain ⟨is', hoccurs⟩ := hcomes.occurs_of_quiet (P := fun e => P e ∨ ∃ l ∈ loops, l.resolver.memory.Taken e)
      hfits hplan hd hx fun b hb hmany e he => .inr ⟨b.behind, hloops b hb hmany, he⟩
    obtain rfl : is' = is := List.append_cancel_left (hoccurs.emitted.symm.trans hplace.emitted)
    -- the remark in front of a literal is no code, so the statement has just been reached
    rw [operations_append, hops, List.append_nil] at hv
    obtain ⟨u, hu, hv⟩ := hoccurs.reached s 0 t
      (hs.weaken fun e hfree hP => ⟨hfree, fun he => hP (.inl he)⟩) (Nat.zero_le _) hv
    rw [(LoopTree.visits_zero _ _ _).1 hv]
    have hmemory := hsub.memory
    obtain ⟨h0, hlt⟩ := htape
    exact hu.tape hfree ⟨h0, by omega⟩ _

/-- A machine that has loaded a compiled source comes to the place where the generator has taken a
temporary. Its cell is zero then, or it is taken behind a loop around that place. -/
def ZeroUnlessReused (c : Compiled) (size : ℕ) (input : String) (loops : List Generator) (g : Generator)
    (cell : Int) : Prop :=
  g.instructions <+: c.instructions ∧
  ∃ m, (Machine.blank size).load c.code input = (.ok (), m) ∧
    ∀ n, (m.after n).pc = (operations g.instructions).length →
      (m.after n).tape[cell.toNat]? = some 0 ∨ ∃ e ∈ loops, e.resolver.memory.Taken cell

/-- **A temporary is zero whenever a machine comes to the instruction behind it**, in every pass of the
loops around it, unless a variable that one of these loops declares has its cell. -/
theorem temporary_zero_unless_reused {source : String} {options : Options} {c : Compiled}
    {program : List Stmt} {g g' : Generator} {loops : List Generator} {cell : Int} {size : ℕ}
    (hcompile : compile source options = .ok c) (hok : c.ok = true)
    (hparse : parse source (scan source) = .ok program)
    (hg : Generator.ofSize options.tapeSize options.comments = .ok g)
    (htakes : Generate.Takes program g loops g' cell) (hsize : options.tapeSize ≤ size)
    (input : String) : ZeroUnlessReused c size input loops g' cell := by
  obtain ⟨program', code, hparse', hplan, hc⟩ := exists_plan_of_compile hcompile
  obtain rfl := Except.ok.inj (hparse.symm.trans hparse')
  have hdiag := diagnostics_eq_nil hc hok
  obtain ⟨hpos, hwithin⟩ := plan_within hplan
  obtain ⟨r, r', hr, hs⟩ := plan_ok hplan
  obtain ⟨r₀, hr₀, rfl⟩ := exists_of_map_ok hg
  obtain rfl := Except.ok.inj (hr.symm.trans hr₀)
  obtain ⟨hvalid, -, hmemory, -, hfree⟩ := Resolver.valid_ofSize hr
  have hcells : 0 < size := by omega
  obtain ⟨m, hload, hstarts, hconfig⟩ :=
    starts_compiled hc (CellCode.quiet_of_nil hdiag) hcells input
  have hhead : InTape size 0 := ⟨by omega, by omega⟩
  have hmemory' : r.memory.size ≤ size := by omega
  obtain ⟨is, his⟩ := htakes.visited size code r' hs hvalid hdiag hmemory' hhead
    (hwithin.mono (by omega))
  have hemitted : g'.instructions = is := by simpa [Generator.instructions, Assembler.new] using his.emitted
  refine ⟨?_, m, hload, fun n hpc => ?_⟩
  · rw [hemitted, hc]
    exact his.first
  · obtain ⟨k, s, j, hafter, hv⟩ := Machine.after_visits hstarts n
    rw [hafter] at hpc ⊢
    rw [hconfig] at hv
    obtain rfl : k = (operations is).length := by rw [← hemitted]; exact hpc
    -- at first no cell is taken, and all are zero
    have hzero : FreeZero r.memory (fun _ => False) (Store.zero Int input.toList) := fun _ _ _ => rfl
    exact (his.zero _ _ _ hzero hv).imp_right fun h => h.resolve_left id

/-- A loop that declares a variable behind its first temporary. -/
def reusingSource : String :=
  "var $i, $y; $i = 2; while -$i \x7b $y = 1; var $z; $z = 5; \x7d"

/-- The body of the loop of `reusingSource`. -/
def reusingBody : List Stmt :=
  [.assign [⟨.none, "$y"⟩] (.literal 1), .declare [⟨.none, "$z"⟩], .assign [⟨.none, "$z"⟩] (.literal 5)]

def reusingProgram : List Stmt :=
  [.declare [⟨.none, "$i"⟩, ⟨.none, "$y"⟩], .assign [⟨.none, "$i"⟩] (.literal 2),
    .loop ⟨.minus, "$i"⟩ reusingBody]

theorem parse_reusingSource : parse reusingSource (scan reusingSource) = .ok reusingProgram := by
  decide +kernel

/-- The options of the runs below. -/
def reusingOptions : Options := { tapeSize := 6, comments := false }

/-- The resolver at the loop of `reusingSource`. -/
def reusingResolver : Resolver :=
  ⟨6, ⟨[true, true, false, false, false, false]⟩, ⟨[⟨some "$i", 0⟩, ⟨some "$y", 1⟩], []⟩⟩

/-- The assembler at that loop. -/
def reusingAssembler : Assembler :=
  ⟨false, #[.move 2, .add 2, .move (-2), .openLoop, .add (-1), .closeLoop, .move 2, .openLoop, .add (-1), .move (-2),
    .add 1, .move 2, .closeLoop], 2, [], 0⟩

/-- The generator at the start of the body of that loop. -/
def reusingStart : Generator :=
  ⟨reusingResolver.enter, reusingAssembler.openLoop 0⟩

/-- A temporary of the body is one of the program. Behind the loop only the cells of `$i`, `$y` and `$z` are taken. -/
theorem takes_reusingProgram {g' : Generator} {cell : Int} (h : Generate.Takes reusingBody reusingStart [] g' cell) :
    ∃ g e, Generator.ofSize 6 false = .ok g ∧ Generate.Takes reusingProgram g [e] g' cell ∧
      e.resolver.memory = ⟨[true, true, true, false, false, false]⟩ := by
  have hfirst : (Plan.statement (.assign [⟨.none, "$i"⟩] (.literal 2)) reusingResolver).map (fun p =>
      (p.2, (Assembler.new false).assemble p.1)) = .ok (reusingResolver, reusingAssembler) := by
    decide +kernel
  have hloop : (Plan.statement (.loop ⟨.minus, "$i"⟩ reusingBody) reusingResolver).map (·.2.memory) =
      .ok ⟨[true, true, true, false, false, false]⟩ := by
    decide +kernel
  obtain ⟨⟨code, r⟩, hcode, hresult⟩ := exists_of_map_ok hfirst
  obtain ⟨rfl, hassembler⟩ := Prod.mk.inj hresult
  obtain ⟨⟨code', r'⟩, hcode', hmemory⟩ := exists_of_map_ok hloop
  have hassign := Generate.statement_of_plan (g := ⟨reusingResolver, .new false⟩) hcode
  rw [hassembler] at hassign
  have hbehind := Generate.statement_of_plan (g := ⟨reusingResolver, reusingAssembler⟩) hcode'
  exact ⟨_, _, rfl, .later rfl (.later hassign (.inLoop rfl rfl h hbehind)), hmemory⟩

/-- The first temporary of the loop gets cell 2, and the code behind it starts with operation 22. -/
theorem takes_reusingSource : ∃ g loops g', Generator.ofSize 6 false = .ok g ∧
    Generate.Takes reusingProgram g loops g' 2 ∧ (operations g'.instructions).length = 22 := by
  obtain ⟨g, e, hg, htakes, -⟩ := takes_reusingProgram (.literal rfl rfl)
  exact ⟨g, [e], _, hg, htakes, by decide +kernel⟩

/-- The second temporary of the loop gets cell 3, which is free behind the loop. The code behind it starts with
operation 36. -/
theorem takes_reusingSource_later : ∃ g e g', Generator.ofSize 6 false = .ok g ∧
    Generate.Takes reusingProgram g [e] g' 3 ∧ ¬ e.resolver.memory.Taken 3 ∧
    (operations g'.instructions).length = 36 := by
  -- the first assignment of the body leaves the names and the cells as they are
  have hfirst : (Plan.statement (.assign [⟨.none, "$y"⟩] (.literal 1)) reusingResolver.enter).map (fun p =>
      (p.2, (operations ((reusingStart.assembler.assemble p.1).comment
        (Stmt.assign [⟨.none, "$z"⟩] (.literal 5)).text).emitted.toList).length)) =
      .ok (reusingResolver.enter, 36) := by
    decide +kernel
  obtain ⟨⟨code, r⟩, hcode, hresult⟩ := exists_of_map_ok hfirst
  obtain ⟨rfl, hplace⟩ := Prod.mk.inj hresult
  have hassign := Generate.statement_of_plan (g := reusingStart) hcode
  obtain ⟨g, e, hg, htakes, hmemory⟩ := takes_reusingProgram (.later hassign (.later rfl (.literal rfl rfl)))
  refine ⟨g, e, _, hg, htakes, ?_, hplace⟩
  rw [hmemory]
  decide

/-- The second temporary of the loop is zero in both of its passes, though the first one is not. -/
theorem temporary_zero_unless_reused_loop : ∃ c g e g' m,
    compile reusingSource reusingOptions = .ok c ∧ c.ok = true ∧
    parse reusingSource (scan reusingSource) = .ok reusingProgram ∧
    Generator.ofSize 6 false = .ok g ∧ Generate.Takes reusingProgram g [e] g' 3 ∧
    ZeroUnlessReused c 8 "" [e] g' 3 ∧ ¬ e.resolver.memory.Taken 3 ∧
    (Machine.blank 8).load c.code "" = (.ok (), m) ∧
    (∀ n, (m.after n).pc = (operations g'.instructions).length → (m.after n).tape[3]? = some 0) ∧
    (m.after 39).pc = (operations g'.instructions).length ∧
    (m.after 118).pc = (operations g'.instructions).length := by
  have hrun : (compile reusingSource reusingOptions).map (fun c =>
      let loaded := ((Machine.blank 8).load c.code "").2
      (c.ok, (loaded.after 39).pc, (loaded.after 118).pc)) = .ok (true, 36, 36) := by decide +kernel
  obtain ⟨c, hc, hrun⟩ := exists_of_map_ok hrun
  obtain ⟨g, e, g', hg, htakes, hfree, hplace⟩ := takes_reusingSource_later
  simp only [Prod.mk.injEq] at hrun
  obtain ⟨hok, hfirst, hsecond⟩ := hrun
  have hclean : ZeroUnlessReused c 8 "" [e] g' 3 :=
    temporary_zero_unless_reused hc hok parse_reusingSource hg htakes (by decide) ""
  have ⟨_, m, hload, hzero⟩ := hclean
  rw [hload] at hfirst hsecond
  refine ⟨c, g, e, g', m, hc, hok, parse_reusingSource, hg, htakes, hclean, hfree, hload, fun n hn => ?_,
    hfirst.trans hplace.symm, hsecond.trans hplace.symm⟩
  -- the exception is ruled out: the only loop around leaves the cell free
  refine (hzero n hn).resolve_right ?_
  rintro ⟨e', he', htaken⟩
  rw [List.mem_singleton.1 he'] at htaken
  exact hfree htaken

theorem reused_temporary_not_zero : ∃ c g loops g' m n,
    compile reusingSource reusingOptions = .ok c ∧ c.ok = true ∧
    parse reusingSource (scan reusingSource) = .ok reusingProgram ∧
    Generator.ofSize 6 false = .ok g ∧ Generate.Takes reusingProgram g loops g' 2 ∧
    (Machine.blank 6).load c.code "" = (.ok (), m) ∧
    (m.after n).pc = (operations g'.instructions).length ∧ (m.after n).tape[2]? = some 5 := by
  have hrun : (compile reusingSource reusingOptions).map (fun c =>
      let loaded := (Machine.blank 6).load c.code ""
      (c.ok, loaded.1, (loaded.2.after 79).pc, (loaded.2.after 79).tape[2]?)) =
        .ok (true, .ok (), 22, some 5) := by decide +kernel
  obtain ⟨c, hc, hrun⟩ := exists_of_map_ok hrun
  obtain ⟨g, loops, g', hg, htakes, hplace⟩ := takes_reusingSource
  simp only [Prod.mk.injEq] at hrun
  obtain ⟨hok, hload, hpc, htape⟩ := hrun
  exact ⟨c, g, loops, g', _, 79, hc, hok, parse_reusingSource, hg, htakes, Prod.ext hload rfl,
    hpc.trans hplace.symm, htape⟩

end TapeCompiler
