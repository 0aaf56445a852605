import Mathlib.Order.Bounds.Defs
import TapeCompiler.Proofs.Checker
import TapeCompiler.Proofs.Simulation

/-!
# What an assignment does

An assignment drains one cell into others. Targets may repeat, with marks that add or take away, and the cell that is
drained may be among them; then a pass of the loop changes it by more or less than one, and the loop ends only if the
number of passes can be chosen such that it comes to zero modulo 256.

* `repeats_iff_least`: a loop that always does the same ends with the first state in which the test fails.
* `Assignment`, with `net`: what a cell gains with every pass, and `zeroed`: what it holds before the first one.
* `Assignment.run_iff`: **the code of an assignment in closed form**, on cells.
* `Assignment.Done`: the tape after a number of passes.
* `assignment_closed_form`: **the emitted code ends after the least number of passes that empties the source, with the
  tape that the targets demand, and does not end if there is no such number.**
-/

namespace TapeCompiler

/-! ## Loops that always do the same -/

section

variable {σ : Type} {test : σ → Prop} {step : σ → σ} {s t : σ}

theorem passes_iff_iterate :
    Passes test (fun s t => t = step s) s t ↔ ∃ k, (∀ j < k, test (step^[j] s)) ∧ t = step^[k] s := by
  constructor
  · intro h
    induction h with
    | refl => exact ⟨0, by simp, rfl⟩
    | tail _ hlast ih =>
      obtain ⟨k, htests, rfl⟩ := ih
      obtain ⟨htest, rfl⟩ := hlast
      refine ⟨k + 1, ?_, (Function.iterate_succ_apply' step k s).symm⟩
      intro j hj
      rcases Nat.lt_succ_iff_lt_or_eq.1 hj with hlt | rfl
      · exact htests j hlt
      · exact htest
  · rintro ⟨k, htests, rfl⟩
    induction k with
    | zero => exact Passes.refl s
    | succ k ih =>
      have hbefore := ih fun j hj => htests j (by omega)
      exact hbefore.next (htests k (by omega)) (Function.iterate_succ_apply' step k s)

/-- **A loop that always does the same** ends with the first state in which the test fails, if there is one. -/
theorem repeats_iff_least :
    Repeats test (fun s t => t = step s) s t ↔ ∃ k, IsLeast {k | ¬ test (step^[k] s)} k ∧ t = step^[k] s := by
  unfold Repeats
  rw [passes_iff_iterate]
  constructor
  · rintro ⟨⟨k, htests, rfl⟩, hend⟩
    refine ⟨k, ⟨hend, ?_⟩, rfl⟩
    intro j hj
    by_contra hlt
    exact hj (htests j (by omega))
  · rintro ⟨k, ⟨hend, hleast⟩, rfl⟩
    refine ⟨⟨k, ?_, rfl⟩, hend⟩
    intro j hj
    by_contra hfails
    have hle := hleast hfails
    omega

end

theorem add_ofInt_eq_zero_iff (b : UInt8) (n : Int) : b + UInt8.ofInt n = 0 ↔ (256 : Int) ∣ b.toNat + n := by
  have hsum : b + UInt8.ofInt n = UInt8.ofInt (b.toNat + n) := by
    rw [UInt8.ofInt_add, Store.ofInt_toNat]
  rw [hsum, ← UInt8.toNat_inj, UInt8.ofInt, UInt8.toNat_ofNat']
  simp only [UInt8.toNat_zero]
  omega

/-! ## Counting targets -/

/-- The cell that is drained: that of a name, or a new one for a literal. -/
def Generator.sourceCell? (g : Generator) : Operand → Option Int
  | .literal _ =>
    match g.resolver.define none with
    | .ok (cell, _) => some cell
    | .error _ => none
  | .ident i => g.resolver.lookup? i.name

/-- What is put into that cell before: a literal, or nothing. -/
def Operand.amount : Operand → Int
  | .literal n => n
  | .ident _ => 0

/-- The value of a cell of a machine. -/
def Machine.cellAt (m : Machine) (cell : Int) : UInt8 :=
  m.tape.getD cell.toNat 0

/-- An assignment where names are known, and the cell that it drains. -/
structure Assignment where
  names : Resolver
  targets : List Ident
  value : Operand
  source : Int

namespace Assignment

variable (a : Assignment)

/-- How many targets with one of some marks there are on a cell. -/
def count (marks : List Mark) (cell : Int) : ℕ :=
  a.targets.countP fun i => a.names.lookup? i.name = some cell ∧ i.mark ∈ marks

/-- What a cell gains with every unit: one for each target on it that has no mark or a plus, and one less for each
that has a minus. -/
def net (cell : Int) : Int :=
  a.count [.none, .plus] cell - a.count [.minus] cell

/-- The value of a cell after the literal was added and the targets without a mark were set to zero. -/
def zeroed (m : Machine) (cell : Int) : UInt8 :=
  if 0 < a.count [.none] cell then 0
  else m.cellAt cell + if cell = a.source then UInt8.ofInt a.value.amount else 0

/-- After `k` passes the source is empty. -/
def Empties (m : Machine) (k : ℕ) : Prop :=
  (256 : Int) ∣ (a.zeroed m a.source).toNat + k * (a.net a.source - 1)

/-- The machine `m` has become `m'` by an assignment with `k` passes. -/
structure Done (m : Machine) (k : ℕ) (m' : Machine) : Prop where
  size : m'.tape.size = m.tape.size
  source : m'.cellAt a.source = 0
  others : ∀ cell, InTape m.tape.size cell → cell ≠ a.source →
    m'.cellAt cell = a.zeroed m cell + UInt8.ofInt (k * a.net cell)
  untouched : ∀ cell, InTape m.tape.size cell → cell ≠ a.source →
    (∀ i ∈ a.targets, a.names.lookup? i.name ≠ some cell) → m'.cellAt cell = m.cellAt cell
  input : m'.input = m.input
  output : m'.output = m.output

/-! ### Counts in plans -/

section

variable {a} {cell : Int}

theorem count_eq_zero (h : ∀ i ∈ a.targets, a.names.lookup? i.name ≠ some cell) (marks : List Mark) :
    a.count marks cell = 0 := by
  rw [count, List.countP_eq_zero]
  intro i hi
  simp [h i hi]

theorem mem_plainCells : cell ∈ Plan.plainCells (Plan.targets a.names a.targets) ↔ 0 < a.count [.none] cell := by
  rw [count, List.countP_pos_iff]
  simp only [Plan.plainCells, Plan.targets, List.mem_map, List.mem_filter, List.mem_filterMap]
  constructor
  · rintro ⟨t, ⟨⟨i, hi, ht⟩, hmark⟩, rfl⟩
    obtain ⟨c, hc, rfl⟩ := Option.map_eq_some_iff.1 ht
    exact ⟨i, hi, by simpa [hc] using hmark⟩
  · rintro ⟨i, hi, h⟩
    obtain ⟨hc, hmark⟩ : a.names.lookup? i.name = some cell ∧ i.mark = .none := by simpa using h
    exact ⟨(cell, i), ⟨⟨i, hi, by simp [hc]⟩, by simpa using hmark⟩, rfl⟩

theorem gainOf_steps_cons (r : Resolver) (i : Ident) (is : List Ident) :
    Store.gainOf cell (Plan.steps (Plan.targets r (i :: is))) =
      (if r.lookup? i.name = some cell then (Plan.stepOf i.mark).getD 0 else 0) +
        Store.gainOf cell (Plan.steps (Plan.targets r is)) := by
  simp only [Plan.targets, List.filterMap_cons]
  cases r.lookup? i.name with
  | none => simp
  | some c =>
    simp only [Option.map_some, Plan.steps, List.filterMap_cons]
    cases Plan.stepOf i.mark with
    | none => simp
    | some n => simp [Store.gainOf]

theorem gainOf_steps (hmarks : ∀ i ∈ a.targets, i.mark ≠ .floor) :
    Store.gainOf cell (Plan.steps (Plan.targets a.names a.targets)) = a.net cell := by
  obtain ⟨names, targets, value, source⟩ := a
  unfold net count
  simp only at hmarks ⊢
  induction targets with
  | nil => rfl
  | cons i is ih =>
    obtain ⟨hi, his⟩ := List.forall_mem_cons.1 hmarks
    rw [gainOf_steps_cons, ih his, List.countP_cons, List.countP_cons]
    by_cases hcell : names.lookup? i.name = some cell
    · cases hm : i.mark with
      | floor => exact absurd hm hi
      | none | plus | minus =>
        simp [hcell, Plan.stepOf]
        omega
    · simp [hcell]

end

end Assignment

/-! ## The code on cells -/

namespace Plan

variable {r r₁ : Resolver}

theorem reports_eq_nil {is : List Ident} (h : ∀ i ∈ is, ∃ cell, r.lookup? i.name = some cell) :
    is.flatMap (report r) = [] := by
  rw [List.flatMap_eq_nil_iff]
  intro i hi
  obtain ⟨cell, hcell⟩ := h i hi
  rw [report, hcell]

/-- A temporary that was just taken can be given back. -/
theorem release_of_define {cell : ℕ} (h : r.define none = .ok (cell, r₁)) : ∃ r₂, r₁.release cell = .ok r₂ := by
  obtain ⟨-, memory, -, rfl⟩ := Resolver.define_ok h
  simp [Resolver.release, Scope.undefine, Scope.bind]

/-- What puts a literal into the source. -/
def fill (source : Int) : Operand → List CellOp
  | .literal n => [.add source n]
  | .ident _ => []

/-- **The plan of an assignment** with known names: a remark, a literal is put into the source, and then the source is
moved. -/
theorem assign_of_known {g : Generator} {value : Operand} {source : Int} (hsource : g.sourceCell? value = some source) :
    ∃ r', ∀ is : List Ident, (∀ i ∈ is, ∃ cell, g.resolver.lookup? i.name = some cell) →
      assign is value g.resolver = .ok (.ofOps (.comment (Stmt.assign is value).text :: fill source value) ++
        moveInto source (Generate.sortTargets (targets g.resolver is)), r') := by
  cases value with
  | literal n =>
    rw [Generator.sourceCell?] at hsource
    cases hdefine : g.resolver.define none with
    | error e =>
      rw [hdefine] at hsource
      cases hsource
    | ok v =>
      obtain ⟨cell, r₁⟩ := v
      rw [hdefine] at hsource
      obtain rfl := Option.some.inj hsource
      -- the cell of the literal has no name, so the targets are found as before
      have hlookup := Resolver.lookup_define_none hdefine
      obtain ⟨r₂, hrelease⟩ := release_of_define hdefine
      refine ⟨r₂, fun is hnames => ?_⟩
      have hreports : is.flatMap (report r₁) = [] := reports_eq_nil fun i hi => by
        rw [hlookup]
        exact hnames i hi
      have htargets : targets r₁ is = targets g.resolver is := by
        simp only [targets, hlookup]
      simp [assign, hdefine, hrelease, hreports, htargets, fill, bind, Except.bind, pure, Except.pure]
  | ident i =>
    have hlookup : g.resolver.lookup? i.name = some source := hsource
    have hreport : report g.resolver i = [] := by rw [report, hlookup]
    refine ⟨g.resolver, fun is hnames => ?_⟩
    simp [assign, hlookup, hreport, reports_eq_nil hnames, fill]

/-- What stands before the move in the plan of an assignment, with its meaning. -/
theorem exists_assign {g : Generator} {is : List Ident} {value : Operand} {source : Int}
    (hsource : g.sourceCell? value = some source)
    (hnames : ∀ i ∈ is, ∃ cell, g.resolver.lookup? i.name = some cell) :
    ∃ before r', assign is value g.resolver =
        .ok (.ofOps before ++ moveInto source (Generate.sortTargets (targets g.resolver is)), r') ∧
      (CellCode.ofOps before).diagnostics = [] ∧ (∀ c ∈ (CellCode.ofOps before).cells, c = source) ∧
      ∀ head s t, (CellCode.ofOps before).Run head s t ↔ t = s.add source value.amount := by
  obtain ⟨r', hplan⟩ := assign_of_known hsource
  refine ⟨_, r', hplan is hnames, ?_⟩
  cases value with
  | literal n =>
    refine ⟨rfl, ?_, fun head s t => Iff.rfl⟩
    simp [fill, CellCode.ofOps, CellCode.cells, CellOp.cell?]
  | ident i =>
    refine ⟨rfl, ?_, fun head s t => ?_⟩
    · simp [fill, CellCode.ofOps, CellCode.cells, CellOp.cell?]
    · rw [Operand.amount, Store.add_zero]
      exact Iff.rfl

end Plan

namespace Assignment

variable {a : Assignment} {g : Generator} {head : Int} {s t : Store Int}

/-- The cells before the first pass. -/
def start (a : Assignment) (s : Store Int) : Store Int :=
  (s.add a.source a.value.amount).zeroAll (Plan.plainCells (Plan.targets a.names a.targets))

/-- One pass. -/
def pass (a : Assignment) (s : Store Int) : Store Int :=
  s.addAll ((a.source, -1) :: Plan.steps (Plan.targets a.names a.targets))

theorem value_start (s : Store Int) (cell : Int) : (a.start s).value cell =
    if 0 < a.count [.none] cell then 0
    else s.value cell + if cell = a.source then UInt8.ofInt a.value.amount else 0 := by
  rw [start, Store.value_zeroAll, Store.value_add]
  simp only [mem_plainCells]
  by_cases hplain : 0 < a.count [.none] cell
  · rw [if_pos hplain, if_pos hplain]
  · rw [if_neg hplain, if_neg hplain]
    by_cases hcell : cell = a.source
    · rw [if_pos hcell, if_pos hcell, hcell]
    · rw [if_neg hcell, if_neg hcell, UInt8.add_zero]

theorem value_passes (hmarks : ∀ i ∈ a.targets, i.mark ≠ .floor) (s : Store Int) (k : ℕ) (cell : Int) :
    (a.pass^[k] s).value cell =
      s.value cell + UInt8.ofInt (k * (a.net cell - if cell = a.source then 1 else 0)) := by
  have hpass : a.pass = fun s => s.addAll ((a.source, -1) :: Plan.steps (Plan.targets a.names a.targets)) := rfl
  rw [hpass, (Store.iterate_addAll s _ k).1 cell, Store.gainOf, gainOf_steps hmarks]
  have hgain : (if (a.source, (-1 : Int)).1 = cell then (a.source, (-1 : Int)).2 else 0) + a.net cell =
      a.net cell - if cell = a.source then 1 else 0 := by
    by_cases hcell : cell = a.source
    · rw [if_pos hcell.symm, if_pos hcell]
      omega
    · rw [if_neg (Ne.symm hcell), if_neg hcell]
      omega
  rw [hgain]

/-- **The code of an assignment in closed form**: it ends if some number of passes empties the source, after the least
such number of them. -/
theorem run_iff (hmarks : ∀ i ∈ a.targets, i.mark ≠ .floor) :
    (Plan.moveInto a.source (Generate.sortTargets (Plan.targets a.names a.targets))).Run head
        (s.add a.source a.value.amount) t ↔
      ∃ k, IsLeast {k : ℕ | (256 : Int) ∣ ((a.start s).value a.source).toNat + k * (a.net a.source - 1)} k ∧
        t = a.pass^[k] (a.start s) := by
  have hplaced : Plan.misplaced (Plan.targets a.names a.targets) = [] :=
    misplaced_eq_nil (Plan.diagnostics_moveInto a.source hmarks)
  have hends (k : ℕ) : ¬ (a.pass^[k] (a.start s)).value a.source ≠ 0 ↔
      (256 : Int) ∣ ((a.start s).value a.source).toNat + k * (a.net a.source - 1) := by
    rw [not_not, value_passes hmarks, if_pos rfl, add_ofInt_eq_zero_iff]
  rw [Plan.run_moveInto_perm (Plan.sortTargets_perm _) hplaced, Plan.run_moveInto hplaced]
  refine repeats_iff_least.trans ?_
  simp only [← hends]
  rfl

end Assignment

/-! ## The code on the machine -/

/-- A machine is at the start of a program. -/
structure Machine.Loaded (m : Machine) (text : String) : Prop where
  program : m.program = (TapeOp.program text).toArray
  partners : m.partners = (pairUp (TapeOp.program text)).2
  pc : m.pc = 0

/-- The cells of a machine as a store. -/
def Machine.store (m : Machine) : Store Int :=
  ⟨m.cellAt, m.input, m.output⟩

namespace Machine

variable {m : Machine} {head : Int}

theorem config_store (hhead : (m.pointer : Int) = head) : m.config = m.store.config m.tape.size head := by
  have htape : m.tape = Array.ofFn fun i : Fin m.tape.size => m.cellAt (i.val : Int) := by
    refine Array.ext (by simp) ?_
    intro i hi _
    simp [cellAt]
  have hpointer : m.pointer = head.toNat := by omega
  rw [config, Store.config, ← hpointer]
  exact congrArg (Config.mk · m.pointer m.input m.output) htape

/-- A program that spells a tree starts as that tree. -/
theorem Loaded.starts {text : String} {b : LoopTree} (h : m.Loaded text) (hops : b.ops = TapeOp.program text)
    (hm : m.config.OnTape) : m.Starts b := by
  obtain ⟨table, hpair, hlinked⟩ := pairUp_ops b
  refine ⟨by rw [h.program, hops], ?_, h.pc, hm⟩
  rw [h.partners, ← hops, hpair]
  exact hlinked

/-- A machine that holds the cells of a store. -/
theorem cellAt_of_config {s : Store Int} {size : ℕ} (h : m.config = s.config size head) :
    m.tape.size = size ∧ (∀ cell, InTape size cell → m.cellAt cell = s.value cell) ∧ m.pointer = head.toNat ∧
      m.input = s.input ∧ m.output = s.output := by
  obtain ⟨htape, hpointer, hinput, houtput⟩ := (Config.mk.injEq ..).mp h
  refine ⟨by rw [htape]; simp, ?_, hpointer, hinput, houtput⟩
  intro cell hcell
  obtain ⟨hlow, hhigh⟩ := hcell
  have hlt : cell.toNat < size := by omega
  rw [cellAt, htape]
  simp [hlt, Int.toNat_of_nonneg hlow]

/-- **A machine at the start of assembled code** runs it on its own cells. -/
theorem haltsIn_iff_code {code : CellCode} {comments : Bool} (hquiet : code.Quiet)
    (hwithin : code.Within m.tape.size) (htape : InTape m.tape.size head) (hhead : (m.pointer : Int) = head)
    (hloaded : m.Loaded (codeText (code.instructions comments head))) :
    m.Starts (code.tree head) ∧ ∀ t, (∃ m', m.HaltsIn m' ∧ m'.config = t) ↔
      ∃ u, code.Run head m.store u ∧ t = u.config m.tape.size (code.headAfter head) := by
  have hops : (code.tree head).ops = TapeOp.program (codeText (code.instructions comments head)) :=
    CellCode.ops_tree comments head hquiet
  have honTape : m.pointer < m.tape.size := by
    obtain ⟨-, hlt⟩ := htape
    omega
  have hstarts : m.Starts (code.tree head) := hloaded.starts hops honTape
  refine ⟨hstarts, ?_⟩
  intro t
  rw [haltsIn_iff_run hstarts, config_store hhead, CellCode.run_tree htape hwithin hquiet]

end Machine

namespace Assignment

/-- A generator knows the names of an assignment, and a tape of some size has the cells that it works on. -/
structure Fits (a : Assignment) (g : Generator) (size : ℕ) : Prop where
  names : a.names = g.resolver
  sourceCell : g.sourceCell? a.value = some a.source
  targets : ∀ i ∈ a.targets, ∃ cell, a.names.lookup? i.name = some cell ∧ InTape size cell
  marks : ∀ i ∈ a.targets, i.mark ≠ .floor
  source : InTape size a.source
  head : InTape size g.assembler.position

variable {a : Assignment} {m m' : Machine}

/-- The code of an assignment, with its meaning. -/
theorem Fits.exists_code {g : Generator} {size : ℕ} (h : a.Fits g size) :
    ∃ code r', Plan.assign a.targets a.value a.names = .ok (code, r') ∧ code.diagnostics = [] ∧ code.Within size ∧
      ∀ head s t, code.Run head s t ↔
        ∃ k, IsLeast {k : ℕ | (256 : Int) ∣ ((a.start s).value a.source).toNat + k * (a.net a.source - 1)} k ∧
          t = a.pass^[k] (a.start s) := by
  have hnames : ∀ i ∈ a.targets, ∃ cell, g.resolver.lookup? i.name = some cell := by
    intro i hi
    obtain ⟨cell, hcell, -⟩ := h.targets i hi
    exact ⟨cell, h.names ▸ hcell⟩
  obtain ⟨before, r', hplan, hdiagnostics, hcells, hbefore⟩ := Plan.exists_assign h.sourceCell hnames
  rw [← h.names] at hplan
  refine ⟨_, r', hplan, ?_, ?_, ?_⟩
  · rw [CellCode.diagnostics_append, hdiagnostics, Plan.diagnostics_moveInto a.source h.marks]
    rfl
  · -- the cells are the source and the targets
    intro c hc
    rw [CellCode.cells_append, List.mem_append] at hc
    rcases hc with hc | hc
    · rw [hcells c hc]
      exact h.source
    · rcases Plan.mem_cells_moveInto hc with rfl | ⟨t, ht, rfl⟩
      · exact h.source
      · rw [(Plan.sortTargets_perm _).mem_iff] at ht
        obtain ⟨hmem, hlookup⟩ := Plan.lookup_of_mem_targets ht
        obtain ⟨cell, hcell, htape⟩ := h.targets t.2 hmem
        rw [hlookup] at hcell
        exact Option.some.inj hcell ▸ htape
  · -- the code before the loop fills the source and does nothing else
    intro head s t
    rw [CellCode.run_append]
    simp only [hbefore, exists_eq_left]
    exact run_iff h.marks

/-- The tape that is left after some passes. -/
theorem done_of_config (hmarks : ∀ i ∈ a.targets, i.mark ≠ .floor) (hsource : InTape m.tape.size a.source) {k : ℕ}
    (hempty : a.Empties m k) {head : Int} (h : m'.config = (a.pass^[k] (a.start m.store)).config m.tape.size head) :
    a.Done m k m' := by
  have hzeroed (cell : Int) : (a.start m.store).value cell = a.zeroed m cell := value_start m.store cell
  obtain ⟨hsize, hcells, -, hinput, houtput⟩ := Machine.cellAt_of_config h
  obtain ⟨-, hinputs, houtputs⟩ := Store.iterate_addAll (a.start m.store)
    ((a.source, -1) :: Plan.steps (Plan.targets a.names a.targets)) k
  have hothers (cell : Int) (hcell : InTape m.tape.size cell) (hne : cell ≠ a.source) :
      m'.cellAt cell = a.zeroed m cell + UInt8.ofInt (k * a.net cell) := by
    rw [hcells cell hcell, value_passes hmarks, hzeroed, if_neg hne, Int.sub_zero]
  refine ⟨hsize, ?_, hothers, ?_, ?_, ?_⟩
  · rw [hcells _ hsource, value_passes hmarks, hzeroed, if_pos rfl, add_ofInt_eq_zero_iff]
    exact hempty
  · intro cell hcell hne hfree
    have hnet : a.net cell = 0 := by
      rw [net, count_eq_zero hfree, count_eq_zero hfree]
      rfl
    rw [hothers cell hcell hne, hnet, zeroed, count_eq_zero hfree, if_neg (Nat.lt_irrefl 0), if_neg hne,
      Int.mul_zero, UInt8.add_zero]
    exact UInt8.add_zero _
  · exact hinput.trans (hinputs.trans (Store.input_zeroAll _ _))
  · exact houtput.trans (houtputs.trans (Store.output_zeroAll _ _))

/-- A source that is no target is emptied in as many passes as it has units. -/
theorem isLeast_empties (hfree : ∀ i ∈ a.targets, a.names.lookup? i.name ≠ some a.source) :
    IsLeast {k | a.Empties m k} (a.zeroed m a.source).toNat := by
  have hnet : a.net a.source = 0 := by
    rw [net, count_eq_zero hfree, count_eq_zero hfree]
    rfl
  have hbyte := (a.zeroed m a.source).toNat_lt
  constructor
  · show (256 : Int) ∣ _
    rw [hnet]
    omega
  · intro k hk
    have hdvd : (256 : Int) ∣ (a.zeroed m a.source).toNat + k * (a.net a.source - 1) := hk
    rw [hnet] at hdvd
    omega

end Assignment

/-- The generator emits what is planned for an assignment. -/
theorem Generate.assign_of_plan {g : Generator} {targets : List Ident} {value : Operand} {code : CellCode}
    {r : Resolver} (h : Plan.assign targets value g.resolver = .ok (code, r)) :
    Generate.statement (.assign targets value) g = .ok () ⟨r, g.assembler.assemble code⟩ := by
  rw [Generate.statement]
  obtain ⟨code', r', hplan, hassign, -⟩ | ⟨e, g', hplan, -⟩ :=
    Generate.assign_follows targets value g.resolver g.assembler
  · rw [h] at hplan
    obtain ⟨rfl, rfl⟩ := Prod.mk.inj (Except.ok.inj hplan)
    exact hassign
  · rw [h] at hplan
    cases hplan

/-- **An assignment in closed form.** The assignment is compiled, and its code is run from any tape. If some number of
passes makes the source zero, then the run ends after the least such number `k`: the source is zero, every other cell
has gained `k` times what its targets demand, counted from zero if one of them has no mark, and all else is as it was.
If there is no such number, then the run goes on for ever. A source that is no target is moved as it is. -/
theorem assignment_closed_form {a : Assignment} {g : Generator} {size : ℕ} (h : a.Fits g size) :
    ∃ g' code, Generate.statement (.assign a.targets a.value) g = .ok () g' ∧
      g'.instructions = g.instructions ++ code ∧
      ∀ m : Machine, m.Loaded (codeText code) → m.tape.size = size → (m.pointer : Int) = g.assembler.position →
        (∀ k, IsLeast {k | a.Empties m k} k →
          ∃ m', m.HaltsIn m' ∧ a.Done m k m' ∧ (m'.pointer : Int) = g'.assembler.position) ∧
        ((∀ k, ¬ a.Empties m k) → ∀ n, (m.after n).step.1 = .ok () ∧ (m.after n).finished = false) ∧
        ((∀ i ∈ a.targets, a.names.lookup? i.name ≠ some a.source) →
          ∃ m', m.HaltsIn m' ∧ a.Done m (a.zeroed m a.source).toNat m') := by
  obtain ⟨code, r', hplan, hdiagnostics, hwithin, hrun⟩ := h.exists_code
  rw [h.names] at hplan
  have hquiet := CellCode.quiet_of_nil hdiagnostics
  refine ⟨_, code.instructions g.assembler.comments g.assembler.position, Generate.assign_of_plan hplan, ?_, ?_⟩
  · simp [Generator.instructions, Assembler.assemble]
  intro m hloaded hsize hhead
  subst hsize
  obtain ⟨hstarts, hhalts⟩ := Machine.haltsIn_iff_code hquiet hwithin h.head hhead hloaded
  have hzeroed : (a.start m.store).value a.source = a.zeroed m a.source := Assignment.value_start m.store a.source
  -- what the machine does is what the code does to the cells
  have hends (k : ℕ) (hk : IsLeast {k | a.Empties m k} k) : ∃ m', m.HaltsIn m' ∧ a.Done m k m' ∧
      (m'.pointer : Int) = (g.assembler.assemble code).position := by
    have hcode := (hrun g.assembler.position m.store _).2 ⟨k, by rw [hzeroed]; exact hk, rfl⟩
    obtain ⟨m', hm', hconfig⟩ := (hhalts _).2 ⟨_, hcode, rfl⟩
    have hpointer : m'.pointer = (code.headAfter g.assembler.position).toNat := congrArg Config.pointer hconfig
    obtain ⟨hlow, -⟩ := CellCode.inTape_headAfter h.head hwithin
    refine ⟨m', hm', Assignment.done_of_config h.marks h.source hk.1 hconfig, ?_⟩
    rw [hpointer]
    exact Int.toNat_of_nonneg hlow
  refine ⟨hends, ?_, ?_⟩
  · intro hnever n
    refine ⟨Machine.step_after_ok hstarts n, ?_⟩
    by_contra hfinished
    have hm' := (Machine.haltsIn_iff_after hstarts (m.after n)).2 ⟨by simpa using hfinished, n, rfl⟩
    obtain ⟨u, hcode, -⟩ := (hhalts _).1 ⟨_, hm', rfl⟩
    obtain ⟨k, hk, -⟩ := (hrun _ _ _).1 hcode
    rw [hzeroed] at hk
    exact hnever k hk.1
  · intro hfree
    obtain ⟨m', hm', hdone, -⟩ := hends _ (Assignment.isLeast_empties hfree)
    exact ⟨m', hm', hdone⟩

instance (size : ℕ) (cell : Int) : Decidable (InTape size cell) :=
  inferInstanceAs (Decidable (_ ∧ _))

/-- A machine at the start of a program, with some tape. -/
def Machine.starting (text : String) (tape : Array UInt8) (pointer : ℕ) : Machine :=
  { blank tape.size with
    tape, pointer, program := (TapeOp.program text).toArray, partners := (pairUp (TapeOp.program text)).2 }

/-- Two variables on a tape of four cells. -/
def twoNames : Generator :=
  ⟨⟨4, ⟨[true, true, false, false]⟩, ⟨[⟨some "$a", 0⟩, ⟨some "$b", 1⟩], []⟩⟩, { Assembler.new false with position := 1 }⟩

/-- `+$a, +$a, -$b = $a`: every pass takes a unit from `$a` and gives it two. -/
def doublingAssignment : Assignment :=
  ⟨twoNames.resolver, [⟨.plus, "$a"⟩, ⟨.plus, "$a"⟩, ⟨.minus, "$b"⟩], .ident ⟨.none, "$a"⟩, 0⟩

/-- `+$a = $a`: every pass gives back the unit that it takes. -/
def idleAssignment : Assignment :=
  ⟨twoNames.resolver, [⟨.plus, "$a"⟩], .ident ⟨.none, "$a"⟩, 0⟩

/-- From 3, `$a` comes to zero by growing to 256 in 253 passes; but not if it does not change. -/
theorem assignment_closed_form_self : doublingAssignment.Fits twoNames 4 ∧ idleAssignment.Fits twoNames 4 ∧
    (∃ g' code m', Generate.statement (.assign doublingAssignment.targets doublingAssignment.value) twoNames = .ok () g' ∧
      g'.instructions = twoNames.instructions ++ code ∧
      (Machine.starting (codeText code) #[3, 10, 7, 0] 1).HaltsIn m' ∧
      m'.cellAt 0 = 0 ∧ m'.cellAt 1 = 13 ∧ m'.cellAt 2 = 7) ∧
    ∃ g' code, Generate.statement (.assign idleAssignment.targets idleAssignment.value) twoNames = .ok () g' ∧
      g'.instructions = twoNames.instructions ++ code ∧
      ∀ n, ((Machine.starting (codeText code) #[3, 10, 7, 0] 1).after n).finished = false := by
  have hcells : twoNames.resolver.lookup? "$a" = some 0 ∧ twoNames.resolver.lookup? "$b" = some 1 := by decide
  have hdoubling : doublingAssignment.Fits twoNames 4 := by
    refine ⟨rfl, hcells.1, ?_, by decide, by decide, by decide⟩
    intro i hi
    simp only [doublingAssignment, List.mem_cons, List.not_mem_nil, or_false] at hi
    rcases hi with rfl | rfl | rfl
    · exact ⟨0, hcells.1, by decide⟩
    · exact ⟨0, hcells.1, by decide⟩
    · exact ⟨1, hcells.2, by decide⟩
  have hidle : idleAssignment.Fits twoNames 4 := by
    refine ⟨rfl, hcells.1, ?_, by decide, by decide, by decide⟩
    intro i hi
    rw [List.mem_singleton.1 hi]
    exact ⟨0, hcells.1, by decide⟩
  obtain ⟨g₁, code₁, hcompile₁, hcode₁, hrun₁⟩ := assignment_closed_form hdoubling
  obtain ⟨g₂, code₂, hcompile₂, hcode₂, hrun₂⟩ := assignment_closed_form hidle
  obtain ⟨hends, -, -⟩ := hrun₁ (.starting (codeText code₁) #[3, 10, 7, 0] 1) ⟨rfl, rfl, rfl⟩ rfl rfl
  obtain ⟨-, hnever, -⟩ := hrun₂ (.starting (codeText code₂) #[3, 10, 7, 0] 1) ⟨rfl, rfl, rfl⟩ rfl rfl
  have hempties₁ (k : ℕ) : doublingAssignment.Empties (.starting (codeText code₁) #[3, 10, 7, 0] 1) k ↔
      (256 : Int) ∣ 3 + k * (2 - 1) := Iff.rfl
  have hempties₂ (k : ℕ) : idleAssignment.Empties (.starting (codeText code₂) #[3, 10, 7, 0] 1) k ↔
      (256 : Int) ∣ 3 + k * (1 - 1) := Iff.rfl
  refine ⟨hdoubling, hidle, ?_, g₂, code₂, hcompile₂, hcode₂, fun n => (hnever ?_ n).2⟩
  · obtain ⟨m', hm', hdone, -⟩ := hends 253 ⟨(hempties₁ 253).2 (by decide), fun k hk => by
      have hdvd := (hempties₁ k).1 hk
      omega⟩
    refine ⟨g₁, code₁, m', hcompile₁, hcode₁, hm', hdone.source, ?_, ?_⟩
    · exact hdone.others 1 (show InTape 4 1 by decide) (by decide)
    · exact hdone.untouched 2 (show InTape 4 2 by decide) (by decide) (by decide)
  · intro k hk
    have hdvd := (hempties₂ k).1 hk
    omega

end TapeCompiler
