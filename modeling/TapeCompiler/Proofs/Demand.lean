import TapeCompiler.Proofs.Checker
import TapeCompiler.Proofs.TapeLength

/-!
# How many cells a program needs

Which cells are taken at a place in a program is irregular: temporaries leave holes, and the variables of a block
keep their cells for ever. How many are taken can be counted without any cells.

* `Usage`, `Usage.statements`: a walk through a program that counts the cells in use.
* `demand`: the most cells that a program uses at once.
* `Plan.statements_foretold`: **planning fails exactly where the walk exceeds the tape.**
* `generate_demand`: **a tape is too short exactly if the demand exceeds it; all other tapes give the same code, of
  which a tape that is too short gives the first part.**
-/

namespace TapeCompiler

/-! ## Counting -/

/-- What a walk through a program has come to: the names that are declared, the number of variables, whose cells
are kept also when their blocks are left, and the most cells that were in use at once. -/
structure Usage where
  names : Checker.Names
  kept : ℕ
  peak : ℕ
  deriving DecidableEq

namespace Usage

/-- Nothing is in use. -/
def start : Usage :=
  ⟨.empty, 0, 0⟩

/-- So many cells are in use for a moment. -/
def need (u : Usage) (cells : ℕ) : Usage :=
  { u with peak := max u.peak cells }

/-- A variable is declared while temporaries are held. -/
def keep (held : ℕ) (u : Usage) (name : String) : Usage :=
  ⟨u.names.add name, u.kept + 1, max u.peak (u.kept + held + 1)⟩

/-- Declares names; one that the innermost block has already needs no cell. -/
def declare (held : ℕ) : List Ident → Usage → Usage
  | [], u => u
  | i :: is, u => if i.name ∈ u.names.inner then declare held is u else declare held is (u.keep held i.name)

/-- A block has names of its own. -/
def block (body : Usage → Usage) (u : Usage) : Usage :=
  { body { u with names := u.names.enter } with names := u.names }

mutual

/-- Walks through a statement while temporaries are held. A literal is built in a temporary. A branch copies its
subject with two temporaries and holds one of them, and a loop or a branch whose subject is not declared holds
one. Functions are skipped. -/
def statement (held : ℕ) : Stmt → Usage → Usage
  | .declare names, u => declare held names u
  | .assign _ (.literal _), u => u.need (u.kept + held + 1)
  | .branch subject body, u =>
    if u.names.Visible subject.name then block (statements (held + 1) body) (u.need (u.kept + held + 2))
    else block (statements (held + 1) body) (u.need (u.kept + held + 1))
  | .loop subject body, u =>
    if u.names.Visible subject.name then block (statements held body) u
    else block (statements (held + 1) body) (u.need (u.kept + held + 1))
  | .wrap inner, u => statement held inner u
  | .assign _ (.ident _), u | .print _, u | .read _, u | .define _ _ _, u | .call _ _, u | .bare _, u
  | .invalid _, u => u

/-- Walks through statements while temporaries are held. -/
def statements (held : ℕ) : List Stmt → Usage → Usage
  | [], u => u
  | s :: ss, u => statements held ss (statement held s u)

end

end Usage

/-- The most cells that a program uses at once. -/
def demand (program : List Stmt) : ℕ :=
  (Usage.statements 0 program .start).peak

namespace Usage

theorem peak_le_declare (held : ℕ) (is : List Ident) (u : Usage) : u.peak ≤ (declare held is u).peak := by
  induction is generalizing u with
  | nil => exact le_rfl
  | cons i is ih =>
    rw [declare]
    split_ifs
    · exact ih u
    · have hkeep : u.peak ≤ (u.keep held i.name).peak := le_max_left _ _
      exact hkeep.trans (ih _)

section

variable {body : Usage → Usage} (hbody : ∀ u, u.peak ≤ (body u).peak)

include hbody

theorem peak_le_block (u : Usage) : u.peak ≤ (block body u).peak :=
  hbody { u with names := u.names.enter }

theorem need_le_block (u : Usage) (cells : ℕ) : cells ≤ (block body (u.need cells)).peak :=
  (le_max_right u.peak cells).trans (peak_le_block hbody (u.need cells))

theorem peak_le_block_need (u : Usage) (cells : ℕ) : u.peak ≤ (block body (u.need cells)).peak :=
  (le_max_left u.peak cells).trans (peak_le_block hbody (u.need cells))

end

mutual

theorem peak_le_statement : ∀ (held : ℕ) (s : Stmt) (u : Usage), u.peak ≤ (statement held s u).peak
  | held, .declare names, u => peak_le_declare held names u
  | held, .assign _ (.literal _), u => le_max_left _ _
  | held, .branch subject body, u => by
    rw [statement]
    split_ifs <;> exact peak_le_block_need (peak_le_statements (held + 1) body) u _
  | held, .loop subject body, u => by
    rw [statement]
    split_ifs
    · exact peak_le_block (peak_le_statements held body) u
    · exact peak_le_block_need (peak_le_statements (held + 1) body) u _
  | held, .wrap inner, u => peak_le_statement held inner u
  | _, .assign _ (.ident _), _ | _, .print _, _ | _, .read _, _ | _, .define _ _ _, _ | _, .call _ _, _
  | _, .bare _, _ | _, .invalid _, _ => le_rfl

/-- What was in use at once is not forgotten. -/
theorem peak_le_statements : ∀ (held : ℕ) (ss : List Stmt) (u : Usage), u.peak ≤ (statements held ss u).peak
  | _, [], _ => le_rfl
  | held, s :: ss, u => (peak_le_statement held s u).trans (peak_le_statements held ss _)

end

end Usage

/-! ## Counting and planning -/

/-- A cell can be taken as long as not all of them are. -/
theorem Occupancy.allocate_cases (o : Occupancy) :
    (∃ cell o', o.allocate = .ok (cell, o') ∧ o.used < o.size) ∨
      o.allocate = .error (.exhausted o.size) ∧ o.used = o.size := by
  unfold allocate
  cases hfree : o.lowestFree? with
  | some i =>
    obtain ⟨hi, hfalse, -⟩ := List.findIdx?_eq_some_iff_getElem.1 hfree
    -- were all cells taken, the free one would be
    refine .inl ⟨i, _, rfl, lt_of_le_of_ne List.count_le_length fun hall => ?_⟩
    have htrue := List.count_eq_length.1 hall _ (List.getElem_mem hi)
    simp [← htrue] at hfalse
  | none =>
    refine .inr ⟨rfl, List.count_eq_length.2 fun b hb => ?_⟩
    have htrue : b = true := by simpa using List.findIdx?_eq_none_iff.1 hfree b hb
    exact htrue.symm

/-- A name is taken already, or it gets a cell, or all cells are taken. -/
theorem Resolver.define_cases (r : Resolver) (name : Option String) :
    (∃ cell r', r.define name = .ok (cell, r') ∧ r'.memory.used = r.memory.used + 1 ∧
      r.memory.used < r.memory.size) ∨
    (∃ other, r.define name = .error (.alreadyDefined other) ∧ r.scope.isTaken name = true) ∨
    (∃ size, r.define name = .error (.exhausted size) ∧ r.scope.isTaken name = false ∧
      r.memory.used = r.memory.size) := by
  cases htaken : r.scope.isTaken name with
  | true => exact .inr (.inl ⟨_, by rw [define, if_pos htaken], rfl⟩)
  | false =>
    obtain ⟨cell, memory, hm, hlt⟩ | ⟨hm, hfull⟩ := r.memory.allocate_cases
    · refine .inl ⟨cell, { r with memory, scope := r.scope.bind ⟨name, cell⟩ }, ?_, Occupancy.used_allocate hm, hlt⟩
      simp [define, htaken, hm, bind, Except.bind, pure, Except.pure]
    · refine .inr (.inr ⟨r.memory.size, ?_, rfl, hfull⟩)
      simp [define, htaken, hm, bind, Except.bind]

namespace Usage

variable {held size : ℕ} {u : Usage} {r r' : Resolver}

/-- The walk knows which names a resolver binds and how many cells it has taken, with the temporaries that are
held, and there have always been enough. -/
structure Tracks (held : ℕ) (u : Usage) (r : Resolver) : Prop where
  valid : r.Valid
  names : r.scope.names = u.names
  used : r.memory.used = u.kept + held
  fits : u.peak ≤ r.memory.size

theorem tracks_ofSize {n : ℕ} (h : Resolver.ofSize n = .ok r) : r.memory.size = n ∧ Tracks 0 start r := by
  obtain ⟨hvalid, -, hsize, hscope, -⟩ := Resolver.valid_ofSize h
  exact ⟨by simpa using hsize, hvalid, by rw [hscope]; rfl, Resolver.used_ofSize h, Nat.zero_le _⟩

namespace Tracks

theorem need {cells : ℕ} (h : Tracks held u r) (hcells : cells ≤ r.memory.size) : Tracks held (u.need cells) r :=
  ⟨h.valid, h.names, h.used, max_le h.fits hcells⟩

theorem enter (h : Tracks held u r) : Tracks held { u with names := u.names.enter } r.enter :=
  ⟨h.valid.enter, congrArg Checker.Names.enter h.names, h.used, h.fits⟩

theorem visible {name : String} {cell : Int} (h : Tracks held u r) (hl : r.lookup? name = some cell) :
    u.names.Visible name := by
  rw [← h.names, ← Resolver.isSome_lookup?, hl]
  rfl

theorem not_visible {name : String} (h : Tracks held u r) (hl : r.lookup? name = none) :
    ¬ u.names.Visible name := by
  rw [← h.names, ← Resolver.isSome_lookup?, hl]
  simp

/-- A temporary is taken unless all cells are in use. -/
theorem temporary (h : Tracks held u r) :
    (∃ cell r', r.define none = .ok (cell, r') ∧ r'.memory.size = r.memory.size ∧ Tracks (held + 1) u r' ∧
      u.kept + held + 1 ≤ r.memory.size) ∨
    ∃ e, r.define none = .error e ∧ r.memory.size < u.kept + held + 1 := by
  have hused := h.used
  obtain ⟨cell, r', hd, hmore, hlt⟩ | ⟨_, _, htaken⟩ | ⟨size, hd, -, hfull⟩ := r.define_cases none
  · have hdef := Resolver.extends_define h.valid hd
    have hnames := (Resolver.names_define_none hd).trans h.names
    exact .inl ⟨cell, r', hd, hdef.size, ⟨hdef.valid, hnames, by omega, hdef.size ▸ h.fits⟩, by omega⟩
  · cases htaken
  · exact .inr ⟨_, hd, by omega⟩

/-- A variable takes a cell unless its name is taken or all cells are in use. -/
theorem declared (h : Tracks held u r) (name : String) :
    (∃ cell r', r.define (some name) = .ok (cell, r') ∧ name ∉ u.names.inner ∧ r'.memory.size = r.memory.size ∧
      Tracks held (u.keep held name) r') ∨
    (∃ other, r.define (some name) = .error (.alreadyDefined other) ∧ name ∈ u.names.inner) ∨
    ∃ size, r.define (some name) = .error (.exhausted size) ∧ name ∉ u.names.inner ∧
      r.memory.size < u.kept + held + 1 := by
  have hused := h.used
  have htaken : r.scope.isTaken (some name) = true ↔ name ∈ u.names.inner := by rw [Scope.isTaken_some, h.names]
  obtain ⟨cell, r', hd, hmore, hlt⟩ | ⟨other, hd, hold⟩ | ⟨size, hd, hnew, hfull⟩ := r.define_cases (some name)
  · have hdef := Resolver.extends_define h.valid hd
    obtain ⟨hnew, hnames⟩ := Resolver.names_define_some hd
    rw [h.names] at hnew hnames
    have hkept : r'.memory.used = u.kept + 1 + held := by omega
    have hpeak : max u.peak (u.kept + held + 1) ≤ r'.memory.size := by
      rw [hdef.size]
      exact max_le h.fits (by omega)
    exact .inl ⟨cell, r', hd, hnew, hdef.size, hdef.valid, hnames, hkept, hpeak⟩
  · exact .inr (.inl ⟨other, hd, htaken.1 hold⟩)
  · exact .inr (.inr ⟨size, hd, by simp [← htaken, hnew], by omega⟩)

theorem release {cell : Int} (h : Tracks (held + 1) u r) (hr : r.release cell = .ok r') :
    r'.memory.size = r.memory.size ∧ Tracks held u r' := by
  have hvalid := h.valid.release hr
  have hnames := Resolver.names_release hr
  have hused := h.used
  obtain ⟨hmem, rfl⟩ := Resolver.release_ok hr
  have htaken : r.memory.Taken cell := h.valid.taken ⟨none, cell⟩ (by simp [Scope.frames, hmem])
  have hless := Occupancy.used_clear htaken
  have hsize := (Occupancy.taken_clear htaken).1
  have hheld : (r.memory.clear cell).used = u.kept + held := by omega
  exact ⟨hsize, hvalid, hnames.trans h.names, hheld, hsize.symm ▸ h.fits⟩

end Tracks

/-- What a walk tells about a plan on a tape of so many cells: where there is one, the walk knows what it leaves,
and otherwise the walk has exceeded the tape. -/
def Foretells (size held : ℕ) (u : Usage) : Except Fault (CellCode × Resolver) → Prop
  | .ok (_, r) => r.memory.size = size ∧ Tracks held u r
  | .error _ => size < u.peak

namespace Foretells

variable {α : Type} {x : Except Fault α} {f : α → Except Fault (CellCode × Resolver)}

theorem bind_ok {v : α} (hx : x = .ok v) (h : Foretells size held u (f v)) : Foretells size held u (x >>= f) := by
  rw [hx]
  exact h

theorem bind_error {e : Fault} (hx : x = .error e) (h : size < u.peak) : Foretells size held u (x >>= f) := by
  rw [hx]
  exact h

/-- The code of a plan does not matter. -/
theorem map_code {p : Except Fault (CellCode × Resolver)} (h : Foretells size held u p) (code : CellCode → CellCode) :
    Foretells size held u (p >>= fun v => pure (code v.1, v.2)) := by
  cases p with
  | ok v => exact h
  | error e => exact h

end Foretells

end Usage

namespace Plan

open Usage

variable {held : ℕ} {u : Usage} {r : Resolver}

theorem declare_foretold (is : List Ident) (h : Tracks held u r) :
    Foretells r.memory.size held (Usage.declare held is u) (declare is r) := by
  induction is generalizing u r with
  | nil => exact ⟨rfl, h⟩
  | cons i is ih =>
    rw [declare, Usage.declare]
    obtain ⟨cell, r₁, hd, hnew, hsize, htracks⟩ | ⟨other, hd, hmem⟩ | ⟨size, hd, hnew, hfull⟩ := h.declared i.name
    · have hrest := ih htracks
      simp only [hd, if_neg hnew]
      rw [hsize] at hrest
      exact hrest.map_code fun code => .op (.declared cell) code
    · simp only [hd, if_pos hmem]
      exact (ih h).map_code fun code => .op (.mark ⟨.redefined, .ident i⟩) code
    · have hkeep : u.kept + held + 1 ≤ (u.keep held i.name).peak := le_max_right _ _
      simp only [hd, if_neg hnew]
      exact (hfull.trans_le hkeep).trans_le (peak_le_declare held is _)

theorem assign_foretold (ts : List Ident) (value : Operand) (h : Tracks held u r) :
    Foretells r.memory.size held (Usage.statement held (.assign ts value) u) (assign ts value r) := by
  cases value with
  | ident i => exact ⟨rfl, h⟩
  | literal n =>
    rw [Usage.statement]
    obtain ⟨source, r₁, hd, hsize, htracks, henough⟩ | ⟨e, hd, hfull⟩ := h.temporary
    · obtain ⟨r₂, hr⟩ := Resolver.exists_release h.valid hd (.refl htracks.valid)
      obtain ⟨hsize', htracks'⟩ := htracks.release hr
      have hsame : r₂.memory.size = r.memory.size := hsize'.trans hsize
      exact .bind_ok hd (.bind_ok hr ⟨hsame, htracks'.need (hsame ▸ henough)⟩)
    · exact .bind_error hd (hfull.trans_le (le_max_right _ _))

section

variable {subject : Ident} {body : Resolver → Except Fault (CellCode × Resolver)} (walk : ℕ → Usage → Usage)
  (hplaced : ∀ {r code r'}, r.Valid → body r = .ok (code, r') → ∃ bs, Placed r bs code r')
  (hbody : ∀ {held u r}, Tracks held u r → Foretells r.memory.size held (walk held u) (body r))

include hplaced hbody

theorem block_foretold (h : Tracks held u r) :
    Foretells r.memory.size held (Usage.block (walk held) u) (block body r) := by
  have hinner := hbody h.enter
  cases hb : body r.enter with
  | error e =>
    rw [hb] at hinner
    exact .bind_error hb hinner
  | ok v =>
    obtain ⟨code, r₁⟩ := v
    rw [hb] at hinner
    obtain ⟨-, htracks⟩ := hinner
    obtain ⟨bs, hp⟩ := hplaced h.valid.enter hb
    obtain ⟨r₂, hx⟩ := Resolver.exists_exit hp.toExtends
    -- the names are those before the block again, while its cells stay taken
    have hback := hp.toExtends.exit hx h.valid
    have hnames : r₂.scope.names = u.names := by
      rw [hback.scope, List.append_nil]
      exact h.names
    have hmemory : r₂.memory = r₁.memory := by
      obtain ⟨-, -, -, rfl⟩ := Resolver.exit_ok hx
      rfl
    refine .bind_ok hb (.bind_ok hx ⟨hback.size, hback.valid, hnames, ?_, ?_⟩)
    · rw [hmemory]
      exact htracks.used
    · rw [hmemory]
      exact htracks.fits

/-- A block while a temporary is held, which is given back behind it. -/
theorem held_foretold {r₁ r₂ : Resolver} {cell : ℕ} (hr : r.Valid) (hd : r.define none = .ok (cell, r₁))
    (hsame : r₁.Extends [] [] r₂) (h : Tracks (held + 1) u r₂) (code : CellCode → CellCode) :
    Foretells r.memory.size held (Usage.block (walk (held + 1)) u) (do
      let (inner, r₃) ← block body r₂
      let r₄ ← r₃.release cell
      return (code inner, r₄)) := by
  have hdef := Resolver.extends_define hr hd
  have hsize : r₂.memory.size = r.memory.size := hsame.size.trans hdef.size
  have hinner := block_foretold walk hplaced hbody h
  rw [hsize] at hinner
  cases hb : block body r₂ with
  | error e =>
    rw [hb] at hinner
    exact .bind_error rfl hinner
  | ok v =>
    obtain ⟨inner, r₃⟩ := v
    rw [hb] at hinner
    obtain ⟨hsize', htracks⟩ := hinner
    have hp := block_placed hsame.valid hplaced hb
    obtain ⟨r₄, hrel⟩ := Resolver.exists_release hr hd (hsame.trans hp.toExtends)
    obtain ⟨hsize'', htracks'⟩ := htracks.release hrel
    exact .bind_ok rfl (.bind_ok hrel ⟨hsize''.trans hsize', htracks'⟩)

variable (hpeak : ∀ held u, u.peak ≤ (walk held u).peak)

include hpeak

/-- A block that hangs on a temporary. -/
theorem guarded_foretold (h : Tracks held u r) (code : ℕ → CellCode → CellCode) :
    Foretells r.memory.size held (Usage.block (walk (held + 1)) (u.need (u.kept + held + 1))) (do
      let (guard, r₁) ← r.define none
      let (inner, r₂) ← block body r₁
      let r₃ ← r₂.release guard
      return (code guard inner, r₃)) := by
  obtain ⟨guard, r₁, hd, hsize, htracks, henough⟩ | ⟨e, hd, hfull⟩ := h.temporary
  · have hheld := htracks.need (hsize ▸ henough)
    exact .bind_ok hd (held_foretold walk hplaced hbody h.valid hd (.refl htracks.valid) hheld (code guard))
  · exact .bind_error hd (hfull.trans_le (need_le_block (hpeak (held + 1)) u _))

theorem loop_foretold (h : Tracks held u r) :
    Foretells r.memory.size held
      (if u.names.Visible subject.name then Usage.block (walk held) u
        else Usage.block (walk (held + 1)) (u.need (u.kept + held + 1)))
      (loop subject body r) := by
  unfold loop
  cases hl : r.lookup? subject.name with
  | some cell =>
    rw [if_pos (h.visible hl)]
    exact (block_foretold walk hplaced hbody h).map_code fun inner =>
      .loop .many cell (inner ++ applyMark subject cell) .empty
  | none =>
    rw [if_neg (h.not_visible hl)]
    exact guarded_foretold walk hplaced hbody hpeak h
      fun guard inner => .ofOps (report r subject) ++ .loop .many guard inner .empty

theorem branch_foretold (h : Tracks held u r) :
    Foretells r.memory.size held
      (if u.names.Visible subject.name then Usage.block (walk (held + 1)) (u.need (u.kept + held + 2))
        else Usage.block (walk (held + 1)) (u.need (u.kept + held + 1)))
      (branch subject body r) := by
  unfold branch
  cases hl : r.lookup? subject.name with
  | some cell =>
    rw [if_pos (h.visible hl)]
    -- flag and scratch are counted at once, so the tape is exceeded whichever of them finds no cell
    have hexceeded (hfull : r.memory.size < u.kept + held + 2) :
        r.memory.size < (Usage.block (walk (held + 1)) (u.need (u.kept + held + 2))).peak :=
      hfull.trans_le (need_le_block (hpeak (held + 1)) u _)
    obtain ⟨flag, r₁, hf, hsize, htracks, -⟩ | ⟨e, hf, hfull⟩ := h.temporary
    · refine .bind_ok hf ?_
      obtain ⟨scratch, r₂, hs, hsize', htracks', henough⟩ | ⟨e, hs, hfull⟩ := htracks.temporary
      · obtain ⟨r₃, hrs⟩ := Resolver.exists_release htracks.valid hs (.refl htracks'.valid)
        obtain ⟨hsize'', htracks''⟩ := htracks'.release hrs
        have hsame := Resolver.extends_define_release htracks.valid hs hrs
        have hneed : u.kept + held + 2 ≤ r₃.memory.size := by omega
        exact .bind_ok hs (.bind_ok hrs (held_foretold walk hplaced hbody h.valid hf hsame (htracks''.need hneed)
          fun inner => copy cell flag scratch ++
            .loop .once flag (clear flag ++ inner ++ applyMark subject cell) .empty))
      · exact .bind_error hs (hexceeded (by omega))
    · exact .bind_error hf (hexceeded (by omega))
  | none =>
    rw [if_neg (h.not_visible hl)]
    exact guarded_foretold walk hplaced hbody hpeak h
      fun flag inner => .ofOps (report r subject) ++ .loop .once flag (clear flag ++ inner) .empty

end

mutual

theorem statement_foretold (s : Stmt) {held : ℕ} {u : Usage} {r : Resolver} (h : Tracks held u r) :
    Foretells r.memory.size held (Usage.statement held s u) (statement s r) := by
  match s with
  | .declare names =>
    rw [statement, Usage.statement]
    exact declare_foretold names h
  | .assign ts value =>
    rw [statement]
    exact assign_foretold ts value h
  | .branch subject body =>
    rw [statement, Usage.statement]
    exact branch_foretold (fun held => Usage.statements held body) (statements_placed body)
      (statements_foretold body) (fun held => peak_le_statements held body) h
  | .loop subject body =>
    rw [statement, Usage.statement]
    exact loop_foretold (fun held => Usage.statements held body) (statements_placed body)
      (statements_foretold body) (fun held => peak_le_statements held body) h
  | .wrap inner =>
    rw [statement, Usage.statement]
    exact statement_foretold inner h
  | .print _ | .read _ | .define _ _ _ | .call _ _ | .bare _ | .invalid _ =>
    rw [statement, Usage.statement]
    exact ⟨rfl, h⟩

/-- **Planning fails exactly where the walk exceeds the tape.** -/
theorem statements_foretold (ss : List Stmt) {held : ℕ} {u : Usage} {r : Resolver} (h : Tracks held u r) :
    Foretells r.memory.size held (Usage.statements held ss u) (statements ss r) := by
  match ss with
  | [] =>
    rw [statements, Usage.statements]
    exact ⟨rfl, h⟩
  | s :: ss =>
    rw [statements, Usage.statements]
    have hfirst := statement_foretold s h
    cases hs : statement s r with
    | error e =>
      rw [hs] at hfirst
      -- the walk goes on where the plan ends, and does not come below the tape again
      exact .bind_error rfl (Nat.lt_of_lt_of_le hfirst (peak_le_statements held ss _))
    | ok v =>
      obtain ⟨code, r₁⟩ := v
      rw [hs] at hfirst
      obtain ⟨hsize, htracks⟩ := hfirst
      have hrest := statements_foretold ss htracks
      rw [hsize] at hrest
      exact .bind_ok rfl (hrest.map_code fun rest => code ++ rest)

end

end Plan

/-- A program is planned on a tape exactly if its demand does not exceed the tape. -/
theorem plan_cases (program : List Stmt) {n : ℕ} (hn : 0 < n) :
    (∃ code, plan program n = .ok code ∧ demand program ≤ n) ∨
      plan program n = .error (.exhausted n) ∧ n < demand program := by
  obtain ⟨r, -, hr, -, -⟩ := Resolver.within_ofSize hn le_rfl
  obtain ⟨hsize, htracks⟩ := Usage.tracks_ofSize hr
  have hforetold := Plan.statements_foretold program htracks
  rw [hsize] at hforetold
  cases hp : Plan.statements program r with
  | ok v =>
    rw [hp] at hforetold
    obtain ⟨hsize', htracks'⟩ := hforetold
    have hfits := htracks'.fits
    rw [hsize'] at hfits
    exact .inl ⟨v.1, by simp [plan, hr, hp, bind, Except.bind, pure, Except.pure], hfits⟩
  | error e =>
    rw [hp] at hforetold
    have herror : plan program n = .error e := by simp [plan, hr, hp, bind, Except.bind]
    -- the walk tells that planning fails, and exhaustion is all that it can fail by
    obtain ⟨hneg, -⟩ | ⟨-, rfl⟩ := plan_error herror
    · omega
    · exact .inr ⟨by simpa using herror, hforetold⟩

/-- Generation fails exactly if the demand exceeds the tape. -/
theorem fault_generate (program : List Stmt) {n : ℕ} (hn : 0 < n) (comments : Bool) :
    (generate program n comments).2 = if n < demand program then some (.exhausted n) else none := by
  obtain ⟨code, hp, hfits⟩ | ⟨hp, hexceeds⟩ := plan_cases program hn <;>
    obtain ⟨code', hp', hg⟩ | ⟨e, hp', hg⟩ := generate_eq_plan program n comments <;> rw [hp] at hp' <;> cases hp'
  · rw [hg, if_neg (by omega)]
  · rw [hg, if_pos hexceeds]

/-- On a tape that is long enough a program gives what it gives on any longer one, and otherwise the first part of
it. -/
theorem generate_longer (program : List Stmt) (comments : Bool) {n m : ℕ} (hn : 0 < n) (h : n ≤ m) :
    generate program n comments = generate program m comments ∨
      (generate program n comments).2 ≠ none ∧
        (generate program n comments).1 <+: (generate program m comments).1 := by
  obtain ⟨r, r', hr, hr', hwithin⟩ := Resolver.within_ofSize hn h
  have hagree := (Generate.statements_widen program).agree (.new comments) hwithin
  -- what has been emitted is the same whether or not the assembler finishes
  have hinstructions {size : Int} {q : Resolver} (hq : Resolver.ofSize size = .ok q) :
      (generate program size comments).1 =
        (Generate.left (Generate.statements program ⟨q, .new comments⟩)).instructions := by
    simp only [generate, Generator.ofSize, hq, Except.map]
    cases Generate.statements program ⟨q, .new comments⟩ with
    | ok v g =>
      simp only [Generate.left]
      cases g.assembler.finish <;> rfl
    | error e g => rfl
  have hnarrow := hinstructions hr
  have hwide := hinstructions hr'
  generalize hs : Generate.statements program ⟨r, .new comments⟩ = narrow at hagree hnarrow
  generalize hs' : Generate.statements program ⟨r', .new comments⟩ = wide at hagree hwide
  cases hagree with
  | ok h =>
    left
    simp only [generate, Generator.ofSize, hr, hr', Except.map, hs, hs']
    rfl
  | short hshort =>
    right
    refine ⟨?_, by rw [hnarrow, hwide]; exact hshort⟩
    simp [generate, Generator.ofSize, hr, Except.map, hs]

/-- **How many cells a program needs, and what they are needed for.** Generation runs out of cells exactly on the
tapes that the demand exceeds. On all other tapes the instructions are the same. What is emitted before the cells
run out is the first part of them. -/
theorem generate_demand (program : List Stmt) (comments : Bool) :
    (∀ n : ℕ, 1 ≤ n →
      ((generate program n comments).2 = some (.exhausted n) ↔ n < demand program) ∧
      ((generate program n comments).2 = none ↔ demand program ≤ n)) ∧
    (∀ n m : ℕ, 1 ≤ n → 1 ≤ m → demand program ≤ n → demand program ≤ m →
      (generate program n comments).1 = (generate program m comments).1) ∧
    ∀ n m : ℕ, 1 ≤ n → n < demand program → demand program ≤ m →
      (generate program n comments).1 <+: (generate program m comments).1 := by
  have hsame {n m : ℕ} (hn : 1 ≤ n) (h : n ≤ m) (hfits : demand program ≤ n) :
      (generate program n comments).1 = (generate program m comments).1 := by
    obtain heq | ⟨hfault, -⟩ := generate_longer program comments hn h
    · rw [heq]
    · rw [fault_generate program hn, if_neg (by omega)] at hfault
      exact absurd rfl hfault
  refine ⟨fun n hn => ?_, fun n m hn hm hfits hfits' => ?_, fun n m hn hexceeds hfits => ?_⟩
  · rw [fault_generate program hn]
    split_ifs with hexceeds
    · simp [hexceeds]
    · simp [hexceeds, Nat.le_of_not_lt hexceeds]
  · rcases Nat.le_total n m with h | h
    · exact hsame hn h hfits
    · exact (hsame hm h hfits').symm
  · obtain heq | ⟨-, hprefix⟩ := generate_longer program comments hn (by omega : n ≤ m)
    · rw [heq]
    · exact hprefix

/-- A branch whose variable outlives its flag, so that there is a hole behind it, a loop on a name that is not
declared, and a name that is declared twice. -/
def holedProgram : List Stmt :=
  [.declare [⟨.none, "$a"⟩],
    .branch ⟨.none, "$a"⟩ [.declare [⟨.none, "$b"⟩], .assign [⟨.none, "$b"⟩] (.literal 1)],
    .loop ⟨.minus, "$u"⟩ [.declare [⟨.none, "$c"⟩]], .declare [⟨.none, "$a"⟩, ⟨.none, "$d"⟩]]

theorem generate_demand_holed :
    demand holedProgram = 4 ∧ (generate holedProgram 3 true).2 = some (.exhausted 3) ∧
      (generate holedProgram 4 true).2 = none ∧
      (generate holedProgram 4 true).1 = (generate holedProgram 100 true).1 ∧
      (generate holedProgram 3 true).1 <+: (generate holedProgram 100 true).1 := by
  have hdemand : demand holedProgram = 4 := by decide +kernel
  obtain ⟨hfault, hsame, hprefix⟩ := generate_demand holedProgram true
  rw [hdemand] at hsame hprefix
  exact ⟨hdemand, (hfault 3 (by decide)).1.2 (by omega), (hfault 4 (by decide)).2.2 (by omega),
    hsame 4 100 (by decide) (by decide) (by decide) (by decide), hprefix 3 100 (by decide) (by decide) (by decide)⟩

end TapeCompiler
