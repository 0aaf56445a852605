import TapeCompiler.Proofs.CellCode.Plan
import TapeCompiler.Proofs.CellCode.Tree
import TapeCompiler.Proofs.Machine.Structured

/-!
# Transfers on any tape

Code is made for a tape that has all its cells. On a shorter tape, or with the head elsewhere, the cells of the code
are somewhere on the ring, and two of them may be the same. A pass of a transfer adds to these cells and brings the
head back, and since additions commute it does not matter in which order it does so.

* `Config.goBy`, `Config.addAt`: the head goes round the tape, and a cell grows.
* `foldl_travel`: travelling, on any tape.
* `run_pass`: **a pass of a transfer, on any tape.**
* `run_transfer_perm`: **a transfer does the same for its targets in any order.**
-/

namespace TapeCompiler

namespace Config

variable {s : Config} {d e : Int}

/-- The place `d` cells to the right of the head, round the tape. -/
def beside (s : Config) (d : Int) : ℕ :=
  ((s.pointer + d) % s.tape.size).toNat

/-- The head goes `d` cells to the right. -/
def goBy (s : Config) (d : Int) : Config :=
  { s with pointer := s.beside d }

/-- Adds a number to the cell at a place. -/
def addAt (s : Config) (place : ℕ) (n : Int) : Config :=
  { s with tape := s.tape.modify place (· + UInt8.ofInt n) }

@[simp]
theorem size_goBy (s : Config) (d : Int) : (s.goBy d).tape.size = s.tape.size := rfl

@[simp]
theorem size_addAt (s : Config) (place : ℕ) (n : Int) : (s.addAt place n).tape.size = s.tape.size := by
  simp [addAt]

theorem OnTape.size_pos (h : s.OnTape) : 0 < s.tape.size :=
  Nat.zero_lt_of_lt h

theorem OnTape.beside_lt (h : s.OnTape) (d : Int) : s.beside d < s.tape.size := by
  have hpos := h.size_pos
  have hlt := Int.emod_lt_of_pos ((s.pointer : Int) + d) (by exact_mod_cast hpos : (0 : Int) < s.tape.size)
  have hnonneg := Int.emod_nonneg ((s.pointer : Int) + d) (by omega : (s.tape.size : Int) ≠ 0)
  unfold beside
  omega

theorem OnTape.goBy (h : s.OnTape) (d : Int) : (s.goBy d).OnTape :=
  h.beside_lt d

theorem OnTape.addAt (h : s.OnTape) (place : ℕ) (n : Int) : (s.addAt place n).OnTape := by
  unfold OnTape at h ⊢
  rw [size_addAt]
  exact h

theorem goBy_zero (h : s.OnTape) : s.goBy 0 = s := by
  have hplace : s.beside 0 = s.pointer := by
    have hlt : (s.pointer : Int) < s.tape.size := by exact_mod_cast h
    rw [beside, Int.add_zero, Int.emod_eq_of_lt (by omega) hlt, Int.toNat_natCast]
  rw [goBy, hplace]

theorem beside_goBy (h : s.OnTape) (d e : Int) : (s.goBy d).beside e = s.beside (d + e) := by
  have hpos := h.size_pos
  have hnonneg := Int.emod_nonneg ((s.pointer : Int) + d) (by omega : (s.tape.size : Int) ≠ 0)
  have hplace : ((s.goBy d).pointer : Int) = (s.pointer + d) % s.tape.size := Int.toNat_of_nonneg hnonneg
  rw [beside, hplace, size_goBy, Int.emod_add_emod, Int.add_assoc]
  rfl

theorem goBy_goBy (h : s.OnTape) (d e : Int) : (s.goBy d).goBy e = s.goBy (d + e) := by
  rw [goBy, beside_goBy h]
  rfl

@[simp]
theorem beside_addAt (s : Config) (place : ℕ) (n : Int) (d : Int) : (s.addAt place n).beside d = s.beside d := by
  unfold beside
  rw [size_addAt]
  rfl

theorem goBy_addAt (s : Config) (place : ℕ) (n : Int) (d : Int) :
    (s.goBy d).addAt place n = (s.addAt place n).goBy d := by
  rw [goBy, goBy, beside_addAt]
  rfl

theorem addAt_addAt (s : Config) (place : ℕ) (m n : Int) :
    (s.addAt place m).addAt place n = s.addAt place (m + n) := by
  have htape : (s.tape.modify place (· + UInt8.ofInt m)).modify place (· + UInt8.ofInt n) =
      s.tape.modify place (· + UInt8.ofInt (m + n)) := by
    refine Array.ext (by simp) ?_
    intro i _ _
    simp only [Array.getElem_modify, UInt8.ofInt_add]
    split
    · exact UInt8.add_assoc _ _ _
    · rfl
  unfold addAt
  rw [htape]

/-- **Additions commute**, also on one cell. -/
theorem addAt_comm (s : Config) (i j : ℕ) (m n : Int) : (s.addAt i m).addAt j n = (s.addAt j n).addAt i m := by
  have htape : (s.tape.modify i (· + UInt8.ofInt m)).modify j (· + UInt8.ofInt n) =
      (s.tape.modify j (· + UInt8.ofInt n)).modify i (· + UInt8.ofInt m) := by
    refine Array.ext (by simp) ?_
    intro k _ _
    simp only [Array.getElem_modify]
    by_cases hi : i = k <;> by_cases hj : j = k <;> simp only [hi, hj, if_true, if_false]
    rw [UInt8.add_assoc, UInt8.add_assoc, UInt8.add_comm (UInt8.ofInt m)]
  unfold addAt
  rw [htape]

theorem addAt_zero (s : Config) (place : ℕ) : s.addAt place 0 = s := by
  have htape : s.tape.modify place (· + UInt8.ofInt 0) = s.tape := by
    refine Array.ext (by simp) ?_
    intro i _ _
    simp [Array.getElem_modify, show UInt8.ofInt 0 = 0 from rfl]
  unfold addAt
  rw [htape]

end Config

/-! ## Actions -/

section

variable {s t : Config}

theorem Action.apply_right (s : Config) : Action.right.apply s = s.goBy 1 := by
  have hplace : s.beside 1 = (s.pointer + 1) % s.tape.size := by
    unfold Config.beside
    exact_mod_cast Int.toNat_natCast ((s.pointer + 1) % s.tape.size)
  rw [Config.goBy, hplace]
  rfl

theorem Action.apply_left (h : s.OnTape) : Action.left.apply s = s.goBy (-1) := by
  have hpos := h.size_pos
  have hplace : s.beside (-1) = (s.pointer + s.tape.size - 1) % s.tape.size := by
    have hround : ((s.pointer : Int) + -1) % s.tape.size = (s.pointer + s.tape.size - 1 : ℕ) % s.tape.size := by
      rw [← Int.add_emod_right]
      congr 1
      omega
    unfold Config.beside
    rw [hround]
    exact_mod_cast Int.toNat_natCast ((s.pointer + s.tape.size - 1) % s.tape.size)
  rw [Config.goBy, hplace]
  rfl

theorem Action.apply_increment (s : Config) : Action.increment.apply s = s.addAt s.pointer 1 := rfl

theorem Action.apply_decrement (s : Config) : Action.decrement.apply s = s.addAt s.pointer (-1) := by
  have hpred : (fun b : UInt8 => b - 1) = (· + UInt8.ofInt (-1)) := by
    funext b
    rw [UInt8.sub_eq_add_neg]
    rfl
  rw [Action.apply, Config.alter, hpred]
  rfl

theorem foldl_replicate_goBy (h : s.OnTape) {a : Action} {d : Int}
    (ha : ∀ u : Config, u.OnTape → a.apply u = u.goBy d) (n : ℕ) :
    (List.replicate n a).foldl Action.apply s = s.goBy (n * d) := by
  induction n generalizing s with
  | zero => simp [Config.goBy_zero h]
  | succ n ih =>
    rw [List.replicate_succ, List.foldl_cons, ha s h, ih (h.goBy d), Config.goBy_goBy h]
    congr 1
    rw [Int.natCast_succ, Int.add_mul]
    omega

/-- **Travelling, on any tape.** -/
theorem foldl_travel (h : s.OnTape) (head cell : Int) :
    (travelActions head cell).foldl Action.apply s = s.goBy (cell - head) := by
  unfold travelActions Instruction.signedActions
  split
  · rw [foldl_replicate_goBy h fun u _ => Action.apply_right u]
    congr 1
    omega
  · rw [foldl_replicate_goBy h fun u hu => Action.apply_left hu]
    congr 1
    omega

theorem foldl_replicate_addAt {a : Action} {k : Int} (ha : ∀ u : Config, a.apply u = u.addAt u.pointer k) (s : Config)
    (n : ℕ) : (List.replicate n a).foldl Action.apply s = s.addAt s.pointer (n * k) := by
  induction n generalizing s with
  | zero => simp [Config.addAt_zero]
  | succ n ih =>
    rw [List.replicate_succ, List.foldl_cons, ha s, ih]
    show (s.addAt s.pointer k).addAt s.pointer (n * k) = _
    rw [Config.addAt_addAt]
    congr 1
    rw [Int.natCast_succ, Int.add_mul]
    omega

theorem foldl_add (s : Config) (n : Int) : (Instruction.add n).actions.foldl Action.apply s = s.addAt s.pointer n := by
  simp only [Instruction.actions, Instruction.signedActions]
  split
  · rw [foldl_replicate_addAt Action.apply_increment]
    congr 1
    omega
  · rw [foldl_replicate_addAt Action.apply_decrement]
    congr 1
    omega

/-! ## Passes of a transfer -/

/-- Adds to cells, the head being on the cell `head`. -/
def Config.addRound (s : Config) (head : Int) (steps : List (Int × Int)) : Config :=
  steps.foldl (fun u t => u.addAt (s.beside (t.1 - head)) t.2) s

theorem Config.addRound_perm (s : Config) (head : Int) {steps steps' : List (Int × Int)} (h : steps.Perm steps') :
    s.addRound head steps = s.addRound head steps' := by
  unfold addRound
  have : RightCommutative fun (u : Config) (t : Int × Int) => u.addAt (s.beside (t.1 - head)) t.2 :=
    ⟨fun u t v => u.addAt_comm _ _ t.2 v.2⟩
  exact h.foldl_eq s

theorem Config.OnTape.foldl_addAt (h : s.OnTape) (place : Int × Int → ℕ) (steps : List (Int × Int)) :
    (steps.foldl (fun u t => u.addAt (place t) t.2) s).OnTape := by
  induction steps generalizing s with
  | nil => exact h
  | cons t steps ih => exact ih (h.addAt (place t) t.2)

theorem Config.foldl_addAt_goBy (place : Int × Int → ℕ) (steps : List (Int × Int)) (s : Config) (d : Int) :
    steps.foldl (fun u t => u.addAt (place t) t.2) (s.goBy d) =
      (steps.foldl (fun u t => u.addAt (place t) t.2) s).goBy d := by
  induction steps generalizing s with
  | nil => rfl
  | cons t steps ih => rw [List.foldl_cons, List.foldl_cons, Config.goBy_addAt, ih]

/-- Additions to cells as code. -/
abbrev CellCode.adds (steps : List (Int × Int)) : CellCode :=
  .ofOps (steps.map fun t => .add t.1 t.2)

/-- **Additions and the way home, on any tape.** -/
theorem run_pass (steps : List (Int × Int)) {head home : Int} (h : s.OnTape) :
    ((CellCode.adds steps).tree head ++
        .ofActions (travelActions ((CellCode.adds steps).headAfter head) home)).Run s t ↔
      t = (s.addRound head steps).goBy (home - head) := by
  induction steps generalizing head s with
  | nil =>
    show (LoopTree.empty ++ .ofActions (travelActions head home)).Run s t ↔ _
    rw [LoopTree.empty_append, LoopTree.run_ofActions, foldl_travel h]
    rfl
  | cons p steps ih =>
    obtain ⟨cell, n⟩ := p
    -- the head goes to the first cell, which grows; then all is as for a head on that cell
    set u : Config := (s.goBy (cell - head)).addAt (s.beside (cell - head)) n with hu
    have hfirst : ((CellOp.add cell n).actions head).foldl Action.apply s = u := by
      rw [CellOp.actions, List.foldl_append, foldl_travel h, foldl_add]
      rfl
    have hplaces (x : Int) : u.beside (x - cell) = s.beside (x - head) := by
      rw [hu, Config.beside_addAt, Config.beside_goBy h]
      congr 1
      omega
    have hrest : _ ↔ t = (u.addRound cell steps).goBy (home - cell) := ih ((h.goBy _).addAt _ n)
    have hround : (u.addRound cell steps).goBy (home - cell) =
        (s.addRound head ((cell, n) :: steps)).goBy (home - head) := by
      unfold Config.addRound
      simp only [hplaces, List.foldl_cons]
      rw [hu, Config.goBy_addAt, Config.foldl_addAt_goBy fun x => s.beside (x.1 - head), Config.goBy_goBy]
      · congr 1
        omega
      · exact (h.addAt _ n).foldl_addAt (fun x => s.beside (x.1 - head)) steps
    rw [← hround, ← hrest]
    show (LoopTree.ofActions ((CellOp.add cell n).actions head) ++ (CellCode.adds steps).tree cell ++ _).Run s t ↔ _
    rw [LoopTree.append_assoc, LoopTree.run_append]
    simp only [LoopTree.run_ofActions, hfirst, exists_eq_left]
    rfl

/-- **A transfer does the same for its targets in any order**, on any tape. -/
theorem run_transfer_perm {steps steps' : List (Int × Int)} (hperm : steps.Perm steps') (source : Int) {head : Int}
    (h : s.OnTape) :
    ((Plan.transfer source steps).tree head).Run s t ↔ ((Plan.transfer source steps').tree head).Run s t := by
  -- a pass takes a unit from the source, adds to the targets and goes home
  set pass := fun steps : List (Int × Int) =>
    (CellCode.adds ((source, -1) :: steps)).tree source ++
      .ofActions (travelActions ((CellCode.adds ((source, -1) :: steps)).headAfter source) source) with hpass
  have htree (steps : List (Int × Int)) : (Plan.transfer source steps).tree head =
      .ofActions (travelActions head source) ++ .loop (pass steps) .empty := rfl
  have hsame (u v : Config) (hu : u.OnTape) : (pass steps).Run u v ↔ (pass steps').Run u v := by
    rw [hpass, run_pass _ hu, run_pass _ hu, u.addRound_perm source (hperm.cons (source, -1))]
  have hkeeps (u v : Config) (hu : u.OnTape) (hrun : (pass steps').Run u v) : v.OnTape := hrun.onTape hu
  rw [htree, htree, LoopTree.run_append, LoopTree.run_append]
  simp only [LoopTree.run_ofActions, foldl_travel h, exists_eq_left, LoopTree.Run]
  exact exists_congr fun v => and_congr_left' (repeats_congr hsame hkeeps (h.goBy _))

end

end TapeCompiler
