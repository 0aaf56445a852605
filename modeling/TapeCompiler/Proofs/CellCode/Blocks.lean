import TapeCompiler.Proofs.CellCode.Plan
import TapeCompiler.Proofs.Meaning

/-!
# What the building blocks of code do

* `Plan.run_clear`: a cell is set to zero.
* `Plan.run_transfer`: a cell is counted down, and with every unit others grow.
* `Plan.run_copy`: **a cell is added to another one and keeps its value.**
* `Plan.run_moveInto`: targets are set to zero, and a cell is counted down into them.
-/

namespace TapeCompiler

namespace Plan

theorem run_loop (kind : LoopKind) (head cell : Int) (body : CellCode) (s t : Store Int) :
    (CellCode.loop kind cell body .empty).Run head s t ↔
      Repeats (fun s => s.value cell ≠ 0) (body.Run cell) s t := by
  simp [CellCode.Run]

theorem iterate_add (s : Store Int) (cell n : Int) (k : ℕ) :
    (fun s : Store Int => s.add cell n)^[k] s = s.add cell (k * n) := by
  induction k generalizing s with
  | zero => simp
  | succ k ih =>
    rw [Function.iterate_succ_apply, ih, Store.add_add]
    congr 1
    rw [Int.natCast_succ, Int.add_mul]; omega

/-- **Clearing sets a cell to zero.** -/
theorem run_clear (head cell : Int) (s t : Store Int) :
    (clear cell).Run head s t ↔ t = s.set cell 0 := by
  rw [clear, run_loop]
  refine (repeats_countdown (fun s : Store Int => s.add cell (-1))
    (fun s => (s.value cell).toNat) (fun s => s.value_ne_zero_iff cell)
    (fun s hs => Store.toNat_value_pred hs) s t).trans ?_
  rw [iterate_add, show ((s.value cell).toNat : Int) * -1 = -(s.value cell).toNat by omega,
    Store.add_neg_toNat]

theorem run_ofOps_add (head : Int) (steps : List (Int × Int)) (s t : Store Int) :
    (CellCode.ofOps (steps.map fun t => .add t.1 t.2)).Run head s t ↔ t = s.addAll steps := by
  induction steps generalizing head s with
  | nil => rfl
  | cons p ps ih => exact ih _ _

/-- **A transfer counts its source down**; with every unit the targets grow. -/
theorem run_transfer (head source : Int) (steps : List (Int × Int)) (s t : Store Int) :
    (transfer source steps).Run head s t ↔
      Repeats (fun s => s.value source ≠ 0) (fun s t => t = s.addAll ((source, -1) :: steps)) s t := by
  have hbody : (CellCode.op (.add source (-1)) (.ofOps (steps.map fun t => .add t.1 t.2))).Run source =
      fun s t => t = s.addAll ((source, -1) :: steps) := by
    funext s t
    exact propext (run_ofOps_add _ steps _ t)
  rw [transfer, run_loop, hbody]

/-- A transfer out of a cell that is no target. -/
theorem run_transfer_of_ne (head : Int) {source : Int} {steps : List (Int × Int)}
    (h : ∀ t ∈ steps, t.1 ≠ source) (s t : Store Int) :
    (transfer source steps).Run head s t ↔ t = s.moved source steps := by
  have hsource : Store.gainOf source ((source, -1) :: steps) = -1 := by
    simp [Store.gainOf, Store.gainOf_eq_zero h]
  have hpred (s : Store Int) : (s.addAll ((source, -1) :: steps)).value source =
      (s.add source (-1)).value source := by
    rw [Store.value_addAll, hsource, Store.value_add, if_pos rfl]
  have hall : (fun s : Store Int => s.addAll ((source, -1) :: steps))^[(s.value source).toNat] s =
      s.moved source steps := by
    obtain ⟨hv, hin, hout⟩ := Store.iterate_addAll s ((source, -1) :: steps) (s.value source).toNat
    refine Store.ext (fun c => ?_) hin hout
    rw [hv, Store.moved]
    simp only
    split
    · rename_i hc
      rw [hc, hsource, Int.mul_neg_one, UInt8.ofInt_neg, Store.ofInt_toNat, UInt8.add_right_neg]
    · rename_i hc
      simp [Store.gainOf, Ne.symm hc]
  rw [run_transfer]
  refine (repeats_countdown (fun s : Store Int => s.addAll ((source, -1) :: steps))
    (fun s => (s.value source).toNat) (fun s => s.value_ne_zero_iff source)
    (fun s hs => by rw [hpred]; exact Store.toNat_value_pred hs) s t).trans ?_
  rw [hall]

/-- **A copy adds a cell to another one** and leaves everything else as it was. -/
theorem run_copy (head : Int) {source target scratch : Int} (hst : source ≠ target) (hss : source ≠ scratch)
    (hts : target ≠ scratch) {s : Store Int} (hs : s.value scratch = 0) (t : Store Int) :
    (copy source target scratch).Run head s t ↔
      t = s.set target (s.value target + s.value source) := by
  have hback : (s.moved source [(target, 1), (scratch, 1)]).moved scratch [(source, 1)] =
      s.set target (s.value target + s.value source) := by
    refine Store.ext (fun c => ?_) rfl rfl
    have hzero : UInt8.ofInt 0 = 0 := rfl
    simp only [Store.moved, Store.gainOf, Store.value_set]
    by_cases h1 : c = scratch
    · simp [h1, hts.symm, hs]
    by_cases h2 : c = source
    · simp [h2, hss, hss.symm, hst, hts, hs, Store.ofInt_toNat]
    by_cases h3 : c = target
    · simp [h3, hts, hst, hst.symm, hts.symm, Store.ofInt_toNat, hzero]
    · simp [h1, h2, h3, Ne.symm h1, Ne.symm h2, Ne.symm h3, hzero]
  have hout : ∀ t ∈ [(target, (1 : Int)), (scratch, 1)], t.1 ≠ source := by
    simp [hst.symm, hss.symm]
  have hin : ∀ t ∈ [(source, (1 : Int))], t.1 ≠ scratch := by simp [hss]
  rw [copy, CellCode.run_append]
  simp only [run_transfer_of_ne _ hout, run_transfer_of_ne _ hin, exists_eq_left, hback]

theorem run_applyMark (head : Int) (subject : Ident) (cell : Int) (s t : Store Int) :
    (applyMark subject cell).Run head s t ↔ t = s.add cell subject.mark.drift := by
  unfold applyMark Mark.drift
  cases subject.mark with
  | none => simp [CellCode.Run]
  | plus | minus | floor => rfl

/-- The cells of the targets without a mark. -/
def plainCells (ts : List (Int × Ident)) : List Int :=
  (ts.filter fun t => t.2.mark = .none).map Prod.fst

theorem run_clearAll (head : Int) (ts : List (Int × Ident)) (s t : Store Int) :
    (clearAll ts).Run head s t ↔ t = s.zeroAll (plainCells ts) := by
  induction ts generalizing head s with
  | nil => rfl
  | cons p ts ih =>
    obtain ⟨cell, i⟩ := p
    unfold clearAll plainCells
    split
    · rename_i hm
      rw [CellCode.run_append]
      simp only [run_clear, exists_eq_left, ih, List.filter_cons, hm, decide_true, if_true]
      rfl
    · rename_i hm
      rw [ih]
      simp only [List.filter_cons, hm, decide_false, Bool.false_eq_true, if_false]
      rfl

/-- Moving a value: the plain targets become zero, and then the source is drained. -/
theorem run_moveInto {ts : List (Int × Ident)} (h : misplaced ts = []) (head source : Int)
    (s t : Store Int) :
    (moveInto source ts).Run head s t ↔
      Repeats (fun s => s.value source ≠ 0) (fun s t => t = s.addAll ((source, -1) :: steps ts))
        (s.zeroAll (plainCells ts)) t := by
  have hnil : clearAll ts ++ CellCode.ofOps [] = clearAll ts := CellCode.append_empty _
  rw [moveInto, h, hnil, CellCode.run_append]
  simp only [run_clearAll, exists_eq_left, run_transfer]

theorem misplaced_perm {ts us : List (Int × Ident)} (hperm : ts.Perm us) : (misplaced ts).Perm (misplaced us) :=
  (hperm.filter _).map _

theorem misplaced_eq_nil_of_perm {ts us : List (Int × Ident)} (hperm : ts.Perm us) (h : misplaced us = []) :
    misplaced ts = [] := by
  have hmarks := misplaced_perm hperm
  rw [h] at hmarks
  exact hmarks.eq_nil

/-- The order of the targets does not matter. -/
theorem run_moveInto_perm {ts us : List (Int × Ident)} (hperm : ts.Perm us) (h : misplaced us = [])
    (head source : Int) (s t : Store Int) :
    (moveInto source ts).Run head s t ↔ (moveInto source us).Run head s t := by
  have hts : misplaced ts = [] := misplaced_eq_nil_of_perm hperm h
  have hsteps (s : Store Int) : s.addAll ((source, -1) :: steps ts) = s.addAll ((source, -1) :: steps us) :=
    s.addAll_perm ((hperm.filterMap _).cons _)
  have hplain : s.zeroAll (plainCells ts) = s.zeroAll (plainCells us) :=
    s.zeroAll_perm ((hperm.filter _).map _)
  rw [run_moveInto hts, run_moveInto h, hplain]
  simp only [hsteps]

end Plan

end TapeCompiler
