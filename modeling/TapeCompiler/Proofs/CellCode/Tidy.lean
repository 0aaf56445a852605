import TapeCompiler.Proofs.CellCode.Blocks
import TapeCompiler.Proofs.CellCode.Placement

/-!
# Free cells

Cells are zero at first, and a temporary is drained before it is given back. So a free cell is zero, with two
exceptions. Where a pass of a loop has given a cell to a variable, the next pass finds that cell free again, but
with the value of the variable. And the text of a diagnostic runs on the cell under the head, whichever that is.

* `CellCode.marks`: the cells on which diagnostics run.
* `CellCode.run_frame`: code leaves alone the cells that it does not name and on which no diagnostic runs.
* `FreeZero`: the free cells are zero, up to some exceptions.
* `Plan.Tidies`: code that keeps the free cells zero.
* `Plan.passes_free`: where the body of a loop starts, the exceptions are the cells of its variables.
-/

namespace TapeCompiler

/-! ## Cells under diagnostics -/

theorem Store.value_act {s : Store Int} {c head : Int} (h : c ≠ head) (a : Action) :
    (s.act head a).value c = s.value c := by
  cases a with
  | right | left | write => rfl
  | increment | decrement => rw [Store.act, Store.value_add, if_neg h]
  | read => rw [Store.act, Store.value_read, if_neg h]

theorem Store.value_foldl_act {c head : Int} (h : c ≠ head) (as : List Action) (s : Store Int) :
    (as.foldl (Store.act head) s).value c = s.value c := by
  induction as generalizing s with
  | nil => rfl
  | cons a as ih => rw [List.foldl_cons, ih, Store.value_act h]

/-- The cell on which a diagnostic runs. -/
def CellOp.marked (head : Int) : CellOp → List Int
  | mark _ => [head]
  | add _ _ | print _ | read _ | comment _ | declared _ => []

theorem CellOp.value_apply {o : CellOp} {c head : Int} (hcell : o.cell? ≠ some c) (hmark : c ∉ o.marked head)
    (s : Store Int) : (o.apply head s).value c = s.value c := by
  cases o with
  | add cell n =>
    have hne : c ≠ cell := fun h => hcell (by rw [h]; rfl)
    rw [apply, Store.value_add, if_neg hne]
  | read cell =>
    have hne : c ≠ cell := fun h => hcell (by rw [h]; rfl)
    rw [apply, Store.value_read, if_neg hne]
  | mark d =>
    have hne : c ≠ head := fun h => hmark (by rw [h]; exact List.mem_singleton_self head)
    exact Store.value_foldl_act hne _ s
  | print _ | comment _ | declared _ => rfl

namespace CellCode

/-- The cells on which the diagnostics in code run, if the head starts on a cell. -/
def marks (head : Int) : CellCode → List Int
  | empty => []
  | op o next => o.marked head ++ next.marks (o.headAfter head)
  | loop _ cell body next => body.marks cell ++ next.marks cell

theorem marks_append (head : Int) (a b : CellCode) :
    (a ++ b).marks head = a.marks head ++ b.marks (a.headAfter head) := by
  induction a generalizing head with
  | empty => rfl
  | op o next ih => rw [op_append, marks, marks, ih, List.append_assoc]; rfl
  | loop kind cell body next _ ih => rw [loop_append, marks, marks, ih, List.append_assoc]; rfl

theorem marks_of_quiet {a : CellCode} (h : a.diagnostics = []) (head : Int) : a.marks head = [] := by
  induction a generalizing head with
  | empty => rfl
  | op o next ih =>
    cases o with
    | mark d => cases h
    | add _ _ | print _ | read _ | comment _ | declared _ => exact ih h _
  | loop kind cell body next ihb ihn =>
    rw [diagnostics, List.append_eq_nil_iff] at h
    rw [marks, ihb h.1, ihn h.2]
    rfl

/-- **Code leaves alone the cells that it does not name** and on which no diagnostic runs. -/
theorem run_frame {a : CellCode} {c head : Int} (hcells : c ∉ a.cells) (hmarks : c ∉ a.marks head) {s t : Store Int}
    (h : a.Run head s t) : t.value c = s.value c := by
  induction a generalizing head s t with
  | empty => rw [h]
  | op o next ih =>
    simp only [cells, marks, List.mem_append, Option.mem_toList, not_or] at hcells hmarks
    rw [ih hcells.2 hmarks.2 h, CellOp.value_apply hcells.1 hmarks.1]
  | loop kind cell body next ihb ihn =>
    obtain ⟨u, ⟨hu, -⟩, ht⟩ := h
    simp only [cells, marks, List.mem_cons, List.mem_append, not_or] at hcells hmarks
    rw [ihn hcells.2.2 hmarks.2 ht]
    refine hu.keeps (P := fun u => u.value c = s.value c) rfl fun v w hv _ hw => ?_
    rw [ihb hcells.2.1 hmarks.1 hw, hv]

end CellCode

/-! ## Code that keeps the free cells zero -/

/-- The free cells are zero, up to some exceptions. -/
def FreeZero (o : Occupancy) (except : Int → Prop) (s : Store Int) : Prop :=
  ∀ c, ¬ o.Taken c → ¬ except c → s.value c = 0

theorem FreeZero.weaken {o o' : Occupancy} {P P' : Int → Prop} {s : Store Int} (h : FreeZero o P s)
    (hc : ∀ c, ¬ o'.Taken c → ¬ P' c → ¬ o.Taken c ∧ ¬ P c) : FreeZero o' P' s := by
  intro c hfree hP
  obtain ⟨h1, h2⟩ := hc c hfree hP
  exact h c h1 h2

namespace Plan

/-- Code between two resolvers that keeps the free cells zero, for a head on a cell. -/
def Tidies (P : Int → Prop) (r : Resolver) (head : Int) (code : CellCode) (r' : Resolver) : Prop :=
  ∀ s t, FreeZero r.memory P s → code.Run head s t → FreeZero r'.memory P t

variable {r r₁ r₂ r₃ r' : Resolver} {code rest body : CellCode} {P : Int → Prop} {head cell : Int}

theorem Tidies.append (h : Tidies P r head code r₁) (h' : Tidies P r₁ (code.headAfter head) rest r₂) :
    Tidies P r head (code ++ rest) r₂ := by
  intro s t hs hrun
  obtain ⟨u, hu, ht⟩ := (CellCode.run_append _ _ _ _ _).1 hrun
  exact h' u t (h s u hs hu) ht

/-- Code that works on taken cells keeps the free cells zero, up to those on which its diagnostics run. -/
theorem tidies_of_taken (hmarks : ∀ c ∈ code.marks head, P c) (hcells : ∀ c ∈ code.cells, r.memory.Taken c)
    (htaken : ∀ c, r.memory.Taken c → r'.memory.Taken c) : Tidies P r head code r' := by
  intro s t hs hrun c hfree hP
  have hfree' : ¬ r.memory.Taken c := fun hc => hfree (htaken c hc)
  rw [CellCode.run_frame (fun hc => hfree' (hcells c hc)) (fun hc => hP (hmarks c hc)) hrun]
  exact hs c hfree' hP

/-- A temporary that is held while code runs, and that is zero behind it. -/
theorem Tidies.held {temporary : ℕ} {new : List Int} (h : Tidies P r₁ head code r₂) (hr : r.Valid)
    (hdef : r.define none = .ok (temporary, r₁)) (hext : r₁.Extends [] new r₂)
    (hrel : r₂.release temporary = .ok r')
    (hzero : ∀ s t, code.Run head s t → t.value temporary = 0) : Tidies P r head code r' := by
  have hheld := Resolver.extends_define hr hdef
  have hall := hext.release hr hdef hrel
  intro s t hs hrun c hfree hP
  have hstart : FreeZero r₁.memory P s :=
    hs.weaken fun c hfree hP => ⟨fun hc => hfree ((hheld.taken c).2 (.inl hc)), hP⟩
  by_cases hc : c = temporary
  · rw [hc]
    exact hzero s t hrun
  · refine h s t hstart hrun c (fun htaken => hfree ?_) hP
    rw [hext.taken, hheld.taken, List.mem_singleton] at htaken
    rw [hall.taken]
    rcases htaken with (htaken | htaken) | htaken
    · exact .inl htaken
    · exact absurd htaken hc
    · exact .inr htaken

/-- **In every pass of a loop** the free cells are zero when its body starts, but for those that the body gives
away for good. -/
theorem passes_free {s u : Store Int} (hpass : Tidies P r cell body r₁)
    (hnew : ∀ c, r₁.memory.Taken c → r.memory.Taken c ∨ P c) (hs : FreeZero r.memory P s)
    (h : Passes (fun s => s.value cell ≠ 0) (body.Run cell) s u) : FreeZero r.memory P u := by
  refine h.keeps hs fun v w hv _ hw => ?_
  refine (hpass v w hv hw).weaken fun c hfree hP => ⟨fun hc => ?_, hP⟩
  exact (hnew c hc).elim hfree hP

/-- A loop whose body gives cells to variables. -/
theorem loop_tidies {kind : LoopKind} {new : List Int} (htaken : ∀ c, r₁.memory.Taken c ↔ r.memory.Taken c ∨ c ∈ new)
    (hpass : Tidies (fun c => P c ∨ c ∈ new) r cell body r₁) : Tidies P r head (.loop kind cell body .empty) r₁ := by
  intro s t hs hrun
  obtain ⟨hpasses, -⟩ := (run_loop _ _ _ _ _ _).1 hrun
  have hstart : FreeZero r.memory (fun c => P c ∨ c ∈ new) s :=
    hs.weaken fun c hfree hP => ⟨hfree, fun hc => hP (.inl hc)⟩
  have hend := passes_free hpass (fun c hc => ((htaken c).1 hc).imp_right .inr) hstart hpasses
  refine hend.weaken fun c hfree hP => ⟨fun hc => hfree ((htaken c).2 (.inl hc)), fun hc => ?_⟩
  exact hc.elim hP fun hc => hfree ((htaken c).2 (.inr hc))

end Plan

end TapeCompiler
