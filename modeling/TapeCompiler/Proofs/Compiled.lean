import TapeCompiler.Proofs.CellCode.Generated
import TapeCompiler.Proofs.CellCode.Placement
import TapeCompiler.Proofs.Machine.Structured
import TapeCompiler.Proofs.Stage

/-!
# Compiled sources on a machine

* `exists_plan_of_compile`: **the instructions of a compiled source are those of a plan.**
* `starts_compiled`: a machine with enough cells that has loaded them is about to run the tree of the plan.
-/

namespace TapeCompiler

theorem exists_of_map_ok {ε α β : Type} {x : Except ε α} {f : α → β} {b : β} (h : x.map f = .ok b) :
    ∃ a, x = .ok a ∧ f a = b := by
  cases x with
  | error e => cases h
  | ok a => exact ⟨a, rfl, Except.ok.inj h⟩

/-- **A source that is compiled has a program, and the program has a plan**, whose instructions are the
result. -/
theorem exists_plan_of_compile {source : String} {options : Options} {c : Compiled}
    (h : compile source options = .ok c) :
    ∃ program code, parse source (scan source) = .ok program ∧
      plan program options.tapeSize = .ok code ∧
      c.instructions = code.instructions options.comments 0 := by
  rw [compile_eq_compileDirect, compileDirect] at h
  cases hp : parse source (scan source) with
  | error f => simp [hp, Except.map] at h
  | ok program =>
    obtain ⟨code, hplan, hgen⟩ | ⟨e, hplan, hgen⟩ :=
      generate_eq_plan program options.tapeSize options.comments
    · refine ⟨program, code, rfl, hplan, ?_⟩
      simp only [hp, hgen, Except.map, Except.ok.injEq] at h
      rw [← h]
    · simp only [hp] at h
      generalize generate program options.tapeSize options.comments = g at h hgen
      obtain ⟨instructions, fault⟩ := g
      simp only at hgen
      simp [hgen, Except.map] at h

/-- The diagnostics of a compiled source are those of its plan. -/
theorem diagnostics_eq_nil {c : Compiled} {code : CellCode} {comments : Bool}
    (hc : c.instructions = code.instructions comments 0) (hok : c.ok = true) : code.diagnostics = [] := by
  simpa [Compiled.ok, Compiled.diagnostics, hc, CellCode.diagnosticsOf_instructions] using hok

/-- **A machine that has loaded a compiled source** stands at the start of the tree of its plan, and all
its cells are zero. -/
theorem starts_compiled {c : Compiled} {code : CellCode} {comments : Bool}
    (hc : c.instructions = code.instructions comments 0) (hquiet : code.Quiet) {size : ℕ}
    (hsize : 0 < size) (input : String) :
    ∃ m, (Machine.blank size).load c.code input = (.ok (), m) ∧ m.Starts (code.tree 0) ∧
      m.config = (Store.zero Int input.toList).config size 0 := by
  have htext : TapeOp.program c.code = (code.tree 0).ops := by
    rw [CellCode.ops_tree comments 0 hquiet, ← hc]
    rfl
  obtain ⟨m, hload, hstarts, hconfig⟩ := Machine.starts_load size hsize htext input
  refine ⟨m, hload, hstarts, hconfig.trans ?_⟩
  simp only [Store.config, Store.zero, Config.mk.injEq, and_true]
  exact ⟨Array.ext (by simp) (by simp), rfl⟩

end TapeCompiler
