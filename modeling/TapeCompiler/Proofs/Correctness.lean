import TapeCompiler.Proofs.Compiled
import TapeCompiler.Proofs.Simulation

/-!
# Compiled programs do what they mean

* `Shows`: a machine whose cells hold variables.
* `compiled_means_source`: **a machine that runs a compiled source halts if and only if the program ends,**
  and then its output is that of the program, its declared cells hold the variables, and all others are
  zero.
-/

namespace TapeCompiler

/-- A machine has written what a program has, holds its variables in their cells, and is zero elsewhere.
`cells` are the cells of the declarations in their order. -/
structure Shows (cells : List Int) (m : Machine) (w : Store Var) : Prop where
  output : m.output = w.output
  declared : ∀ i (cell : ℕ), cells[i]? = some (cell : Int) → m.tape[cell]? = some (w.value (.declared i))
  others : ∀ cell : ℕ, cell < m.tape.size → (cell : Int) ∉ cells → m.tape[cell]? = some 0

theorem shows_of_config {cells : List Int} (hnodup : cells.Nodup) {size : ℕ}
    (hcells : ∀ c ∈ cells, InTape size c) {m : Machine} {w : Store Var} {head : Int}
    (h : m.config = (w.encode (ownerOf cells)).config size head) : Shows cells m w where
  output := congrArg Config.output h
  declared i cell hi := by
    have htape : m.tape = ((w.encode (ownerOf cells)).config size head).tape := congrArg Config.tape h
    have hlt := (hcells _ (List.mem_of_getElem? hi)).2
    rw [htape, Store.tape_config _ _ (by omega), Store.value_encode (owns_ownerOf hnodup hi)]
  others cell hlt hc := by
    have htape : m.tape = ((w.encode (ownerOf cells)).config size head).tape := congrArg Config.tape h
    have hsize : m.tape.size = size := by simp [htape, Store.config]
    rw [htape, Store.tape_config _ _ (by omega), Store.value_encode_of_none (ownerOf_eq_none hc)]

theorem agrees_empty {r : Resolver} (h : r.scope = .empty) : Agrees .empty r [] where
  lookup name := by
    have hl : r.lookup? name = none := by
      simp [Resolver.lookup?, h, Scope.get?, Scope.empty, Scope.frames, Frame.find?]
    rw [hl]
    exact .none
  count := rfl
  taken := by simp
  nodup := List.nodup_nil

/-- The code of a program ends just where the program does. -/
theorem run_plan_iff {program : List Stmt} {tapeSize : Int} {code : CellCode}
    (hplan : plan program tapeSize = .ok code) (hdiag : code.diagnostics = [])
    (hvars : Stmt.anyLoopDeclares program = false) :
    code.varCells.Nodup ∧ (∀ c ∈ code.varCells, InTape tapeSize.toNat c) ∧
      code.varCells.length = (Stmt.meanings program .empty).2.count ∧
      ∀ input t, code.Run 0 (.zero Int input) t ↔
        ∃ w, EndsIn program input w ∧ t = w.encode (ownerOf code.varCells) := by
  obtain ⟨r, r', hr, hs⟩ := plan_ok hplan
  obtain ⟨hvalid, -, hsize, hscope, -⟩ := Resolver.valid_ofSize hr
  obtain ⟨bs, hplaced⟩ := Plan.statements_placed program hvalid hs
  obtain ⟨hsim, hagree⟩ := Plan.statements_simulate program hvars hvalid (agrees_empty hscope) hs hdiag
  rw [List.nil_append] at hagree
  refine ⟨hagree.nodup, fun c hc => ?_, hagree.count.symm, fun input t => ?_⟩
  · rw [← hsize, ← hplaced.size]
    exact (hagree.taken c hc).inTape
  · exact hsim.run 0 (.zero Var input) t fun _ _ => rfl

/-- A machine with `size` cells does with a compiled program what the program means: it loads the code, it
halts if and only if the program ends, and then it shows the variables, each in the cell that its
declaration took. -/
def RunsAsMeant (program : List Stmt) (options : Options) (c : Compiled) (size : ℕ) (input : String) :
    Prop :=
  ∃ code m, plan program options.tapeSize = .ok code ∧
    c.instructions = code.instructions options.comments 0 ∧
    code.varCells.length = (Stmt.meanings program .empty).2.count ∧
    (Machine.blank size).load c.code input = (.ok (), m) ∧
    ((∃ m', m.HaltsIn m') ↔ ∃ w, EndsIn program input.toList w) ∧
    ∀ m' w, m.HaltsIn m' → EndsIn program input.toList w → Shows code.varCells m' w

/-- **Compiled programs do what they mean**, if they have no diagnostics and no loop declares anything. -/
theorem compiled_means_source {source : String} {options : Options} {c : Compiled} {program : List Stmt}
    (hcompile : compile source options = .ok c) (hok : c.ok = true)
    (hparse : parse source (scan source) = .ok program)
    (hvars : Stmt.anyLoopDeclares program = false) {size : ℕ} (hsize : options.tapeSize ≤ size)
    (input : String) : RunsAsMeant program options c size input := by
  obtain ⟨program', code, hparse', hplan, hc⟩ := exists_plan_of_compile hcompile
  obtain rfl : program' = program := Except.ok.inj (hparse'.symm.trans hparse)
  have hdiag := diagnostics_eq_nil hc hok
  have hquiet := CellCode.quiet_of_nil hdiag
  obtain ⟨hpos, hwithin⟩ := plan_within hplan
  obtain ⟨hnodup, hcells, hcount, hrun⟩ := run_plan_iff hplan hdiag hvars
  obtain ⟨m, hload, hstarts, hconfig⟩ := starts_compiled hc hquiet (show 0 < size by omega) input
  have hle : options.tapeSize.toNat ≤ size := by omega
  have hhalt (t : Config) : (∃ m', m.HaltsIn m' ∧ m'.config = t) ↔
      ∃ w, EndsIn program' input.toList w ∧
        t = (w.encode (ownerOf code.varCells)).config size (code.headAfter 0) := by
    rw [Machine.haltsIn_iff_run hstarts, hconfig,
      CellCode.run_tree ⟨Int.le_refl 0, by omega⟩ (hwithin.mono hle) hquiet]
    simp only [hrun]
    constructor
    · rintro ⟨_, ⟨w, hw, rfl⟩, rfl⟩
      exact ⟨w, hw, rfl⟩
    · rintro ⟨w, hw, rfl⟩
      exact ⟨_, ⟨w, hw, rfl⟩, rfl⟩
  refine ⟨code, m, hplan, hc, hcount, hload, ⟨?_, ?_⟩, ?_⟩
  · rintro ⟨m', hm'⟩
    obtain ⟨w, hw, -⟩ := (hhalt _).1 ⟨m', hm', rfl⟩
    exact ⟨w, hw⟩
  · rintro ⟨w, hw⟩
    obtain ⟨m', hm', -⟩ := (hhalt _).2 ⟨w, hw, rfl⟩
    exact ⟨m', hm'⟩
  · intro m' w hm' hw
    obtain ⟨m'', hm'', hconfig''⟩ := (hhalt _).2 ⟨w, hw, rfl⟩
    obtain rfl := hm'.unique hstarts hm''
    refine shows_of_config hnodup (fun cell hcell => ?_) hconfig''
    obtain ⟨h0, h1⟩ := hcells cell hcell
    exact ⟨h0, by omega⟩

/-- A source with a loop that ends and with two variables of one name. -/
def shadowingSource : String :=
  "var $a, $b; read $a; while -$a \x7b +$b = 2; \x7d if _$b \x7b var $a; $a = $b; print $a; \x7d"

theorem compiled_means_source_shadowing :
    ∃ c program, compile shadowingSource {} = .ok c ∧ c.ok = true ∧
      parse shadowingSource (scan shadowingSource) = .ok program ∧
      Stmt.anyLoopDeclares program = false ∧ RunsAsMeant program {} c 100 "5" := by
  have hcompile : (compile shadowingSource {}).map Compiled.ok = .ok true := by decide +kernel
  have hparse : (parse shadowingSource (scan shadowingSource)).map Stmt.anyLoopDeclares = .ok false := by
    decide +kernel
  obtain ⟨c, hc, hok⟩ := exists_of_map_ok hcompile
  obtain ⟨program, hp, hvars⟩ := exists_of_map_ok hparse
  exact ⟨c, program, hc, hok, hp, hvars, compiled_means_source hc hok hp hvars (by decide) "5"⟩

end TapeCompiler
