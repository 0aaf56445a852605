import Mathlib.Data.Finset.Lattice.Lemmas
import Mathlib.Data.List.Perm.Lattice
import TapeCompiler.Proofs.Checker
import TapeCompiler.Proofs.Session

/-!
# What generation leaves behind

Generation takes temporaries, opens blocks and opens loops, and it does not tell anybody which. Behind it they
are all gone: what is left are the variables that the program declared.

* `Resolver.Extends.used`: how many cells are taken.
* `Stmt.ownNames`, `Stmt.nestedNames`: the names that a program defines, found without a resolver.
* `Plan.statements_binds`: **planning binds just these names, and takes a cell for each.**
* `generation_balanced`: **in every state of a session generation either succeeds and leaves only variables
  behind, or runs out of cells,** and both ways it leaves every block that it entered.
-/

namespace TapeCompiler

/-! ## Counting cells -/

namespace Occupancy

variable {o : Occupancy}

theorem mem_indices {n : ℕ} : n ∈ o.indices ↔ o.Taken n := by
  rw [taken_natCast, indices, List.mem_map]
  constructor
  · rintro ⟨⟨b, m⟩, hmem, rfl⟩
    obtain ⟨hmem, rfl⟩ := List.mem_filter.1 hmem
    exact List.mem_zipIdx_iff_getElem?.1 hmem
  · intro h
    exact ⟨(true, n), List.mem_filter.2 ⟨List.mem_zipIdx_iff_getElem?.2 h, rfl⟩, rfl⟩

theorem nodup_indices : o.indices.Nodup := by
  have hall : (o.cells.zipIdx.map Prod.snd).Nodup := by
    rw [List.zipIdx_map_snd]
    exact List.nodup_range'
  exact hall.sublist (List.filter_sublist.map Prod.snd)

theorem length_indices : o.indices.length = o.used := by
  have hcells : o.cells.zipIdx.map Prod.fst = o.cells := List.zipIdx_map_fst 0 o.cells
  rw [indices, List.length_map, ← List.countP_eq_length_filter, used, List.count]
  conv_rhs => rw [← hcells, List.countP_map]
  exact List.countP_congr fun p _ => by simp

end Occupancy

/-- **Every cell that was taken counts.** -/
theorem Resolver.Extends.used {r r' : Resolver} {bs : List Binding} {new : List Int} (h : r.Extends bs new r') :
    r'.memory.used = r.memory.used + new.length := by
  have hcast : Function.Injective (fun n : ℕ => (n : Int)) := fun m n hmn => by simpa using hmn
  have hold : (r.memory.indices.map fun n : ℕ => (n : Int)).Nodup := Occupancy.nodup_indices.map hcast
  have hmem (o : Occupancy) (c : Int) : c ∈ (o.indices.map fun n : ℕ => (n : Int)) ↔ o.Taken c := by
    rw [List.mem_map]
    constructor
    · rintro ⟨n, hn, rfl⟩
      exact Occupancy.mem_indices.1 hn
    · rintro ⟨n, rfl, hn⟩
      exact ⟨n, Occupancy.mem_indices.2 ⟨n, rfl, hn⟩, rfl⟩
  have hperm : (r'.memory.indices.map fun n : ℕ => (n : Int)).Perm
      ((r.memory.indices.map fun n : ℕ => (n : Int)) ++ new) := by
    refine (List.perm_ext_iff_of_nodup (Occupancy.nodup_indices.map hcast) ?_).2 fun c => ?_
    · refine List.nodup_append.2 ⟨hold, h.nodup, fun c hc d hd hcd => ?_⟩
      exact h.fresh d hd (hcd ▸ (hmem _ c).1 hc)
    · rw [List.mem_append, hmem, hmem, h.taken]
  simpa [Occupancy.length_indices] using hperm.length_eq

/-! ## The names of a program -/

/-- The names that a declaration defines where some are known: those that are not, each of them once. -/
def freshNames (known : Finset String) : List Ident → List String
  | [] => []
  | i :: is =>
    if i.name ∈ known then freshNames known is else i.name :: freshNames (insert i.name known) is

namespace Stmt

/-- The names that a statement defines in the block in which it stands. -/
def ownNames (known : Finset String) : Stmt → List String
  | .declare names => freshNames known names
  | .wrap inner => inner.ownNames known
  | .assign _ _ | .print _ | .read _ | .branch _ _ | .loop _ _ | .define _ _ _ | .call _ _ | .bare _
  | .invalid _ => []

/-- The names that statements define in the block in which they stand. -/
def allOwnNames (known : Finset String) : List Stmt → List String
  | [] => []
  | s :: ss => s.ownNames known ++ allOwnNames (known ∪ (s.ownNames known).toFinset) ss

mutual

/-- The names that a statement defines in the blocks in it. A function is not compiled, so what its body
declares is not defined. -/
def nestedNames : Stmt → List String
  | .branch _ body | .loop _ body => allOwnNames ∅ body ++ allNestedNames body
  | .wrap inner => inner.nestedNames
  | .declare _ | .assign _ _ | .print _ | .read _ | .define _ _ _ | .call _ _ | .bare _ | .invalid _ => []

/-- The names that statements define in the blocks in them. -/
def allNestedNames : List Stmt → List String
  | [] => []
  | s :: ss => s.nestedNames ++ allNestedNames ss

end

end Stmt

theorem Frame.names_append {f bs : Frame} {own : List String} (h : bs.map Binding.name = own.map some) :
    Frame.names (f ++ bs) = f.names ∪ own.toFinset := by
  have hbs : bs.filterMap Binding.name = own := by
    have hmap : bs.filterMap Binding.name = (bs.map Binding.name).filterMap id := by
      rw [List.filterMap_map, Function.id_comp]
    rw [hmap, h, List.filterMap_map, Function.id_comp, List.filterMap_some]
  rw [Frame.names, List.filterMap_append, hbs, List.toFinset_append, Frame.names]

namespace Plan

variable {r r₁ r₂ r' : Resolver} {code rest : CellCode} {own own' nested nested' : List String}

/-- Placed code that binds the names `own`, in this order, and takes a cell for each of them and for each name
of `nested`. -/
structure Binds (r : Resolver) (own nested : List String) (code : CellCode) (r' : Resolver) : Prop where
  placed : ∃ bs, Placed r bs code r' ∧ bs.map Binding.name = own.map some
  count : code.varCells.length = own.length + nested.length

theorem Binds.valid (h : Binds r own nested code r') : r'.Valid := by
  obtain ⟨bs, hp, -⟩ := h.placed
  exact hp.valid

theorem Binds.names (h : Binds r own nested code r') :
    r'.scope.inner.names = r.scope.inner.names ∪ own.toFinset := by
  obtain ⟨bs, hp, hnames⟩ := h.placed
  rw [hp.scope]
  exact Frame.names_append hnames

theorem Binds.append (h : Binds r own nested code r₁) (h' : Binds r₁ own' nested' rest r₂) :
    Binds r (own ++ own') (nested ++ nested') (code ++ rest) r₂ := by
  obtain ⟨bs, hp, hbs⟩ := h.placed
  obtain ⟨bs', hp', hbs'⟩ := h'.placed
  refine ⟨⟨bs ++ bs', hp.append hp', by rw [List.map_append, hbs, hbs', List.map_append]⟩, ?_⟩
  rw [CellCode.varCells_append, List.length_append, h.count, h'.count, List.length_append, List.length_append]
  omega

/-- Code that takes no cell. -/
theorem Binds.of_placed (h : Placed r [] code r') (hvar : code.varCells = []) : Binds r [] [] code r' :=
  ⟨⟨[], h, rfl⟩, by rw [hvar]; rfl⟩

theorem declare_binds {names : List Ident} (hr : r.Valid) (h : declare names r = .ok (code, r')) :
    Binds r (freshNames r.scope.inner.names names) [] code r' := by
  induction names generalizing r code with
  | nil =>
    obtain ⟨rfl, rfl⟩ := Prod.mk.inj (Except.ok.inj h)
    exact .of_placed (.of_named hr rfl (by simp [CellCode.cells])) rfl
  | cons i is ih =>
    obtain ⟨cell, r₁, rest, hd, hrest, rfl⟩ | ⟨name, rest, hd, hrest, rfl⟩ := declare_cons_ok h
    · have hdef := Resolver.extends_define hr hd
      obtain ⟨hnew, hnames⟩ := Resolver.names_define_some hd
      have hnew : i.name ∉ r.scope.inner.names := hnew
      have hinner : r₁.scope.inner.names = insert i.name r.scope.inner.names := congrArg Checker.Names.inner hnames
      have hfirst : Binds r [i.name] [] (.op (.declared cell) .empty) r₁ :=
        ⟨⟨[⟨some i.name, cell⟩], ⟨hdef, by simp [CellCode.cells, CellOp.cell?]⟩, rfl⟩, rfl⟩
      rw [freshNames, if_neg hnew, ← hinner]
      exact hfirst.append (ih hdef.valid hrest)
    · have hfirst : Binds r [] [] (.op (.mark ⟨.redefined, .ident i⟩) .empty) r :=
        .of_placed (.of_named hr rfl (by simp [CellCode.cells, CellOp.cell?])) rfl
      have hknown : i.name ∈ r.scope.inner.names := Resolver.mem_names_of_define hd
      rw [freshNames, if_pos hknown]
      exact hfirst.append (ih hr hrest)

/-- Code around a part that binds nothing and takes all the cells. -/
theorem Binds.around {inner : CellCode} (h : Placed r [] code r') (hvar : code.varCells = inner.varCells)
    (hb : Binds r₁ [] nested inner r₂) : Binds r [] nested code r' :=
  ⟨⟨[], h, rfl⟩, by rw [hvar, hb.count]⟩

section

variable {subject : Ident} {body : Resolver → Except Fault (CellCode × Resolver)}
  (own : Finset String → List String)
  (hbody : ∀ {r code r'}, r.Valid → body r = .ok (code, r') → Binds r (own r.scope.inner.names) nested code r')

include hbody

/-- The names of a block are bound in a frame of its own, which knows none before. -/
theorem block_binds (hr : r.Valid) (h : block body r = .ok (code, r')) :
    Binds r [] (own ∅ ++ nested) code r' := by
  have hplaced {r code r'} (hr : r.Valid) (h : body r = .ok (code, r')) : ∃ bs, Placed r bs code r' := by
    obtain ⟨bs, hp, -⟩ := (hbody hr h).placed
    exact ⟨bs, hp⟩
  refine ⟨⟨[], block_placed hr hplaced h, rfl⟩, ?_⟩
  obtain ⟨r₁, hb, -⟩ := block_ok h
  have hcount := (hbody hr.enter hb).count
  have hnone : r.enter.scope.inner.names = ∅ := rfl
  rw [hnone] at hcount
  rw [hcount, List.length_append, List.length_nil, Nat.zero_add]

theorem loop_binds (hr : r.Valid) (h : loop subject body r = .ok (code, r')) :
    Binds r [] (own ∅ ++ nested) code r' := by
  have hplaced {r code r'} (hr : r.Valid) (h : body r = .ok (code, r')) : ∃ bs, Placed r bs code r' := by
    obtain ⟨bs, hp, -⟩ := (hbody hr h).placed
    exact ⟨bs, hp⟩
  have hp := loop_placed hplaced hr h
  obtain ⟨cell, inner, -, hb, rfl⟩ | ⟨guard, r₁, inner, r₂, -, hd, hb, -, rfl⟩ := loop_ok h
  · refine .around hp ?_ (block_binds own hbody hr hb)
    simp [CellCode.varCells, varCells_applyMark]
  · refine .around hp ?_ (block_binds own hbody (Resolver.extends_define hr hd).valid hb)
    have hreport := varCells_ofOps (report r subject) not_declared_of_report
    simp [CellCode.varCells, hreport]

theorem branch_binds (hr : r.Valid) (h : branch subject body r = .ok (code, r')) :
    Binds r [] (own ∅ ++ nested) code r' := by
  have hplaced {r code r'} (hr : r.Valid) (h : body r = .ok (code, r')) : ∃ bs, Placed r bs code r' := by
    obtain ⟨bs, hp, -⟩ := (hbody hr h).placed
    exact ⟨bs, hp⟩
  have hp := branch_placed hplaced hr h
  obtain ⟨cell, flag, r₁, scratch, r₂, r₃, inner, r₄, -, hf, hs, hrs, hb, -, rfl⟩ |
    ⟨flag, r₁, inner, r₂, -, hd, hb, -, rfl⟩ := branch_ok h
  · have hback := Resolver.extends_define_release (Resolver.extends_define hr hf).valid hs hrs
    refine .around hp ?_ (block_binds own hbody hback.valid hb)
    simp [CellCode.varCells, varCells_copy, clear, varCells_applyMark]
  · refine .around hp ?_ (block_binds own hbody (Resolver.extends_define hr hd).valid hb)
    have hreport := varCells_ofOps (report r subject) not_declared_of_report
    simp [CellCode.varCells, clear, hreport]

end

mutual

theorem statement_binds (s : Stmt) {r r' : Resolver} {code : CellCode} (hr : r.Valid)
    (h : statement s r = .ok (code, r')) :
    Binds r (s.ownNames r.scope.inner.names) s.nestedNames code r' := by
  match s with
  | .declare names =>
    rw [Stmt.ownNames, Stmt.nestedNames]
    exact declare_binds hr (by rwa [statement] at h)
  | .branch subject body =>
    rw [Stmt.ownNames, Stmt.nestedNames]
    exact branch_binds (fun known => Stmt.allOwnNames known body) (statements_binds body) hr
      (by rwa [statement] at h)
  | .loop subject body =>
    rw [Stmt.ownNames, Stmt.nestedNames]
    exact loop_binds (fun known => Stmt.allOwnNames known body) (statements_binds body) hr
      (by rwa [statement] at h)
  | .wrap inner =>
    rw [Stmt.ownNames, Stmt.nestedNames]
    exact statement_binds inner hr (by rwa [statement] at h)
  -- the others bind no name: it is enough that their cells are placed
  | .assign ts (.literal n) =>
    rw [statement] at h
    exact .of_placed (assignLiteral_placed hr h) (varCells_assign h)
  | .assign ts (.ident i) =>
    rw [statement] at h
    exact .of_placed (assignIdent_placed hr h) (varCells_assign h)
  | .print names | .read names =>
    rw [statement] at h
    obtain ⟨rfl, rfl⟩ := Prod.mk.inj (Except.ok.inj h)
    exact .of_placed (pass_placed hr fun c => rfl) (varCells_pass fun c => rfl)
  | .define _ _ _ | .call _ _ | .bare _ | .invalid _ =>
    rw [statement] at h
    obtain ⟨rfl, rfl⟩ := Prod.mk.inj (Except.ok.inj h)
    exact .of_placed (.of_named hr rfl (by simp [CellCode.cells, CellOp.cell?])) rfl

/-- **Planning binds the names that the program defines**, and takes a cell for each. -/
theorem statements_binds (ss : List Stmt) {r r' : Resolver} {code : CellCode} (hr : r.Valid)
    (h : statements ss r = .ok (code, r')) :
    Binds r (Stmt.allOwnNames r.scope.inner.names ss) (Stmt.allNestedNames ss) code r' := by
  match ss with
  | [] =>
    rw [statements] at h
    obtain ⟨rfl, rfl⟩ := Prod.mk.inj (Except.ok.inj h)
    exact .of_placed (.of_named hr rfl (by simp [CellCode.cells])) rfl
  | s :: ss =>
    obtain ⟨first, r₁, rest, hs, hss, rfl⟩ := statements_cons_ok h
    have hfirst := statement_binds s hr hs
    have hrest := statements_binds ss hfirst.valid hss
    rw [hfirst.names] at hrest
    rw [Stmt.allOwnNames, Stmt.allNestedNames]
    exact hfirst.append hrest

end

end Plan

/-- **In every state of a session, generation either succeeds or runs out of cells.** If it succeeds, no loop
and no block is left open and no temporary is left bound: the innermost frame has got the names that the program
defines there, in their order, and beyond what was taken before there is one taken cell for each name that it
defines anywhere. If it does not, all blocks that it entered have been left. -/
theorem generation_balanced {g : Generator} (hg : g.Reachable) (program : List Stmt) :
    (∃ g' bs, Generate.statements program g = .ok () g' ∧
      g'.assembler.openLoops = g.assembler.openLoops ∧
      g'.resolver.scope = ⟨g.resolver.scope.inner ++ bs, g.resolver.scope.outer⟩ ∧
      bs.map Binding.name = (Stmt.allOwnNames g.resolver.scope.inner.names program).map some ∧
      g'.resolver.memory.used = g.resolver.memory.used +
        (Stmt.allOwnNames g.resolver.scope.inner.names program).length +
        (Stmt.allNestedNames program).length) ∨
    ∃ g', Generate.statements program g = .error (.exhausted g.resolver.memory.size) g' ∧
      g'.resolver.scope.frames.length = g.resolver.scope.frames.length := by
  have hvalid := hg.valid
  obtain ⟨code, r', hplan, hrun, -⟩ | ⟨e, g', hplan, hrun, houter⟩ :=
    Generate.statements_follow program g.resolver g.assembler
  · have hbinds := Plan.statements_binds program hvalid hplan
    obtain ⟨bs, hplaced, hnames⟩ := hbinds.placed
    refine .inl ⟨_, bs, hrun, rfl, hplaced.scope, hnames, ?_⟩
    rw [Nat.add_assoc, ← hbinds.count]
    exact hplaced.used
  · obtain rfl := Plan.statements_exhausts program hvalid e hplan
    refine .inr ⟨g', hrun, ?_⟩
    rw [Scope.frames, List.length_cons, houter, Scope.frames, List.length_cons]

/-- A session with a block and a loop left open and with a generation that ran out of cells inside a
branch, whose loop is open and whose flag is held ever since. -/
def strainedSession : List Generator.Op :=
  [.generate [.declare [⟨.none, "$a"⟩]], .resolver .enter, .assembler (.openLoop 0)] ++
    List.replicate 4 (.resolver (.define none)) ++
    [.generate [.branch ⟨.none, "$a"⟩ [.declare [⟨.none, "$b"⟩, ⟨.none, "$c"⟩]]]] ++
    [1, 2, 3, 4].map fun cell => .resolver (.release cell)

/-- A program that shadows a name, declares a name twice, and declares one in a loop whose subject is not
defined. -/
def shadowingProgram : List Stmt :=
  [.declare [⟨.none, "$a"⟩, ⟨.none, "$b"⟩, ⟨.none, "$a"⟩], .assign [⟨.floor, "$a"⟩, ⟨.plus, "$b"⟩] (.literal 3),
    .wrap (.loop ⟨.minus, "$u"⟩ [.declare [⟨.none, "$a"⟩], .bare (.literal 1)])]

theorem generation_balanced_strained :
    ∃ g, Generator.ofSize 7 false = .ok g ∧ (g.afterAll strainedSession).Reachable ∧
      ∃ g', Generate.statements shadowingProgram (g.afterAll strainedSession) = .ok () g' ∧
        g'.assembler.openLoops = [5, 0] ∧ g'.resolver.scope.inner.map Binding.name = [none, some "$a", some "$b"] ∧
        g'.resolver.memory.used = 6 := by
  -- what the session leaves, and how generation ends there, found by running them
  have hrun : ((Generator.ofSize 7 false).map fun g =>
      let g := g.afterAll strainedSession
      (g.assembler.openLoops, g.resolver.scope.inner, g.resolver.memory.used,
        (g.perform (.generate shadowingProgram)).1)) = .ok ([5, 0], [⟨none, 5⟩], 3, .ok none) := by
    decide +kernel
  cases hg : Generator.ofSize 7 false with
  | error e =>
    rw [hg] at hrun
    cases hrun
  | ok g =>
    have hreach := (Generator.Reachable.start hg).afterAll strainedSession
    simp only [hg, Except.map, Except.ok.injEq, Prod.mk.injEq] at hrun
    obtain ⟨hloops, hinner, hused, hend⟩ := hrun
    refine ⟨g, rfl, hreach, ?_⟩
    obtain ⟨g', bs, hok, hloops', hscope, hnames, hused'⟩ | ⟨g', herror, -⟩ :=
      generation_balanced hreach shadowingProgram
    · have hown : Stmt.allOwnNames (Frame.names [⟨none, 5⟩]) shadowingProgram = ["$a", "$b"] := by decide +kernel
      have hnested : Stmt.allNestedNames shadowingProgram = ["$a"] := by decide +kernel
      rw [hinner, hown] at hnames
      rw [hused, hinner, hown, hnested] at hused'
      refine ⟨g', hok, hloops'.trans hloops, ?_, hused'⟩
      rw [hscope, hinner, List.map_append, hnames]
      rfl
    · simp [Generator.perform, herror] at hend

end TapeCompiler
