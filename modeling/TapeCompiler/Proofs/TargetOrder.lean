import Mathlib.Data.List.Sort
import TapeCompiler.Proofs.Assignment
import TapeCompiler.Proofs.CellCode.Ring
import TapeCompiler.Proofs.Machine.Brackets
import TapeCompiler.Proofs.Session

/-!
# The order of targets

The targets of an assignment are taken by ascending cell. Two names never share a cell, so without a repeated name
nothing is left of the order in which they are written but the remark. Targets with one name keep their order; but all
that is done to a cell is to set it to zero before the loop, and to add to it in the loop.

* `Plan.sortTargets_eq_of_perm`: names that are not repeated are sorted in one way only.
* `Plan.clearAll_sortTargets`: the same cells are set to zero, in the same order.
* `Plan.run_moveInto_sorted`: **the value is moved in the same way on every tape.**
* `SameEffect`: two programs do the same.
* `target_order_irrelevant`: **the order of the targets of an assignment does not matter.**
-/

namespace TapeCompiler

namespace Plan

variable {ts us : List (Int × Ident)} {is js : List Ident} {r : Resolver}

/-! ## Sorting -/

theorem sortTargets_eq_insertionSort (ts : List (Int × Ident)) :
    Generate.sortTargets ts = ts.insertionSort fun t u => t.1 ≤ u.1 := by
  have hinsert (t : Int × Ident) (us : List (Int × Ident)) :
      Generate.insertTarget t us = us.orderedInsert (fun t u => t.1 ≤ u.1) t := by
    induction us with
    | nil => rfl
    | cons u us ih => rw [Generate.insertTarget, List.orderedInsert, ih]
  induction ts with
  | nil => rfl
  | cons t ts ih =>
    show Generate.insertTarget t (Generate.sortTargets ts) = _
    rw [hinsert, ih]
    rfl

theorem pairwise_sortTargets (ts : List (Int × Ident)) :
    (Generate.sortTargets ts).Pairwise fun t u => t.1 ≤ u.1 := by
  have : Std.Total fun t u : Int × Ident => t.1 ≤ u.1 := ⟨fun t u => Int.le_total t.1 u.1⟩
  have : IsTrans (Int × Ident) fun t u => t.1 ≤ u.1 := ⟨fun _ _ _ => Int.le_trans⟩
  rw [sortTargets_eq_insertionSort]
  exact List.pairwise_insertionSort _ ts

theorem sortTargets_perm_sortTargets (h : ts.Perm us) : (Generate.sortTargets ts).Perm (Generate.sortTargets us) :=
  (sortTargets_perm ts).trans (h.trans (sortTargets_perm us).symm)

/-- **Names that are not repeated are sorted in one way only**, since they have different cells. -/
theorem sortTargets_eq_of_perm (hr : r.Valid) (hperm : is.Perm js) (hnodup : (is.map Ident.name).Nodup) :
    Generate.sortTargets (targets r is) = Generate.sortTargets (targets r js) := by
  refine List.Perm.eq_of_pairwise ?_ (pairwise_sortTargets _) (pairwise_sortTargets _)
    (sortTargets_perm_sortTargets (hperm.filterMap _))
  intro t u ht hu hle hge
  obtain ⟨hti, htcell⟩ := lookup_of_mem_targets ((sortTargets_perm _).subset ht)
  obtain ⟨huj, hucell⟩ := lookup_of_mem_targets ((sortTargets_perm _).subset hu)
  have hcell : t.1 = u.1 := Int.le_antisymm hle hge
  have hname : t.2.name = u.2.name := hr.lookup_inj htcell (hcell ▸ hucell)
  exact Prod.ext hcell (List.inj_on_of_nodup_map hnodup hti (hperm.mem_iff.2 huj) hname)

/-! ## Moving -/

theorem clearAll_eq_foldr (ts : List (Int × Ident)) :
    clearAll ts = (plainCells ts).foldr (fun cell code => clear cell ++ code) .empty := by
  induction ts with
  | nil => rfl
  | cons t ts ih =>
    obtain ⟨cell, i⟩ := t
    unfold clearAll plainCells
    by_cases hmark : i.mark = .none
    · rw [if_pos hmark, ih, List.filter_cons_of_pos (by simpa using hmark)]
      rfl
    · rw [if_neg hmark, ih, List.filter_cons_of_neg (by simpa using hmark)]
      rfl

/-- The same cells are set to zero, in the same order. -/
theorem clearAll_sortTargets (h : ts.Perm us) :
    clearAll (Generate.sortTargets ts) = clearAll (Generate.sortTargets us) := by
  have hsorted (ts : List (Int × Ident)) : (plainCells (Generate.sortTargets ts)).Pairwise (· ≤ ·) := by
    rw [plainCells, List.pairwise_map]
    exact (pairwise_sortTargets ts).filter _
  have hcells : (plainCells (Generate.sortTargets ts)).Perm (plainCells (Generate.sortTargets us)) :=
    ((sortTargets_perm_sortTargets h).filter _).map _
  rw [clearAll_eq_foldr, clearAll_eq_foldr,
    hcells.eq_of_pairwise (fun _ _ _ _ => Int.le_antisymm) (hsorted ts) (hsorted us)]

theorem diagnostics_moveInto_perm (source : Int) (h : ts.Perm us) :
    (moveInto source ts).diagnostics.Perm (moveInto source us).diagnostics := by
  have hmoved (ts : List (Int × Ident)) :
      (moveInto source ts).diagnostics = (misplaced ts).filterMap CellOp.diagnostic? := by
    rw [moveInto, CellCode.diagnostics_append, CellCode.diagnostics_append, diagnostics_clearAll, diagnostics_transfer,
      CellCode.diagnostics_ofOps, List.nil_append, List.append_nil]
  rw [hmoved, hmoved]
  exact (misplaced_perm h).filterMap _

theorem headAfter_moveInto (source : Int) (ts : List (Int × Ident)) (head : Int) :
    (moveInto source ts).headAfter head = source := by
  rw [moveInto, CellCode.headAfter_append]
  rfl

/-- **The value is moved in the same way on every tape**, whatever the order of the targets. -/
theorem run_moveInto_sorted (h : ts.Perm us) (hplaced : misplaced us = []) (source head : Int) {s t : Config}
    (hs : s.OnTape) :
    ((moveInto source (Generate.sortTargets ts)).tree head).Run s t ↔
      ((moveInto source (Generate.sortTargets us)).tree head).Run s t := by
  have hsorted := sortTargets_perm_sortTargets h
  have hplaced' := misplaced_eq_nil_of_perm (sortTargets_perm us) hplaced
  rw [moveInto, moveInto, misplaced_eq_nil_of_perm hsorted hplaced', hplaced', clearAll_sortTargets h]
  -- the cells are set to zero in one and the same way, and what is left is the loop
  rw [CellCode.tree_append, CellCode.tree_append _ _ (transfer source (steps (Generate.sortTargets us))),
    LoopTree.run_append, LoopTree.run_append]
  refine exists_congr fun u => and_congr_right fun hu => ?_
  exact run_transfer_perm (hsorted.filterMap _) source (hu.onTape hs)

end Plan

/-! ## Programs that do the same -/

/-- A machine at the start of a program, with a configuration. -/
def Config.start (s : Config) (text : String) : Machine where
  tape := s.tape
  pointer := s.pointer
  program := (TapeOp.program text).toArray
  partners := (pairUp (TapeOp.program text)).2
  pc := 0
  input := s.input
  output := s.output
  steps := 0

/-- A machine goes on for ever, and no step is refused. -/
def Machine.Diverges (m : Machine) : Prop :=
  ∀ n, (m.after n).step.1 = .ok () ∧ (m.after n).finished = false

/-- Two programs do the same: both are balanced or neither is; and if they are, then on every tape both end in the same
configuration, or both go on for ever. -/
structure SameEffect (text text' : String) : Prop where
  balanced : Balanced (TapeOp.program text) ↔ Balanced (TapeOp.program text')
  ends : Balanced (TapeOp.program text) → ∀ s : Config, s.OnTape →
    (∃ m m', (s.start text).HaltsIn m ∧ (s.start text').HaltsIn m' ∧ m.config = m'.config) ∨
      (s.start text).Diverges ∧ (s.start text').Diverges

theorem Machine.diverges_of_not_halts {m : Machine} {b : LoopTree} (h : m.Starts b) (hnever : ∀ m', ¬ m.HaltsIn m') :
    m.Diverges := by
  intro n
  refine ⟨step_after_ok h n, ?_⟩
  by_contra hfinished
  exact hnever _ ((haltsIn_iff_after h (m.after n)).2 ⟨by simpa using hfinished, n, rfl⟩)

theorem LoopTree.balanced_ops (b : LoopTree) : Balanced b.ops := by
  obtain ⟨table, hpairs, -⟩ := pairUp_ops b
  exact pairUp_ok_iff.1 (by rw [hpairs])

/-- Programs that spell trees do the same if the trees do. -/
theorem SameEffect.of_trees {text text' : String} {b b' : LoopTree} (hb : b.ops = TapeOp.program text)
    (hb' : b'.ops = TapeOp.program text') (hrun : ∀ s t : Config, s.OnTape → (b.Run s t ↔ b'.Run s t)) :
    SameEffect text text' := by
  refine ⟨⟨fun _ => hb' ▸ b'.balanced_ops, fun _ => hb ▸ b.balanced_ops⟩, ?_⟩
  intro _ s hs
  have hstarts : (s.start text).Starts b := Machine.Loaded.starts ⟨rfl, rfl, rfl⟩ hb hs
  have hstarts' : (s.start text').Starts b' := Machine.Loaded.starts ⟨rfl, rfl, rfl⟩ hb' hs
  by_cases hends : ∃ t, b.Run s t
  · obtain ⟨t, ht⟩ := hends
    obtain ⟨m, hm, hmt⟩ := (Machine.haltsIn_iff_run hstarts t).2 ht
    obtain ⟨m', hm', hmt'⟩ := (Machine.haltsIn_iff_run hstarts' t).2 ((hrun s t hs).1 ht)
    exact .inl ⟨m, m', hm, hm', hmt.trans hmt'.symm⟩
  · refine .inr ⟨Machine.diverges_of_not_halts hstarts ?_, Machine.diverges_of_not_halts hstarts' ?_⟩
    · intro m hm
      exact hends ⟨_, (Machine.haltsIn_iff_run hstarts _).1 ⟨m, hm, rfl⟩⟩
    · intro m hm
      exact hends ⟨_, (hrun s _ hs).2 ((Machine.haltsIn_iff_run hstarts' _).1 ⟨m, hm, rfl⟩)⟩

theorem SameEffect.refl (text : String) : SameEffect text text := by
  by_cases hbalanced : Balanced (TapeOp.program text)
  · obtain ⟨b, hb⟩ := exists_tree_of_balanced hbalanced
    exact .of_trees hb hb fun _ _ _ => Iff.rfl
  · exact ⟨Iff.rfl, fun h => absurd h hbalanced⟩

theorem Plan.quiet_moveInto {r : Resolver} {is : List Ident} (hmarks : ∀ i ∈ is, i.mark ≠ .floor) {before : CellCode}
    (hbefore : before.diagnostics = []) (source : Int) :
    (before ++ moveInto source (Generate.sortTargets (targets r is))).Quiet := by
  apply CellCode.quiet_of_nil
  rw [CellCode.diagnostics_append, hbefore, diagnostics_moveInto source hmarks]
  rfl

/-- Behind the same operations, the code that moves a value does the same for targets in any order. -/
theorem Plan.sameEffect_moveInto {r : Resolver} {is js : List Ident} (hperm : is.Perm js)
    (hmarks : ∀ i ∈ is, i.mark ≠ .floor) {before : CellCode} (hbefore : before.diagnostics = []) (source : Int)
    (comments : Bool) (head : Int) :
    SameEffect
      (codeText ((before ++ moveInto source (Generate.sortTargets (targets r is))).instructions comments head))
      (codeText ((before ++ moveInto source (Generate.sortTargets (targets r js))).instructions comments head)) := by
  have hmarks' : ∀ j ∈ js, j.mark ≠ .floor := fun j hj => hmarks j (hperm.mem_iff.2 hj)
  have hplaced : misplaced (targets r js) = [] := misplaced_eq_nil (diagnostics_moveInto source hmarks')
  refine .of_trees (CellCode.ops_tree comments head (quiet_moveInto hmarks hbefore source))
    (CellCode.ops_tree comments head (quiet_moveInto hmarks' hbefore source)) ?_
  intro s t hs
  rw [CellCode.tree_append, CellCode.tree_append, LoopTree.run_append, LoopTree.run_append]
  refine exists_congr fun u => and_congr_right fun hu => ?_
  exact run_moveInto_sorted (hperm.filterMap _) hplaced source _ (hu.onTape hs)

/-! ## Assignments -/

namespace Generator

variable {g : Generator} {is js : List Ident} {value : Operand}

/-- The remark in front of an assignment, if there are remarks. -/
def remark (g : Generator) (targets : List Ident) (value : Operand) : List Instruction :=
  if g.assembler.comments then [.comment (TapeOp.sanitize (Stmt.assign targets value).text)] else []

theorem codeText_remark (g : Generator) (targets : List Ident) (value : Operand) (rest : List Instruction) :
    codeText (g.remark targets value ++ rest) = codeText rest := by
  unfold remark
  split
  · simp [codeText, Instruction.code]
  · rfl

theorem instructions_remark (r : Resolver) (rest : CellCode) :
    (⟨r, g.assembler.assemble (.op (.comment (Stmt.assign is value).text) rest)⟩ : Generator).instructions =
      g.instructions ++ (g.remark is value ++ rest.instructions g.assembler.comments g.assembler.position) := rfl

theorem perform_assign {code : CellCode} {r : Resolver} (h : Plan.assign is value g.resolver = .ok (code, r)) :
    g.perform (.generate [.assign is value]) = (.ok none, ⟨r, g.assembler.assemble code⟩) := by
  have hstatement : Generate.statements [.assign is value] g = .ok () ⟨r, g.assembler.assemble code⟩ := by
    rw [Generate.statements, Generate.bind_of_ok (Generate.assign_of_plan h)]
    rfl
  rw [perform, hstatement]

/-- If the tape is too short for a literal then nothing but the remark is emitted. -/
theorem perform_assign_full {n : Int} {e : Fault} (h : g.resolver.define none = .error e) :
    g.perform (.generate [.assign is (.literal n)]) =
      (.error e, ⟨g.resolver, g.assembler.assemble (.op (.comment (Stmt.assign is (.literal n)).text) .empty)⟩) := by
  have htemporary (a : Assembler) : Generate.temporary ⟨g.resolver, a⟩ = .error e ⟨g.resolver, a⟩ := by
    rw [Generate.temporary, h]
  have hassign : Generate.assign is (.literal n) g = .error e
      ⟨g.resolver, g.assembler.assemble (.op (.comment (Stmt.assign is (.literal n)).text) .empty)⟩ := by
    rw [Generate.assign, Generate.bind_of_ok (Generate.emit_eq g.resolver g.assembler _), Assembler.comment_eq]
    exact Generate.bind_of_error (htemporary _)
  rw [perform, Generate.statements, Generate.statement, Generate.bind_of_error hassign]

/-- What two pieces of code for an assignment have in common, if they stand behind the remarks on its targets in two
orders: where they leave the head, how much they report, and what they do. -/
structure SameCode (g : Generator) (is : List Ident) (value : Operand) (rest rest' : CellCode) : Prop where
  eq_of_nodup : (is.map Ident.name).Nodup → rest = rest'
  headAfter : rest.headAfter g.assembler.position = rest'.headAfter g.assembler.position
  reports : rest.diagnostics.length = rest'.diagnostics.length
  effect : (∀ i ∈ is, i.mark ≠ .floor) →
    SameEffect (codeText (rest.instructions g.assembler.comments g.assembler.position))
      (codeText (rest'.instructions g.assembler.comments g.assembler.position))
  balanced : (∀ i ∈ is, i.mark ≠ .floor) → (g.sourceCell? value).isSome →
    Balanced (TapeOp.program (codeText (rest.instructions g.assembler.comments g.assembler.position)))

theorem SameCode.refl_of_unknown (hsource : g.sourceCell? value = none) (rest : CellCode) :
    g.SameCode is value rest rest :=
  ⟨fun _ => rfl, rfl, rfl, fun _ => .refl _, fun _ h => by simp [hsource] at h⟩

/-- The code of an assignment whose names are all known. -/
theorem sameCode_of_known (hr : g.resolver.Valid) (hperm : is.Perm js) (source : Int) : g.SameCode is value
    (.ofOps (Plan.fill source value) ++ Plan.moveInto source (Generate.sortTargets (Plan.targets g.resolver is)))
    (.ofOps (Plan.fill source value) ++ Plan.moveInto source (Generate.sortTargets (Plan.targets g.resolver js))) := by
  have hfill : (CellCode.ofOps (Plan.fill source value)).diagnostics = [] := by
    cases value <;> rfl
  refine ⟨fun hnodup => ?_, ?_, ?_, fun hmarks => ?_, fun hmarks _ => ?_⟩
  · rw [Plan.sortTargets_eq_of_perm hr hperm hnodup]
  · rw [CellCode.headAfter_append, CellCode.headAfter_append, Plan.headAfter_moveInto, Plan.headAfter_moveInto]
  · have hreports := Plan.diagnostics_moveInto_perm source
      (Plan.sortTargets_perm_sortTargets (hperm.filterMap fun i => (g.resolver.lookup? i.name).map (·, i)))
    rw [CellCode.diagnostics_append, CellCode.diagnostics_append, hfill]
    exact hreports.length_eq
  · exact Plan.sameEffect_moveInto hperm hmarks hfill source _ _
  · have hops := CellCode.ops_tree g.assembler.comments g.assembler.position
      (Plan.quiet_moveInto (r := g.resolver) hmarks hfill source)
    unfold operations at hops
    rw [← hops]
    exact LoopTree.balanced_ops _

end Generator

/-- **The order of the targets of an assignment does not matter.** Let the targets be known, in any state of a session.
Written in another order they give the same result, and but for the remark the same instructions if no name is repeated.
In any case they leave the same names and cells and the same state of the assembler; and if no target has a mark that
only makes sense elsewhere, then the two pieces of code do the same on every tape, also where names are repeated and the
source is among the targets. -/
theorem target_order_irrelevant {g : Generator} (hg : g.Reachable) {is js : List Ident} (hperm : is.Perm js)
    (hnames : ∀ i ∈ is, ∃ cell, g.resolver.lookup? i.name = some cell) (value : Operand) :
    ∃ result g₁ g₂ rest₁ rest₂,
      g.perform (.generate [.assign is value]) = (result, g₁) ∧
      g.perform (.generate [.assign js value]) = (result, g₂) ∧
      g₁.instructions = g.instructions ++ (g.remark is value ++ rest₁) ∧
      g₂.instructions = g.instructions ++ (g.remark js value ++ rest₂) ∧
      ((is.map Ident.name).Nodup → rest₁ = rest₂) ∧
      g₁.resolver = g₂.resolver ∧ { g₁.assembler with emitted := g₂.assembler.emitted } = g₂.assembler ∧
      ((∀ i ∈ is, i.mark ≠ .floor) →
        SameEffect (codeText (g.remark is value ++ rest₁)) (codeText (g.remark js value ++ rest₂)) ∧
          ((g.sourceCell? value).isSome → Balanced (TapeOp.program (codeText (g.remark is value ++ rest₁))))) := by
  have hnames' : ∀ j ∈ js, ∃ cell, g.resolver.lookup? j.name = some cell := fun j hj =>
    hnames j (hperm.mem_iff.2 hj)
  suffices hcodes : ∃ result r rest rest', g.SameCode is value rest rest' ∧
      g.perform (.generate [.assign is value]) =
        (result, ⟨r, g.assembler.assemble (.op (.comment (Stmt.assign is value).text) rest)⟩) ∧
      g.perform (.generate [.assign js value]) =
        (result, ⟨r, g.assembler.assemble (.op (.comment (Stmt.assign js value).text) rest')⟩) by
    obtain ⟨result, r, rest, rest', hsame, hperform, hperform'⟩ := hcodes
    refine ⟨result, _, _, _, _, hperform, hperform', Generator.instructions_remark r rest,
      Generator.instructions_remark r rest', fun hnodup => by rw [hsame.eq_of_nodup hnodup], rfl, ?_, fun hmarks => ?_⟩
    · have hhead := hsame.headAfter
      have hreports := hsame.reports
      simp [Assembler.assemble, CellCode.headAfter, CellCode.diagnostics, CellOp.headAfter, hhead, hreports]
    · rw [Generator.codeText_remark, Generator.codeText_remark]
      exact ⟨hsame.effect hmarks, hsame.balanced hmarks⟩
  cases hsource : g.sourceCell? value with
  | some source =>
    obtain ⟨r, hplan⟩ := Plan.assign_of_known hsource
    exact ⟨.ok none, r, _, _, Generator.sameCode_of_known hg.valid hperm source,
      Generator.perform_assign (hplan is hnames), Generator.perform_assign (hplan js hnames')⟩
  | none =>
    -- nothing is moved: either the tape is full, or the source is not known
    cases value with
    | literal n =>
      cases hdefine : g.resolver.define none with
      | ok v => simp [Generator.sourceCell?, hdefine] at hsource
      | error e =>
        exact ⟨.error e, g.resolver, .empty, .empty, .refl_of_unknown hsource _, Generator.perform_assign_full hdefine,
          Generator.perform_assign_full hdefine⟩
    | ident i =>
      have hlookup : g.resolver.lookup? i.name = none := hsource
      have hplan {ks : List Ident} (hks : ∀ k ∈ ks, ∃ cell, g.resolver.lookup? k.name = some cell) :
          Plan.assign ks (.ident i) g.resolver =
            .ok (.op (.comment (Stmt.assign ks (.ident i)).text) (.ofOps (Plan.report g.resolver i)), g.resolver) := by
        simp [Plan.assign, hlookup, Plan.reports_eq_nil hks]
        rfl
      exact ⟨.ok none, g.resolver, _, _, .refl_of_unknown hsource _, Generator.perform_assign (hplan hnames),
        Generator.perform_assign (hplan hnames')⟩

/-- A session in which two variables were declared on a tape of four cells. -/
def pairDeclared : Generator :=
  (⟨⟨4, ⟨[false, false, false, false]⟩, .empty⟩, .new true⟩ : Generator).afterAll
    [.generate [.declare [⟨.none, "$a"⟩]], .resolver (.define (some "$b"))]

/-- `+$a, $b, -$a` -/
def addsFirst : List Ident :=
  [⟨.plus, "$a"⟩, ⟨.none, "$b"⟩, ⟨.minus, "$a"⟩]

/-- `-$a, +$a, $b` -/
def takesFirst : List Ident :=
  [⟨.minus, "$a"⟩, ⟨.plus, "$a"⟩, ⟨.none, "$b"⟩]

/-- With `$a` as the source, the loop adds to `$a` and takes from it again, or the other way round: the two pieces of
code differ and do the same. -/
theorem target_order_irrelevant_repeated :
    pairDeclared.Reachable ∧ addsFirst.Perm takesFirst ∧
    ∃ g₁ g₂ rest₁ rest₂,
      pairDeclared.perform (.generate [.assign addsFirst (.ident ⟨.none, "$a"⟩)]) = (.ok none, g₁) ∧
      pairDeclared.perform (.generate [.assign takesFirst (.ident ⟨.none, "$a"⟩)]) = (.ok none, g₂) ∧
      rest₁ ≠ rest₂ ∧
      g₁.instructions = pairDeclared.remark addsFirst (.ident ⟨.none, "$a"⟩) ++ rest₁ ∧
      g₂.instructions = pairDeclared.remark takesFirst (.ident ⟨.none, "$a"⟩) ++ rest₂ ∧
      SameEffect (codeText (pairDeclared.remark addsFirst (.ident ⟨.none, "$a"⟩) ++ rest₁))
        (codeText (pairDeclared.remark takesFirst (.ident ⟨.none, "$a"⟩) ++ rest₂)) := by
  have hstart : Generator.ofSize 4 true = .ok ⟨⟨4, ⟨[false, false, false, false]⟩, .empty⟩, .new true⟩ := by decide
  have hreachable : pairDeclared.Reachable := (Generator.Reachable.start hstart).afterAll _
  have hperm : addsFirst.Perm takesFirst := by decide
  have hnames : ∀ i ∈ addsFirst, ∃ cell, pairDeclared.resolver.lookup? i.name = some cell := by
    have hknown : ∀ i ∈ addsFirst, (pairDeclared.resolver.lookup? i.name).isSome := by decide
    intro i hi
    exact Option.isSome_iff_exists.1 (hknown i hi)
  obtain ⟨result, g₁, g₂, rest₁, rest₂, hperform₁, hperform₂, hcode₁, hcode₂, -, -, -, heffect⟩ :=
    target_order_irrelevant hreachable hperm hnames (.ident ⟨.none, "$a"⟩)
  have hresult : (pairDeclared.perform (.generate [.assign addsFirst (.ident ⟨.none, "$a"⟩)])).1 = .ok none := by
    decide +kernel
  have hdiffer : (pairDeclared.perform (.generate [.assign addsFirst (.ident ⟨.none, "$a"⟩)])).2.instructions.drop 1 ≠
      (pairDeclared.perform (.generate [.assign takesFirst (.ident ⟨.none, "$a"⟩)])).2.instructions.drop 1 := by
    decide +kernel
  have hnothing : pairDeclared.instructions = [] := by decide +kernel
  have hremark (is : List Ident) (value : Operand) : (pairDeclared.remark is value).length = 1 := by
    have hcomments : pairDeclared.assembler.comments = true := by decide +kernel
    rw [Generator.remark, if_pos hcomments]
    rfl
  rw [hnothing, List.nil_append] at hcode₁ hcode₂
  rw [hperform₁] at hresult
  rw [hperform₁, hperform₂, hcode₁, hcode₂, List.drop_left' (hremark _ _), List.drop_left' (hremark _ _)] at hdiffer
  rw [show result = .ok none from hresult] at hperform₁ hperform₂
  exact ⟨hreachable, hperm, g₁, g₂, rest₁, rest₂, hperform₁, hperform₂, hdiffer, hcode₁, hcode₂,
    (heffect (by decide)).1⟩

end TapeCompiler
