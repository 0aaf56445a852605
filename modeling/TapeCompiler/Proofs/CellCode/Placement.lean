import TapeCompiler.Proofs.CellCode.Plan
import TapeCompiler.Proofs.Resolver

/-!
# The cells of a plan

The code of a plan works on cells that have a name where it begins, and on cells that are free there.
Behind it just the cells of its declarations are taken as well.

* `Plan.Placed`: code between two resolvers.
* `Plan.statements_placed`: **the code of statements is placed.**
* `plan_within`: a program works on cells of its tape.
-/

namespace TapeCompiler

namespace Plan

/-! ## The cells of the building blocks -/

theorem insertTarget_perm (t : Int × Ident) (ts : List (Int × Ident)) :
    (Generate.insertTarget t ts).Perm (t :: ts) := by
  induction ts with
  | nil => exact .refl _
  | cons u us ih =>
    unfold Generate.insertTarget
    split
    · exact .refl _
    · exact (ih.cons u).trans (.swap t u us)

theorem sortTargets_perm (ts : List (Int × Ident)) : (Generate.sortTargets ts).Perm ts := by
  induction ts with
  | nil => exact .refl _
  | cons t ts ih => exact (insertTarget_perm t _).trans (ih.cons t)

theorem lookup_of_mem_targets {r : Resolver} {is : List Ident} {t : Int × Ident}
    (h : t ∈ targets r is) : t.2 ∈ is ∧ r.lookup? t.2.name = some t.1 := by
  obtain ⟨i, hi, ht⟩ := List.mem_filterMap.1 h
  obtain ⟨cell, hl, rfl⟩ := Option.map_eq_some_iff.1 ht
  exact ⟨hi, hl⟩

theorem cells_ofOps (os : List CellOp) :
    (CellCode.ofOps os).cells = os.flatMap fun o => o.cell?.toList := by
  induction os with
  | nil => rfl
  | cons o os ih => exact congrArg (o.cell?.toList ++ ·) ih

theorem varCells_ofOps (os : List CellOp) (h : ∀ o ∈ os, ∀ cell, o ≠ .declared cell) :
    (CellCode.ofOps os).varCells = [] := by
  induction os with
  | nil => rfl
  | cons o os ih =>
    have ho := h o List.mem_cons_self
    have hos := ih fun p hp => h p (List.mem_cons_of_mem _ hp)
    cases o with
    | declared cell => exact absurd rfl (ho cell)
    | _ => exact hos

theorem mem_cells_clear {cell c : Int} : c ∈ (clear cell).cells ↔ c = cell := by
  simp [clear, CellCode.cells, CellOp.cell?]

theorem mem_cells_transfer {source c : Int} {steps : List (Int × Int)}
    (h : c ∈ (transfer source steps).cells) : c = source ∨ ∃ t ∈ steps, t.1 = c := by
  simp only [transfer, CellCode.cells, cells_ofOps, CellOp.cell?, List.flatMap_map,
    List.append_nil, Option.toList_some, List.mem_cons, List.mem_append, List.mem_flatMap,
    List.not_mem_nil, or_false] at h
  rcases h with h | h | ⟨t, ht, h⟩
  · exact .inl h
  · exact .inl h
  · exact .inr ⟨t, ht, h.symm⟩

theorem mem_cells_copy {source target scratch c : Int} (h : c ∈ (copy source target scratch).cells) :
    c = source ∨ c = target ∨ c = scratch := by
  rw [copy, CellCode.cells_append, List.mem_append] at h
  rcases h with h | h
  · rcases mem_cells_transfer h with h | ⟨t, ht, rfl⟩
    · exact .inl h
    · simp only [List.mem_cons, List.not_mem_nil, or_false] at ht
      rcases ht with rfl | rfl <;> simp
  · rcases mem_cells_transfer h with h | ⟨t, ht, rfl⟩
    · exact .inr (.inr h)
    · simp only [List.mem_cons, List.not_mem_nil, or_false] at ht
      rw [ht]; simp

theorem mem_cells_clearAll {c : Int} {ts : List (Int × Ident)} (h : c ∈ (clearAll ts).cells) :
    ∃ t ∈ ts, t.1 = c := by
  induction ts with
  | nil => simp [clearAll, CellCode.cells] at h
  | cons t ts ih =>
    obtain ⟨cell, i⟩ := t
    unfold clearAll at h
    have hrest : c ∈ (clearAll ts).cells → ∃ t ∈ (cell, i) :: ts, t.1 = c := by
      intro h
      obtain ⟨u, hu, huc⟩ := ih h
      exact ⟨u, List.mem_cons_of_mem _ hu, huc⟩
    split at h
    · rw [CellCode.cells_append, List.mem_append, mem_cells_clear] at h
      rcases h with rfl | h
      · exact ⟨(c, i), List.mem_cons_self, rfl⟩
      · exact hrest h
    · exact hrest h

theorem exists_of_mem_steps {t : Int × Int} {ts : List (Int × Ident)} (h : t ∈ steps ts) :
    ∃ u ∈ ts, u.1 = t.1 := by
  obtain ⟨u, hu, ht⟩ := List.mem_filterMap.1 h
  obtain ⟨n, -, rfl⟩ := Option.map_eq_some_iff.1 ht
  exact ⟨u, hu, rfl⟩

theorem mem_cells_moveInto {source c : Int} {ts : List (Int × Ident)}
    (h : c ∈ (moveInto source ts).cells) : c = source ∨ ∃ t ∈ ts, t.1 = c := by
  have hmisplaced : (CellCode.ofOps (misplaced ts)).cells = [] := by
    rw [cells_ofOps, misplaced, List.flatMap_map]
    simp [CellOp.cell?]
  rw [moveInto, CellCode.cells_append, CellCode.cells_append, hmisplaced, List.append_nil,
    List.mem_append] at h
  rcases h with h | h
  · exact .inr (mem_cells_clearAll h)
  · rcases mem_cells_transfer h with h | ⟨t, ht, rfl⟩
    · exact .inl h
    · exact .inr (exists_of_mem_steps ht)

theorem mem_cells_applyMark {subject : Ident} {cell c : Int}
    (h : c ∈ (applyMark subject cell).cells) : c = cell := by
  unfold applyMark at h
  cases hm : subject.mark with
  | none => simp [hm, CellCode.cells] at h
  | plus | minus | floor => simpa [hm, CellCode.cells, CellOp.cell?] using h

theorem cells_report (r : Resolver) (i : Ident) : ∀ o ∈ report r i, o.cell? = none := by
  unfold report
  cases r.lookup? i.name <;> simp [CellOp.cell?]

theorem cells_reports (r : Resolver) (is : List Ident) : ∀ o ∈ is.flatMap (report r), o.cell? = none := by
  intro o ho
  obtain ⟨i, -, hi⟩ := List.mem_flatMap.1 ho
  exact cells_report r i o hi

theorem varCells_clearAll (ts : List (Int × Ident)) : (clearAll ts).varCells = [] := by
  induction ts with
  | nil => rfl
  | cons t ts ih =>
    unfold clearAll
    split
    · rw [CellCode.varCells_append, ih]; rfl
    · exact ih

theorem varCells_transfer (source : Int) (steps : List (Int × Int)) :
    (transfer source steps).varCells = [] := by
  have h : (CellCode.ofOps (steps.map fun t => .add t.1 t.2)).varCells = [] :=
    varCells_ofOps _ (List.forall_mem_map.2 fun _ _ _ => by simp)
  simp [transfer, CellCode.varCells, h]

theorem varCells_moveInto (source : Int) (ts : List (Int × Ident)) :
    (moveInto source ts).varCells = [] := by
  have h : (CellCode.ofOps (misplaced ts)).varCells = [] :=
    varCells_ofOps _ (List.forall_mem_map.2 fun _ _ _ => by simp)
  simp [moveInto, varCells_clearAll, h, varCells_transfer]

theorem varCells_copy (source target scratch : Int) : (copy source target scratch).varCells = [] := rfl

theorem varCells_applyMark (subject : Ident) (cell : Int) : (applyMark subject cell).varCells = [] := by
  unfold applyMark
  cases subject.mark <;> rfl

theorem not_declared_of_report {r : Resolver} {i : Ident} :
    ∀ o ∈ report r i, ∀ cell, o ≠ .declared cell := by
  unfold report
  cases r.lookup? i.name <;> simp

theorem not_declared_of_reports {r : Resolver} {is : List Ident} :
    ∀ o ∈ is.flatMap (report r), ∀ cell, o ≠ .declared cell := by
  intro o ho
  obtain ⟨i, -, hi⟩ := List.mem_flatMap.1 ho
  exact not_declared_of_report o hi

/-! ## Placed code -/

/-- Code between two resolvers: it works on named and on free cells, and it leaves the cells of its
declarations taken. -/
structure Placed (r : Resolver) (bs : List Binding) (code : CellCode) (r' : Resolver) : Prop
    extends r.Extends bs code.varCells r' where
  touched : ∀ c ∈ code.cells, r.Named c ∨ (InTape r.memory.size c ∧ ¬ r.memory.Taken c)

variable {r r₁ r₂ r' : Resolver} {bs bs' : List Binding} {code rest : CellCode}

theorem Placed.append (h : Placed r bs code r₁) (h' : Placed r₁ bs' rest r₂) :
    Placed r (bs ++ bs') (code ++ rest) r₂ := by
  refine ⟨by rw [CellCode.varCells_append]; exact h.toExtends.trans h'.toExtends, fun c hc => ?_⟩
  rw [CellCode.cells_append, List.mem_append] at hc
  rcases hc with hc | hc
  · exact h.touched c hc
  · have hfresh (hc : c ∈ code.varCells) : InTape r.memory.size c ∧ ¬ r.memory.Taken c :=
      ⟨h.size ▸ ((h.taken c).2 (.inr hc)).inTape, h.fresh c hc⟩
    rcases h'.touched c hc with hn | ⟨htape, hfree⟩
    · rcases h.toExtends.named hn with hn | hnew
      · exact .inl hn
      · exact .inr (hfresh hnew)
    · exact .inr ⟨h.size ▸ htape, fun ht => hfree ((h.taken c).2 (.inl ht))⟩

/-- Code that works on named cells and declares nothing. -/
theorem Placed.of_named (hr : r.Valid) (hvar : code.varCells = []) (h : ∀ c ∈ code.cells, r.Named c) :
    Placed r [] code r :=
  ⟨by rw [hvar]; exact .refl hr, fun c hc => .inl (h c hc)⟩

theorem cells_declare {names : List Ident} (h : declare names r = .ok (code, r')) : code.cells = [] := by
  induction names generalizing r code with
  | nil =>
    obtain ⟨rfl, rfl⟩ := Prod.mk.inj (Except.ok.inj h)
    rfl
  | cons i is ih =>
    obtain ⟨cell, r₁, rest, -, hrest, rfl⟩ | ⟨name, rest, -, hrest, rfl⟩ := declare_cons_ok h
    · have hcells := ih hrest
      exact hcells
    · have hcells := ih hrest
      exact hcells

theorem declare_placed {names : List Ident} (hr : r.Valid) (h : declare names r = .ok (code, r')) :
    ∃ bs, Placed r bs code r' := by
  induction names generalizing r code with
  | nil =>
    obtain ⟨rfl, rfl⟩ := Prod.mk.inj (Except.ok.inj h)
    exact ⟨[], .of_named hr rfl (by simp [CellCode.cells])⟩
  | cons i is ih =>
    obtain ⟨cell, r₁, rest, hd, hrest, rfl⟩ | ⟨name, rest, hd, hrest, rfl⟩ := declare_cons_ok h
    · have hdef := Resolver.extends_define hr hd
      obtain ⟨bs, hp⟩ := ih hdef.valid hrest
      have hfirst : Placed r [⟨some i.name, cell⟩] (.op (.declared cell) .empty) r₁ :=
        ⟨hdef, by simp [CellCode.cells, CellOp.cell?]⟩
      exact ⟨_, hfirst.append hp⟩
    · obtain ⟨bs, hp⟩ := ih hr hrest
      have hfirst : Placed r [] (.op (.mark ⟨.redefined, .ident i⟩) .empty) r :=
        .of_named hr rfl (by simp [CellCode.cells, CellOp.cell?])
      exact ⟨_, hfirst.append hp⟩

theorem named_of_mem_moveInto {source c : Int} {is : List Ident}
    (h : c ∈ (moveInto source (Generate.sortTargets (targets r is))).cells) :
    c = source ∨ r.Named c := by
  rcases mem_cells_moveInto h with h | ⟨t, ht, rfl⟩
  · exact .inl h
  · rw [(sortTargets_perm _).mem_iff] at ht
    exact .inr (Resolver.named_of_lookup (lookup_of_mem_targets ht).2)

theorem ofOps_cells_nil (os : List CellOp) (h : ∀ o ∈ os, o.cell? = none) :
    (CellCode.ofOps os).cells = [] := by
  rw [cells_ofOps, List.flatMap_eq_nil_iff]
  intro o ho
  rw [h o ho]; rfl

theorem varCells_assign {ts : List Ident} {value : Operand} (h : assign ts value r = .ok (code, r')) :
    code.varCells = [] := by
  cases value with
  | literal n =>
    obtain ⟨source, r₁, -, -, rfl⟩ := assignLiteral_ok h
    have hvar := varCells_ofOps ([.comment (Stmt.assign ts (.literal n)).text, .add source n] ++ ts.flatMap (report r₁))
      (List.forall_mem_append.2 ⟨by simp, not_declared_of_reports⟩)
    rw [CellCode.varCells_append, hvar, varCells_moveInto]
    rfl
  | ident i =>
    obtain ⟨rfl, rfl⟩ := Prod.mk.inj (Except.ok.inj h)
    have hvar := varCells_ofOps (.comment (Stmt.assign ts (.ident i)).text ::
      (report r i ++ ts.flatMap (report r))) (List.forall_mem_cons.2 ⟨by simp,
        List.forall_mem_append.2 ⟨not_declared_of_report, not_declared_of_reports⟩⟩)
    rw [CellCode.varCells_append, hvar]
    cases r.lookup? i.name with
    | none => rfl
    | some source => exact varCells_moveInto source _

theorem mem_cells_assignLiteral {ts : List Ident} {remark : String} {n source c : Int}
    (h : c ∈ (CellCode.ofOps ([.comment remark, .add source n] ++ ts.flatMap (report r)) ++
      moveInto source (Generate.sortTargets (targets r ts))).cells) : c = source ∨ r.Named c := by
  rw [CellCode.ofOps_append, CellCode.cells_append, CellCode.cells_append,
    ofOps_cells_nil _ (cells_reports r ts), List.append_nil, List.mem_append] at h
  rcases h with h | h
  · exact .inl (by simpa [CellCode.ofOps, CellCode.cells, CellOp.cell?] using h)
  · exact named_of_mem_moveInto h

theorem assignLiteral_placed {ts : List Ident} {n : Int} (hr : r.Valid)
    (h : assign ts (.literal n) r = .ok (code, r')) : Placed r [] code r' := by
  have hvar := varCells_assign h
  obtain ⟨source, r₁, hd, hrel, rfl⟩ := assignLiteral_ok h
  have hdef := Resolver.extends_define hr hd
  have hfree : InTape r.memory.size source ∧ ¬ r.memory.Taken source :=
    ⟨hdef.size ▸ ((hdef.taken source).2 (.inr (by simp))).inTape, hdef.fresh source (by simp)⟩
  refine ⟨?_, fun c hc => ?_⟩
  · rw [hvar]
    exact Resolver.extends_define_release hr hd hrel
  · rcases mem_cells_assignLiteral hc with rfl | hc
    · exact .inr hfree
    · exact .inl ((hdef.named_iff (by simp)).1 hc)

theorem named_of_mem_assignIdent {ts : List Ident} {i : Ident} {c : Int}
    (h : assign ts (.ident i) r = .ok (code, r')) (hc : c ∈ code.cells) : r.Named c := by
  obtain ⟨rfl, rfl⟩ := Prod.mk.inj (Except.ok.inj h)
  have hcells := ofOps_cells_nil (.comment (Stmt.assign ts (.ident i)).text ::
    (report r i ++ ts.flatMap (report r))) (List.forall_mem_cons.2 ⟨rfl,
      List.forall_mem_append.2 ⟨cells_report r i, cells_reports r ts⟩⟩)
  rw [CellCode.cells_append, hcells, List.nil_append] at hc
  cases hl : r.lookup? i.name with
  | none => simp [hl, CellCode.cells] at hc
  | some source =>
    simp only [hl] at hc
    rcases named_of_mem_moveInto hc with rfl | hc
    · exact Resolver.named_of_lookup hl
    · exact hc

theorem assignIdent_placed {ts : List Ident} {i : Ident} (hr : r.Valid)
    (h : assign ts (.ident i) r = .ok (code, r')) : Placed r [] code r' := by
  have hvar := varCells_assign h
  have hnamed (c : Int) (hc : c ∈ code.cells) := named_of_mem_assignIdent h hc
  obtain ⟨rfl, rfl⟩ := Prod.mk.inj (Except.ok.inj h)
  exact .of_named hr hvar hnamed

theorem mem_pass {i : Ident} {reason : Reason} {o : Int → CellOp} {p : CellOp}
    (h : p ∈ pass r reason o i) :
    (∃ d, p = .mark d) ∨ ∃ cell, r.lookup? i.name = some cell ∧ p = o cell := by
  unfold pass report at h
  simp only [List.mem_append, Option.mem_toList, Option.map_eq_some_iff] at h
  rcases h with (h | h) | ⟨cell, hl, rfl⟩
  · split at h
    · exact .inl ⟨_, List.mem_singleton.1 h⟩
    · simp at h
  · split at h
    · simp at h
    · exact .inl ⟨_, List.mem_singleton.1 h⟩
  · exact .inr ⟨cell, hl, rfl⟩

theorem varCells_pass {names : List Ident} {reason : Reason} {o : Int → CellOp}
    (hcell : ∀ c, (o c).cell? = some c) :
    (CellCode.ofOps (names.flatMap (pass r reason o))).varCells = [] := by
  refine varCells_ofOps _ ?_
  rintro p hp cell rfl
  obtain ⟨i, -, hi⟩ := List.mem_flatMap.1 hp
  rcases mem_pass hi with ⟨d, hd⟩ | ⟨c, -, hc⟩
  · cases hd
  · simpa [← hc, CellOp.cell?] using hcell c

theorem named_of_mem_pass {names : List Ident} {reason : Reason} {o : Int → CellOp}
    (hcell : ∀ c, (o c).cell? = some c) {c : Int}
    (hc : c ∈ (CellCode.ofOps (names.flatMap (pass r reason o))).cells) : r.Named c := by
  rw [cells_ofOps] at hc
  obtain ⟨p, hp, hpc⟩ := List.mem_flatMap.1 hc
  obtain ⟨i, -, hi⟩ := List.mem_flatMap.1 hp
  rcases mem_pass hi with ⟨d, rfl⟩ | ⟨cell, hl, rfl⟩
  · simp [CellOp.cell?] at hpc
  · rw [hcell] at hpc
    obtain rfl := List.mem_singleton.1 hpc
    exact Resolver.named_of_lookup hl

theorem pass_placed {names : List Ident} {reason : Reason} {o : Int → CellOp} (hr : r.Valid)
    (hcell : ∀ c, (o c).cell? = some c) :
    Placed r [] (.ofOps (names.flatMap (pass r reason o))) r :=
  .of_named hr (varCells_pass hcell) fun _ hc => named_of_mem_pass hcell hc

/-- A block is placed as its statements are, and binds nothing. -/
theorem block_placed {body : Resolver → Except Fault (CellCode × Resolver)} (hr : r.Valid)
    (hbody : ∀ {r code r'}, r.Valid → body r = .ok (code, r') → ∃ bs, Placed r bs code r')
    (h : block body r = .ok (code, r')) : Placed r [] code r' := by
  obtain ⟨r₁, hb, hx⟩ := block_ok h
  obtain ⟨bs, hp⟩ := hbody hr.enter hb
  exact ⟨hp.toExtends.exit hx hr, fun c hc => (hp.touched c hc).imp_left (Resolver.named_enter c).1⟩

/-- What is placed while a temporary is held is placed around it as well. -/
theorem touched_of_temporary {cell : ℕ} (hr : r.Valid) (hd : r.define none = .ok (cell, r₁))
    {c : Int} (h : c = cell ∨ r₁.Named c ∨ (InTape r₁.memory.size c ∧ ¬ r₁.memory.Taken c)) :
    r.Named c ∨ (InTape r.memory.size c ∧ ¬ r.memory.Taken c) := by
  have hdef := Resolver.extends_define hr hd
  rcases h with rfl | h | ⟨htape, hfree⟩
  · exact .inr ⟨hdef.size ▸ ((hdef.taken cell).2 (.inr (by simp))).inTape, hdef.fresh cell (by simp)⟩
  · exact .inl ((hdef.named_iff (by simp)).1 h)
  · exact .inr ⟨hdef.size ▸ htape, fun ht => hfree ((hdef.taken c).2 (.inl ht))⟩

section

variable {subject : Ident} {body : Resolver → Except Fault (CellCode × Resolver)}
  (hbody : ∀ {r code r'}, r.Valid → body r = .ok (code, r') → ∃ bs, Placed r bs code r')

include hbody

theorem loop_placed (hr : r.Valid) (h : loop subject body r = .ok (code, r')) :
    Placed r [] code r' := by
  obtain ⟨cell, inner, hl, hb, rfl⟩ | ⟨guard, r₁, inner, r₂, hl, hd, hb, hrel, rfl⟩ := loop_ok h
  · have hp := block_placed hr hbody hb
    refine ⟨?_, fun c hc => ?_⟩
    · simpa [CellCode.varCells, varCells_applyMark] using hp.toExtends
    · simp only [CellCode.cells, CellCode.cells_append, List.append_nil, List.mem_cons,
        List.mem_append] at hc
      rcases hc with rfl | hc | hc
      · exact .inl (Resolver.named_of_lookup hl)
      · exact hp.touched c hc
      · rw [mem_cells_applyMark hc]
        exact .inl (Resolver.named_of_lookup hl)
  · have hdef := Resolver.extends_define hr hd
    have hp := block_placed hdef.valid hbody hb
    refine ⟨?_, fun c hc => touched_of_temporary hr hd ?_⟩
    · have hvar := varCells_ofOps (report r subject) not_declared_of_report
      simpa [CellCode.varCells, hvar] using hp.toExtends.release hr hd hrel
    · have hnil := ofOps_cells_nil (report r subject) (cells_report r subject)
      simp only [CellCode.cells_append, hnil, CellCode.cells, List.append_nil, List.nil_append,
        List.mem_cons] at hc
      exact hc.imp_right (hp.touched c)

theorem branch_placed (hr : r.Valid) (h : branch subject body r = .ok (code, r')) :
    Placed r [] code r' := by
  obtain ⟨cell, flag, r₁, scratch, r₂, r₃, inner, r₄, hl, hf, hs, hrs, hb, hrf, rfl⟩ |
    ⟨flag, r₁, inner, r₂, hl, hd, hb, hrel, rfl⟩ := branch_ok h
  · have hflag := Resolver.extends_define hr hf
    have hscratch := Resolver.extends_define hflag.valid hs
    have hback := Resolver.extends_define_release hflag.valid hs hrs
    have hp := block_placed hback.valid hbody hb
    have hcell : r₁.Named cell := (hflag.named_iff (by simp)).2 (Resolver.named_of_lookup hl)
    refine ⟨?_, fun c hc => touched_of_temporary hr hf ?_⟩
    · have hall := (hback.trans hp.toExtends).release hr hf hrf
      simpa [CellCode.varCells, varCells_copy, clear, varCells_applyMark] using hall
    · -- the block is placed with the scratch cell given back; what it touches is seen from where the flag is held
      have hinner : ∀ c ∈ inner.cells, r₁.Named c ∨ (InTape r₁.memory.size c ∧ ¬ r₁.memory.Taken c) := by
        intro c hc
        rcases hp.touched c hc with h | ⟨htape, hfree⟩
        · exact .inl ((hback.named_iff (by simp)).1 h)
        · exact .inr ⟨hback.size ▸ htape, fun ht => hfree ((hback.taken c).2 (.inl ht))⟩
      have hsc : InTape r₁.memory.size scratch ∧ ¬ r₁.memory.Taken scratch :=
        ⟨hscratch.size ▸ ((hscratch.taken scratch).2 (.inr (by simp))).inTape,
          hscratch.fresh scratch (by simp)⟩
      simp only [CellCode.cells, CellCode.cells_append, List.append_nil, List.mem_append, List.mem_cons,
        mem_cells_clear] at hc
      rcases hc with hc | rfl | (rfl | hc) | hc
      · rcases mem_cells_copy hc with rfl | rfl | rfl
        · exact .inr (.inl hcell)
        · exact .inl rfl
        · exact .inr (.inr hsc)
      · exact .inl rfl
      · exact .inl rfl
      · exact .inr (hinner c hc)
      · rw [mem_cells_applyMark hc]
        exact .inr (.inl hcell)
  · have hdef := Resolver.extends_define hr hd
    have hp := block_placed hdef.valid hbody hb
    refine ⟨?_, fun c hc => touched_of_temporary hr hd ?_⟩
    · have hvar := varCells_ofOps (report r subject) not_declared_of_report
      simpa [CellCode.varCells, clear, hvar] using hp.toExtends.release hr hd hrel
    · have hnil := ofOps_cells_nil (report r subject) (cells_report r subject)
      simp only [CellCode.cells_append, hnil, CellCode.cells, List.append_nil, List.nil_append,
        List.mem_cons, List.mem_append, mem_cells_clear] at hc
      rcases hc with rfl | rfl | hc
      · exact .inl rfl
      · exact .inl rfl
      · exact .inr (hp.touched c hc)

end

mutual

theorem statement_placed (s : Stmt) {r r' : Resolver} {code : CellCode} (hr : r.Valid)
    (h : statement s r = .ok (code, r')) : ∃ bs, Placed r bs code r' := by
  match s with
  | .declare names => exact declare_placed hr (by rwa [statement] at h)
  | .assign ts (.literal n) => exact ⟨[], assignLiteral_placed hr (by rwa [statement] at h)⟩
  | .assign ts (.ident i) => exact ⟨[], assignIdent_placed hr (by rwa [statement] at h)⟩
  | .print names | .read names =>
    rw [statement] at h
    obtain ⟨rfl, rfl⟩ := Prod.mk.inj (Except.ok.inj h)
    exact ⟨[], pass_placed hr fun c => rfl⟩
  | .branch subject body =>
    exact ⟨[], branch_placed (statements_placed body) hr (by rwa [statement] at h)⟩
  | .loop subject body =>
    exact ⟨[], loop_placed (statements_placed body) hr (by rwa [statement] at h)⟩
  | .define _ _ _ | .call _ _ | .bare _ | .invalid _ =>
    rw [statement] at h
    obtain ⟨rfl, rfl⟩ := Prod.mk.inj (Except.ok.inj h)
    exact ⟨[], .of_named hr rfl (by simp [CellCode.cells, CellOp.cell?])⟩
  | .wrap inner => exact statement_placed inner hr (by rwa [statement] at h)

/-- **The code of statements is placed.** -/
theorem statements_placed (ss : List Stmt) {r r' : Resolver} {code : CellCode} (hr : r.Valid)
    (h : statements ss r = .ok (code, r')) : ∃ bs, Placed r bs code r' := by
  match ss with
  | [] =>
    rw [statements] at h
    obtain ⟨rfl, rfl⟩ := Prod.mk.inj (Except.ok.inj h)
    exact ⟨[], .of_named hr rfl (by simp [CellCode.cells])⟩
  | s :: ss =>
    obtain ⟨first, r₁, rest, hs, hss, rfl⟩ := statements_cons_ok h
    obtain ⟨bs, hp⟩ := statement_placed s hr hs
    obtain ⟨bs', hp'⟩ := statements_placed ss hp.valid hss
    exact ⟨_, hp.append hp'⟩

end

end Plan

/-- A program works on cells of its tape. -/
theorem plan_within {program : List Stmt} {tapeSize : Int} {code : CellCode}
    (h : plan program tapeSize = .ok code) : 0 < tapeSize ∧ code.Within tapeSize.toNat := by
  obtain ⟨r, r', hr, hs⟩ := plan_ok h
  obtain ⟨hvalid, hpos, hsize, hscope, -⟩ := Resolver.valid_ofSize hr
  obtain ⟨bs, hp⟩ := Plan.statements_placed program hvalid hs
  refine ⟨hpos, fun c hc => ?_⟩
  rcases hp.touched c hc with ⟨b, hb, -⟩ | ⟨htape, -⟩
  · simp [hscope, Scope.empty, Scope.frames] at hb
  · rwa [hsize] at htape

end TapeCompiler
