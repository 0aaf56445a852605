import TapeCompiler.Proofs.CellCode.Blocks
import TapeCompiler.Proofs.CellCode.Placement
import TapeCompiler.Proofs.Layout

/-!
# Code simulates what statements mean

The code of a statement does to the cells of the variables what the statement does to the variables. It
ends if and only if the statement does.

* `Idle`: the variables between two statements.
* `Simulates`: code on cells and a meaning on variables.
* `Plan.statements_simulate`: **the code of statements simulates their meaning.**
-/

namespace TapeCompiler

/-- A variable that no name stands for: it is not declared yet, or holds literals. -/
def Var.Outside (cells : List Int) : Var → Prop
  | declared i => cells.length ≤ i
  | hidden => True

/-- Between two statements the literals are used up, and what is not declared yet is zero. -/
def Idle (cells : List Int) (w : Store Var) : Prop :=
  ∀ x : Var, x.Outside cells → w.value x = 0

/-- Code does to the cells of the variables what a meaning does to the variables, and declares its own
cells. -/
structure Simulates (cells : List Int) (code : CellCode) (m : Meaning) : Prop where
  run : ∀ head w t, Idle cells w → (code.Run head (w.encode (ownerOf cells)) t ↔
    ∃ w', m w w' ∧ t = w'.encode (ownerOf (cells ++ code.varCells)))
  idle : ∀ w w', Idle cells w → m w w' → Idle (cells ++ code.varCells) w'

variable {cells : List Int} {w : Store Var}

theorem Idle.append (h : Idle cells w) (new : List Int) : Idle (cells ++ new) w := by
  intro x hx
  cases x with
  | hidden => exact h .hidden trivial
  | declared i =>
    have hlen : (cells ++ new).length ≤ i := hx
    rw [List.length_append] at hlen
    exact h (.declared i) (Nat.le_trans (Nat.le_add_right _ _) hlen)

/-- Cells of variables that are not declared yet are zero anyway. -/
theorem Idle.encode_append (h : Idle cells w) (new : List Int) :
    w.encode (ownerOf (cells ++ new)) = w.encode (ownerOf cells) := by
  refine Store.ext (fun c => ?_) rfl rfl
  by_cases hc : c ∈ cells
  · simp [Store.encode, ownerOf, hc, List.idxOf_append_of_mem hc]
  · rw [Store.value_encode_of_none (ownerOf_eq_none hc)]
    by_cases hn : c ∈ new
    · have hlen : cells.length ≤ (cells ++ new).idxOf c := by
        rw [List.idxOf_append_of_notMem hc]; omega
      simp [Store.encode, ownerOf, hn, h (.declared _) hlen]
    · exact Store.value_encode_of_none (ownerOf_eq_none (by simp [hc, hn])) w

namespace Simulates

variable {a b : CellCode} {m m' : Meaning}

theorem append (ha : Simulates cells a m) (hb : Simulates (cells ++ a.varCells) b m') :
    Simulates cells (a ++ b) fun w w' => ∃ u, m w u ∧ m' u w' where
  run head w t hw := by
    rw [CellCode.run_append, CellCode.varCells_append, ← List.append_assoc]
    constructor
    · rintro ⟨_, hu, ht⟩
      obtain ⟨u, hm, rfl⟩ := (ha.run head w _ hw).1 hu
      obtain ⟨w', hm', rfl⟩ := (hb.run _ u t (ha.idle w u hw hm)).1 ht
      exact ⟨w', ⟨u, hm, hm'⟩, rfl⟩
    · rintro ⟨w', ⟨u, hm, hm'⟩, rfl⟩
      exact ⟨_, (ha.run head w _ hw).2 ⟨u, hm, rfl⟩,
        (hb.run _ u _ (ha.idle w u hw hm)).2 ⟨w', hm', rfl⟩⟩
  idle w w' hw h := by
    obtain ⟨u, hm, hm'⟩ := h
    rw [CellCode.varCells_append, ← List.append_assoc]
    exact hb.idle u w' (ha.idle w u hw hm) hm'

/-- Code that does nothing to the cells. -/
theorem silent (h : ∀ head s t, a.Run head s t ↔ t = s) : Simulates cells a fun w w' => w' = w where
  run head w t hw := by
    rw [h]
    simp [hw.encode_append]
  idle w w' hw hm := by
    rw [hm]
    exact hw.append _

end Simulates

/-! ## Statements without declarations -/

namespace Plan

variable {r r' : Resolver} {code : CellCode}

section

variable {subject : Ident} {body : Resolver → Except Fault (CellCode × Resolver)}
  (hbody : ∀ {r code r'}, body r = .ok (code, r') → code.varCells = [])

include hbody

theorem varCells_loop (h : loop subject body r = .ok (code, r')) : code.varCells = [] := by
  obtain ⟨cell, inner, -, hb, rfl⟩ | ⟨guard, r₁, inner, r₂, -, -, hb, -, rfl⟩ := loop_ok h
  · obtain ⟨_, hb, -⟩ := block_ok hb
    simp [CellCode.varCells, hbody hb, varCells_applyMark]
  · obtain ⟨_, hb, -⟩ := block_ok hb
    have hvar := varCells_ofOps (report r subject) not_declared_of_report
    simp [CellCode.varCells, hbody hb, hvar]

theorem varCells_branch (h : branch subject body r = .ok (code, r')) : code.varCells = [] := by
  obtain ⟨cell, flag, r₁, scratch, r₂, r₃, inner, r₄, -, -, -, -, hb, -, rfl⟩ |
    ⟨flag, r₁, inner, r₂, -, -, hb, -, rfl⟩ := branch_ok h
  · obtain ⟨_, hb, -⟩ := block_ok hb
    simp [CellCode.varCells, varCells_copy, clear, hbody hb, varCells_applyMark]
  · obtain ⟨_, hb, -⟩ := block_ok hb
    have hvar := varCells_ofOps (report r subject) not_declared_of_report
    simp [CellCode.varCells, clear, hbody hb, hvar]

end

mutual

theorem varCells_statement (s : Stmt) (hs : s.declares = false) {r r' : Resolver} {code : CellCode}
    (h : statement s r = .ok (code, r')) : code.varCells = [] := by
  match s with
  | .declare names => simp [Stmt.declares] at hs
  | .assign ts value => exact varCells_assign (by rwa [statement] at h)
  | .print names | .read names =>
    rw [statement] at h
    obtain ⟨rfl, rfl⟩ := Prod.mk.inj (Except.ok.inj h)
    exact varCells_pass fun c => rfl
  | .branch subject body =>
    exact varCells_branch (varCells_statements body (by rwa [Stmt.declares] at hs))
      (by rwa [statement] at h)
  | .loop subject body =>
    exact varCells_loop (varCells_statements body (by rwa [Stmt.declares] at hs))
      (by rwa [statement] at h)
  | .define _ _ _ | .call _ _ | .bare _ | .invalid _ =>
    rw [statement] at h
    obtain ⟨rfl, rfl⟩ := Prod.mk.inj (Except.ok.inj h)
    rfl
  | .wrap inner =>
    exact varCells_statement inner (by rwa [Stmt.declares] at hs) (by rwa [statement] at h)

/-- Statements that hold no declaration take no cells. -/
theorem varCells_statements (ss : List Stmt) (hs : Stmt.anyDeclares ss = false) {r r' : Resolver}
    {code : CellCode} (h : statements ss r = .ok (code, r')) : code.varCells = [] := by
  match ss with
  | [] =>
    rw [statements] at h
    obtain ⟨rfl, rfl⟩ := Prod.mk.inj (Except.ok.inj h)
    rfl
  | s :: ss =>
    rw [Stmt.anyDeclares, Bool.or_eq_false_iff] at hs
    obtain ⟨first, r₁, rest, hfirst, hrest, rfl⟩ := statements_cons_ok h
    rw [CellCode.varCells_append, varCells_statement s hs.1 hfirst, varCells_statements ss hs.2 hrest]
    rfl

end

end Plan

/-! ## Assignments -/

section

variable {n : Names} {r : Resolver} {owner : Int → Option Var}
  (hrel : ∀ i : Ident, Option.Rel (fun x c => Owns owner c x) (n.var? i) (r.lookup? i.name))

include hrel

theorem forall₂_vars (is : List Ident) :
    List.Forall₂ (Owns owner) (is.filterMap fun i => r.lookup? i.name) (is.filterMap n.var?) := by
  induction is with
  | nil => exact .nil
  | cons i is ih =>
    have hi := hrel i
    generalize hx : n.var? i = x at hi
    generalize hc : r.lookup? i.name = c at hi
    cases hi with
    | none => simpa [hx, hc] using ih
    | some ho => simpa [hx, hc, ho] using ih

theorem forall₂_plain (ts : List Ident) :
    List.Forall₂ (Owns owner) (Plan.plainCells (Plan.targets r ts)) (n.plain ts) := by
  have hcells : Plan.plainCells (Plan.targets r ts) =
      (ts.filter fun i => i.mark = .none).filterMap fun i => r.lookup? i.name := by
    unfold Plan.plainCells Plan.targets
    induction ts with
    | nil => rfl
    | cons i ts ih => cases hl : r.lookup? i.name <;> by_cases hm : i.mark = .none <;> simp [hl, hm, ih]
  rw [hcells]
  exact forall₂_vars hrel _

theorem forall₂_gains (ts : List Ident) :
    List.Forall₂ (fun t u => Owns owner t.1 u.1 ∧ t.2 = u.2) (Plan.steps (Plan.targets r ts))
      (n.gains ts) := by
  induction ts with
  | nil => exact .nil
  | cons i ts ih =>
    unfold Plan.targets Plan.steps Names.gains at *
    have hi := hrel i
    generalize hx : n.var? i = x at hi
    generalize hc : r.lookup? i.name = c at hi
    cases hi with
    | none => simpa [hx, hc] using ih
    | some ho =>
      cases hm : i.mark with
      | none | plus | minus => simpa [hx, hc, hm, ho, Plan.stepOf, Mark.gain] using ih
      | floor => simpa [hx, hc, hm, ho, Plan.stepOf, Mark.gain] using ih

/-- Moving a value on the cells is moving it between the variables. -/
theorem run_moveInto_encode {source : Int} {x : Var} (hsource : Owns owner source x) {ts : List Ident}
    (hmisplaced : Plan.misplaced (Plan.targets r ts) = []) (head : Int) (w : Store Var) (t : Store Int) :
    (Plan.moveInto source (Generate.sortTargets (Plan.targets r ts))).Run head (w.encode owner) t ↔
      ∃ w', n.drain x ts (w.zeroAll (n.plain ts)) w' ∧ t = w'.encode owner := by
  rw [Plan.run_moveInto_perm (Plan.sortTargets_perm _) hmisplaced, Plan.run_moveInto hmisplaced,
    ← Store.encode_zeroAll (forall₂_plain hrel ts)]
  have hunit (w : Store Var) : (w.addAll ((x, -1) :: n.gains ts)).encode owner =
      (w.encode owner).addAll ((source, -1) :: Plan.steps (Plan.targets r ts)) :=
    Store.encode_addAll (.cons ⟨hsource, rfl⟩ (forall₂_gains hrel ts)) w
  have hdrain : Repeats (fun s => s.value source ≠ 0)
      (fun s t => t = s.addAll ((source, -1) :: Plan.steps (Plan.targets r ts)))
      ((w.zeroAll (n.plain ts)).encode owner) t ↔
        ∃ w', n.drain x ts (w.zeroAll (n.plain ts)) w' ∧ True ∧ t = w'.encode owner :=
    repeats_map (I := fun _ => True) (fun w _ => by rw [Store.value_encode hsource])
      (fun w _ _ t => by simp only [exists_eq_left, hunit]) (fun _ _ _ _ _ => trivial) trivial
  simpa only [true_and] using hdrain

end

/-- Draining a variable changes only that variable and the targets. -/
theorem Names.drain_value {n : Names} {x y : Var} {ts : List Ident} {w w' : Store Var}
    (h : n.drain x ts w w') (hx : y ≠ x) (hts : ∀ i ∈ ts, n.var? i ≠ some y) :
    w'.value y = w.value y := by
  have hgain : Store.gainOf y ((x, -1) :: n.gains ts) = 0 := by
    refine Store.gainOf_eq_zero (List.forall_mem_cons.2 ⟨hx.symm, fun g hg hgy => ?_⟩)
    obtain ⟨i, hi, hg⟩ := List.mem_filterMap.1 hg
    cases hvar : n.var? i with
    | none => simp [hvar] at hg
    | some z =>
      obtain ⟨k, -, rfl⟩ : ∃ k, i.mark.gain = some k ∧ (z, k) = g := by
        simpa [hvar, Option.bind_eq_some_iff] using hg
      exact hts i hi (by rw [hvar]; exact congrArg some hgy)
  refine h.1.keeps (P := fun u => u.value y = w.value y) rfl ?_
  rintro u _ hu - rfl
  rw [Store.value_addAll, hgain, show UInt8.ofInt 0 = 0 from rfl, UInt8.add_zero, hu]

section

variable {n : Names} {r r' : Resolver} {code : CellCode}

theorem Agrees.rel (hn : Agrees n r cells) (i : Ident) :
    Option.Rel (fun x c => Owns (ownerOf cells) c x) (n.var? i) (r.lookup? i.name) :=
  rel_imp (hn.rel_owns i) fun _ _ ho => ho.1

/-- A name stands for a variable that has been declared. -/
theorem Agrees.not_outside (h : Agrees n r cells) {i : Ident} {x : Var} (hx : n.var? i = some x) :
    ¬ x.Outside cells := by
  obtain ⟨j, hj, rfl⟩ := Option.map_eq_some_iff.1 hx
  have hl := h.lookup i.name
  rw [hj] at hl
  generalize r.lookup? i.name = c at hl
  cases hl with
  | some hi =>
    obtain ⟨hlt, -⟩ := List.getElem?_eq_some_iff.1 hi
    exact Nat.not_le.2 hlt

theorem Agrees.notMem_vars (h : Agrees n r cells) {x : Var} (hx : x.Outside cells) (is : List Ident) :
    x ∉ is.filterMap n.var? := by
  intro hmem
  obtain ⟨i, -, hi⟩ := List.mem_filterMap.1 hmem
  exact h.not_outside hi hx

/-- An assignment keeps what no name stands for. -/
theorem Agrees.value_drain (h : Agrees n r cells) {x y : Var} {ts : List Ident} {w w' : Store Var}
    (hd : n.drain x ts w w') (hy : y.Outside cells) (hyx : y ≠ x) : w'.value y = w.value y :=
  Names.drain_value hd hyx fun _ _ hi => h.not_outside hi hy

theorem eq_nil_of_marks {os : List CellOp} (h : ∀ o ∈ os, ∃ d, o = .mark d)
    (hdiag : (CellCode.ofOps os).diagnostics = []) : os = [] := by
  cases os with
  | nil => rfl
  | cons o os =>
    obtain ⟨d, rfl⟩ := h o List.mem_cons_self
    simp [CellCode.ofOps, CellCode.diagnostics] at hdiag

theorem marks_report (i : Ident) : ∀ o ∈ Plan.report r i, ∃ d, o = .mark d := by
  unfold Plan.report
  cases r.lookup? i.name <;> simp

theorem marks_reports (ts : List Ident) : ∀ o ∈ ts.flatMap (Plan.report r), ∃ d, o = .mark d := by
  intro o ho
  obtain ⟨i, -, hi⟩ := List.mem_flatMap.1 ho
  exact marks_report i o hi

theorem misplaced_eq_nil {source : Int} {ts : List (Int × Ident)}
    (h : (Plan.moveInto source (Generate.sortTargets ts)).diagnostics = []) : Plan.misplaced ts = [] := by
  have hsorted : Plan.misplaced (Generate.sortTargets ts) = [] := by
    simp only [Plan.moveInto, CellCode.diagnostics_append, List.append_eq_nil_iff] at h
    exact eq_nil_of_marks (List.forall_mem_map.2 fun _ _ => ⟨_, rfl⟩) h.1.2
  exact Plan.misplaced_eq_nil_of_perm (Plan.sortTargets_perm ts).symm hsorted

theorem assignLiteral_simulates {ts : List Ident} {k : Int} (hr : r.Valid) (hn : Agrees n r cells)
    (h : Plan.assign ts (.literal k) r = .ok (code, r')) (hdiag : code.diagnostics = []) :
    Simulates cells code (n.assign ts (.literal k)) := by
  obtain ⟨source, r₁, hd, -, rfl⟩ := Plan.assignLiteral_ok h
  have hsource : (source : Int) ∉ cells := fun hmem =>
    (Resolver.extends_define hr hd).fresh source (by simp) (hn.taken _ hmem)
  have hrel (i : Ident) : Option.Rel (fun x c => Owns (ownerWith cells source) c x) (n.var? i)
      (r₁.lookup? i.name) := by
    rw [Resolver.lookup_define_none hd]
    exact rel_imp (hn.rel_owns i) fun _ _ ho => ho.1.ownerWith fun hc => hsource (hc ▸ ho.2)
  rw [CellCode.diagnostics_append, List.append_eq_nil_iff] at hdiag
  have hreports : ts.flatMap (Plan.report r₁) = [] := eq_nil_of_marks (marks_reports ts) hdiag.1
  have hmisplaced := misplaced_eq_nil hdiag.2
  rw [hreports, List.append_nil]
  have hvar : (CellCode.ofOps [.comment (Stmt.assign ts (.literal k)).text, .add source k] ++
      Plan.moveInto source (Generate.sortTargets (Plan.targets r₁ ts))).varCells = [] := by
    rw [CellCode.varCells_append, Plan.varCells_moveInto]
    rfl
  have hidle {w w' : Store Var} (hw : Idle cells w) (hm : n.assign ts (.literal k) w w') :
      Idle cells w' := by
    intro y hy
    by_cases hyx : y = .hidden
    · rw [hyx]
      simpa using hm.2
    · rw [hn.value_drain hm hy hyx, Store.value_set, if_neg hyx, Store.value_zeroAll, hw y hy, ite_self]
  refine ⟨fun head w t hw => ?_, fun w w' hw hm => by rw [hvar, List.append_nil]; exact hidle hw hm⟩
  -- the literal is added to a cell that is zero
  have hstart : (w.encode (ownerOf cells)).add source k =
      (w.set .hidden (UInt8.ofInt k)).encode (ownerWith cells source) := by
    rw [encode_ownerWith, encode_set_hidden, Store.value_set_self, Store.add,
      Store.value_encode_of_none (ownerOf_eq_none hsource), UInt8.zero_add]
  -- and at the end that cell is zero again
  have hend {w' : Store Var} (hw' : Idle cells w') :
      w'.encode (ownerWith cells source) = w'.encode (ownerOf cells) := by
    rw [encode_ownerWith, hw' .hidden trivial]
    exact Store.set_eq_self (Store.value_encode_of_none (ownerOf_eq_none hsource) w')
  have hrun : (Plan.moveInto source (Generate.sortTargets (Plan.targets r₁ ts))).Run source
      ((w.encode (ownerOf cells)).add source k) t ↔
      ∃ w', n.assign ts (.literal k) w w' ∧ t = w'.encode (ownerWith cells source) := by
    have hplain : .hidden ∉ n.plain ts := hn.notMem_vars (x := .hidden) trivial _
    rw [hstart, run_moveInto_encode hrel (owns_hidden cells source) hmisplaced, Store.zeroAll_set hplain]
    rfl
  rw [hvar, List.append_nil]
  refine hrun.trans ?_
  constructor
  · rintro ⟨w', hm, rfl⟩
    exact ⟨w', hm, hend (hidle hw hm)⟩
  · rintro ⟨w', hm, rfl⟩
    exact ⟨w', hm, (hend (hidle hw hm)).symm⟩

theorem assignIdent_simulates {ts : List Ident} {i : Ident} (hn : Agrees n r cells)
    (h : Plan.assign ts (.ident i) r = .ok (code, r')) (hdiag : code.diagnostics = []) :
    Simulates cells code (n.assign ts (.ident i)) := by
  obtain ⟨rfl, rfl⟩ := Prod.mk.inj (Except.ok.inj h)
  rw [CellCode.diagnostics_append, List.append_eq_nil_iff] at hdiag
  have hreports : Plan.report r i ++ ts.flatMap (Plan.report r) = [] :=
    eq_nil_of_marks (List.forall_mem_append.2 ⟨marks_report i, marks_reports ts⟩) hdiag.1
  rw [hreports]
  have hi := hn.rel i
  generalize hx : n.var? i = x at hi
  generalize hc : r.lookup? i.name = c at hi hdiag ⊢
  cases hi with
  | none =>
    have hassign : n.assign ts (.ident i) = fun w w' => w' = w := by simp only [Names.assign, hx]
    rw [hassign, CellCode.append_empty]
    exact .silent fun _ _ _ => Iff.rfl
  | @some x source ho =>
    have hassign : n.assign ts (.ident i) = fun w => n.drain x ts (w.zeroAll (n.plain ts)) := by
      simp only [Names.assign, hx]
    rw [hassign]
    have hmisplaced := misplaced_eq_nil hdiag.2
    have hvar : (CellCode.ofOps [.comment (Stmt.assign ts (.ident i)).text] ++
        Plan.moveInto source (Generate.sortTargets (Plan.targets r ts))).varCells = [] := by
      rw [CellCode.varCells_append, Plan.varCells_moveInto]
      rfl
    refine ⟨fun head w t hw => ?_, fun w w' hw hm => ?_⟩
    · rw [hvar, List.append_nil]
      exact run_moveInto_encode hn.rel ho hmisplaced head w t
    · rw [hvar, List.append_nil]
      intro y hy
      rw [hn.value_drain hm hy fun heq => hn.not_outside hx (heq ▸ hy), Store.value_zeroAll, hw y hy,
        ite_self]

/-! ## Declarations, input and output -/

/-- Declarations without a diagnostic have no code that is run. -/
theorem Plan.run_declare {names : List Ident} (h : Plan.declare names r = .ok (code, r'))
    (hdiag : code.diagnostics = []) (head : Int) (s t : Store Int) : code.Run head s t ↔ t = s := by
  induction names generalizing r code with
  | nil =>
    obtain ⟨rfl, rfl⟩ := Prod.mk.inj (Except.ok.inj h)
    exact Iff.rfl
  | cons i is ih =>
    obtain ⟨cell, r₁, rest, hd, hrest, rfl⟩ | ⟨name, rest, hd, hrest, rfl⟩ := Plan.declare_cons_ok h
    · have hsame := ih hrest hdiag
      exact hsame
    · simp [CellCode.diagnostics] at hdiag

theorem declare_simulates {names : List Ident} (hr : r.Valid) (hn : Agrees n r cells)
    (h : Plan.declare names r = .ok (code, r')) (hdiag : code.diagnostics = []) :
    Simulates cells code (fun w w' => w' = w) ∧
      Agrees (names.foldl (fun n i => n.declare i.name) n) r' (cells ++ code.varCells) := by
  refine ⟨.silent fun head s t => Plan.run_declare h hdiag head s t, ?_⟩
  induction names generalizing r code n cells with
  | nil =>
    obtain ⟨rfl, rfl⟩ := Prod.mk.inj (Except.ok.inj h)
    simpa [CellCode.varCells] using hn
  | cons i is ih =>
    obtain ⟨cell, r₁, rest, hd, hrest, rfl⟩ | ⟨name, rest, hd, hrest, rfl⟩ := Plan.declare_cons_ok h
    · have hi := ih (Resolver.extends_define hr hd).valid (hn.declare hr hd) hrest hdiag
      simpa [CellCode.varCells] using hi
    · simp [CellCode.diagnostics] at hdiag

/-- Without diagnostics all names are defined and none has a mark. -/
theorem passes_eq {reason : Reason} {o : Int → CellOp} {names : List Ident}
    (hdiag : (CellCode.ofOps (names.flatMap (Plan.pass r reason o))).diagnostics = []) :
    names.flatMap (Plan.pass r reason o) = (names.filterMap fun i => r.lookup? i.name).map o := by
  induction names with
  | nil => rfl
  | cons i is ih =>
    rw [List.flatMap_cons, CellCode.ofOps_append, CellCode.diagnostics_append,
      List.append_eq_nil_iff] at hdiag
    have hi := hdiag.1
    rw [Plan.pass, CellCode.ofOps_append, CellCode.diagnostics_append, List.append_eq_nil_iff] at hi
    have hmarks := eq_nil_of_marks (List.forall_mem_append.2
      ⟨fun p hp => by split at hp <;> simp_all, marks_report i⟩) hi.1
    rw [List.flatMap_cons, ih hdiag.2, Plan.pass, hmarks, List.nil_append]
    cases hl : r.lookup? i.name <;> simp [hl]

theorem run_ofOps_map {o : Int → CellOp} {f : Store Int → Int → Store Int}
    (ho : ∀ head s c, (o c).apply head s = f s c) (head : Int) (cs : List Int) (s t : Store Int) :
    (CellCode.ofOps (cs.map o)).Run head s t ↔ t = cs.foldl f s := by
  induction cs generalizing head s with
  | nil => rfl
  | cons c cs ih =>
    refine (ih _ _).trans ?_
    rw [ho]
    rfl

/-- Input and output change one variable after the other. -/
theorem pass_simulates {reason : Reason} {o : Int → CellOp} {f : Store Int → Int → Store Int}
    {g : Store Var → Var → Store Var} {names : List Ident} (hn : Agrees n r cells)
    (hcell : ∀ c, (o c).cell? = some c) (ho : ∀ head s c, (o c).apply head s = f s c)
    (hfg : ∀ {cs xs}, List.Forall₂ (Owns (ownerOf cells)) cs xs → ∀ w : Store Var,
      (xs.foldl g w).encode (ownerOf cells) = cs.foldl f (w.encode (ownerOf cells)))
    (hg : ∀ w x y, y ≠ x → (g w x).value y = w.value y)
    (hdiag : (CellCode.ofOps (names.flatMap (Plan.pass r reason o))).diagnostics = []) :
    Simulates cells (.ofOps (names.flatMap (Plan.pass r reason o)))
      (fun w w' => w' = (names.filterMap n.var?).foldl g w) := by
  have hvar : (CellCode.ofOps (names.flatMap (Plan.pass r reason o))).varCells = [] :=
    Plan.varCells_pass hcell
  refine ⟨fun head w t hw => ?_, fun w w' hw hm => ?_⟩
  · rw [hvar, List.append_nil, passes_eq hdiag, run_ofOps_map ho]
    simp [hfg (forall₂_vars hn.rel names)]
  · rw [hvar, List.append_nil, hm]
    intro y hy
    have hnot := hn.notMem_vars hy names
    have hfold (xs : List Var) (hxs : y ∉ xs) (w : Store Var) : (xs.foldl g w).value y = w.value y := by
      induction xs generalizing w with
      | nil => rfl
      | cons x xs ih =>
        rw [List.mem_cons, not_or] at hxs
        exact (ih hxs.2 _).trans (hg w x y hxs.1)
    rw [hfold _ hnot, hw y hy]

/-! ## Loops and branches -/

variable {inner : Names} {m : Meaning} {subject : Ident}

theorem idle_add (hn : Agrees n r cells) {x : Var} {i : Ident} (hx : n.var? i = some x) (hw : Idle cells w)
    (k : Int) : Idle cells (w.add x k) := by
  intro y hy
  have hyx : y ≠ x := fun hyx => hn.not_outside hx (hyx ▸ hy)
  rw [Store.value_add, if_neg hyx, hw y hy]

/-- A body with the mark of the subject behind it, as one pass of a loop or branch makes it. -/
theorem Simulates.run_pass {cell : Int} {x : Var} (hbody : Simulates cells code m)
    (ho : Owns (ownerOf (cells ++ code.varCells)) cell x) (hw : Idle cells w) (head : Int) (t : Store Int) :
    (code ++ Plan.applyMark subject cell).Run head (w.encode (ownerOf cells)) t ↔
      ∃ w', (∃ u, m w u ∧ w' = u.add x subject.mark.drift) ∧
        t = w'.encode (ownerOf (cells ++ code.varCells)) := by
  simp only [CellCode.run_append, Plan.run_applyMark, hbody.run head w _ hw]
  constructor
  · rintro ⟨_, ⟨u, hu, rfl⟩, rfl⟩
    exact ⟨_, ⟨u, hu, rfl⟩, (Store.encode_add ho u _).symm⟩
  · rintro ⟨_, ⟨u, hu, rfl⟩, rfl⟩
    exact ⟨_, ⟨u, hu, rfl⟩, Store.encode_add ho u _⟩

/-- A loop whose body declares nothing. -/
theorem loop_simulates {cell : Int} {code : CellCode} (hn : Agrees n r cells)
    (hl : r.lookup? subject.name = some cell) (hbody : Simulates cells code m)
    (hvar : code.varCells = []) :
    Simulates cells (.loop .many cell (code ++ Plan.applyMark subject cell) .empty) (n.loop subject m) := by
  have hi := hn.rel subject
  rw [hl] at hi
  generalize hx : n.var? subject = x at hi
  cases hi with
  | @some x _ ho =>
    have hloop : n.loop subject m = Repeats (fun w => w.value x ≠ 0)
        fun w w' => ∃ u, m w u ∧ w' = u.add x subject.mark.drift := by
      simp only [Names.loop, hx]
    have hall : (CellCode.loop .many cell (code ++ Plan.applyMark subject cell) .empty).varCells = [] := by
      simp [CellCode.varCells, hvar, Plan.varCells_applyMark]
    -- the cells that no variable owns are idle again after each pass, so the passes follow one another
    have hpass (w w' : Store Var) (hw : Idle cells w) (hm : ∃ u, m w u ∧ w' = u.add x subject.mark.drift) :
        Idle cells w' := by
      obtain ⟨u, hu, rfl⟩ := hm
      have hidle := hbody.idle w u hw hu
      rw [hvar, List.append_nil] at hidle
      exact idle_add hn hx hidle _
    rw [hloop]
    refine ⟨fun head w t hw => ?_, fun w w' hw hm => ?_⟩
    · rw [Plan.run_loop, hall, List.append_nil]
      have honce (w : Store Var) (hw : Idle cells w) (t : Store Int) :
          (code ++ Plan.applyMark subject cell).Run cell (w.encode (ownerOf cells)) t ↔
            ∃ w', (∃ u, m w u ∧ w' = u.add x subject.mark.drift) ∧ t = w'.encode (ownerOf cells) := by
        have hcells : cells ++ code.varCells = cells := by rw [hvar, List.append_nil]
        have ho' : Owns (ownerOf (cells ++ code.varCells)) cell x := by rwa [hcells]
        refine (hbody.run_pass ho' hw cell t).trans ?_
        rw [hcells]
      have hloop : Repeats (fun s => s.value cell ≠ 0) ((code ++ Plan.applyMark subject cell).Run cell)
          (w.encode (ownerOf cells)) t ↔ ∃ w', Repeats (fun w => w.value x ≠ 0)
            (fun w w' => ∃ u, m w u ∧ w' = u.add x subject.mark.drift) w w' ∧ Idle cells w' ∧
              t = w'.encode (ownerOf cells) :=
        repeats_map (fun w _ => by rw [Store.value_encode ho]) (fun w hw _ t => honce w hw t)
          (fun w w' hw _ hm => hpass w w' hw hm) hw
      rw [hloop]
      constructor
      · rintro ⟨u, hu, -, rfl⟩
        exact ⟨u, hu, rfl⟩
      · rintro ⟨u, hu, rfl⟩
        exact ⟨u, hu, hu.1.keeps hw fun w w' hw _ hm => hpass w w' hw hm, rfl⟩
    · rw [hall, List.append_nil]
      exact hm.1.keeps hw fun w w' hw _ hm => hpass w w' hw hm

/-- A branch: the flag is zero before and after it, and its body runs at most once. -/
theorem branch_simulates {cell flag scratch : Int} {code : CellCode} (hn : Agrees n r cells)
    (hl : r.lookup? subject.name = some cell) (hn' : Agrees (n.leave inner) r' (cells ++ code.varCells))
    (hl' : r'.lookup? subject.name = some cell) (hflag : flag ∉ cells) (hscratch : scratch ∉ cells)
    (hne : flag ≠ scratch) (hfresh : flag ∉ code.varCells) (hbody : Simulates cells code m) :
    Simulates cells (Plan.copy cell flag scratch ++
      .loop .once flag (Plan.clear flag ++ code ++ Plan.applyMark subject cell) .empty)
      (n.branch subject m) := by
  have hi := hn.rel_owns subject
  have hi' := hn'.rel_owns subject
  have hleave : (n.leave inner).var? subject = n.var? subject := rfl
  rw [hl] at hi
  rw [hl', hleave] at hi'
  generalize hx : n.var? subject = x at hi hi'
  cases hi with
  | @some x _ ho =>
    cases hi' with
    | some ho' =>
      have hcf : cell ≠ flag := fun h => hflag (h ▸ ho.2)
      have hcs : cell ≠ scratch := fun h => hscratch (h ▸ ho.2)
      have hbranch : n.branch subject m = fun w w' =>
          if w.value x ≠ 0 then ∃ u, m w u ∧ w' = u.add x subject.mark.drift else w' = w := by
        simp only [Names.branch, hx]
      have hall : (Plan.copy cell flag scratch ++
          .loop .once flag (Plan.clear flag ++ code ++ Plan.applyMark subject cell) .empty).varCells =
            code.varCells := by
        simp [CellCode.varCells, Plan.varCells_copy, Plan.clear, Plan.varCells_applyMark]
      have hfree (w : Store Var) : (w.encode (ownerOf cells)).value flag = 0 :=
        Store.value_encode_of_none (ownerOf_eq_none hflag) w
      have hfree' (w : Store Var) : (w.encode (ownerOf (cells ++ code.varCells))).value flag = 0 :=
        Store.value_encode_of_none (ownerOf_eq_none (by simp [hflag, hfresh])) w
      rw [hbranch]
      refine ⟨fun head w t hw => ?_, fun w w' hw hm => ?_⟩
      · have hcopy : ∀ u, (Plan.copy cell flag scratch).Run head (w.encode (ownerOf cells)) u ↔
            u = (w.encode (ownerOf cells)).set flag (w.value x) := by
          intro u
          refine (Plan.run_copy head hcf hcs hne (Store.value_encode_of_none (ownerOf_eq_none hscratch) w) u).trans ?_
          rw [hfree, Store.value_encode ho.1, UInt8.zero_add]
        -- with the flag cleared the body finds the cells as they were
        have hpass : ∀ u, (Plan.clear flag ++ code ++ Plan.applyMark subject cell).Run flag
            ((w.encode (ownerOf cells)).set flag (w.value x)) u ↔
              ∃ w', (∃ v, m w v ∧ w' = v.add x subject.mark.drift) ∧
                u = w'.encode (ownerOf (cells ++ code.varCells)) := by
          intro u
          rw [CellCode.append_assoc, CellCode.run_append]
          simp only [Plan.run_clear, exists_eq_left, Store.set_set, Store.set_eq_self (hfree w)]
          exact hbody.run_pass ho'.1 hw _ u
        rw [hall, CellCode.run_append]
        simp only [hcopy, exists_eq_left, Plan.run_loop]
        by_cases hzero : w.value x = 0
        · rw [repeats_of_not (by simp [hzero]), Store.set_eq_self (by rw [hfree, hzero])]
          simp [hzero, hw.encode_append]
        · rw [repeats_of_test (by simpa using hzero)]
          simp only [hpass, ne_eq, hzero, not_false_eq_true, if_true]
          constructor
          · rintro ⟨_, ⟨w', hm, rfl⟩, hend⟩
            exact ⟨w', hm, (repeats_of_not (by simp [hfree'])).1 hend⟩
          · rintro ⟨w', hm, rfl⟩
            exact ⟨_, ⟨w', hm, rfl⟩, .done (by simp [hfree'])⟩
      · rw [hall]
        split at hm
        · obtain ⟨u, hu, rfl⟩ := hm
          exact idle_add hn' hx (hbody.idle w u hw hu) _
        · rw [hm]
          exact hw.append _

end

/-! ## All statements -/

section

variable {subject : Ident} {body : List Stmt}
  (hbody : ∀ {n : Names} {r r' : Resolver} {code : CellCode} {cells : List Int}, r.Valid → Agrees n r cells →
    Plan.statements body r = .ok (code, r') → code.diagnostics = [] →
    Simulates cells code (Stmt.meanings body n).1 ∧
      Agrees (Stmt.meanings body n).2 r' (cells ++ code.varCells))
  {n : Names} {r r' : Resolver} {code : CellCode} {cells : List Int}

include hbody

/-- A branch, given what its body means. -/
theorem Plan.branch_meaning (hr : r.Valid) (hn : Agrees n r cells)
    (h : Plan.branch subject (Plan.statements body) r = .ok (code, r')) (hdiag : code.diagnostics = []) :
    Simulates cells code ((Stmt.branch subject body).meaning n).1 ∧
      Agrees ((Stmt.branch subject body).meaning n).2 r' (cells ++ code.varCells) := by
  rw [Stmt.meaning]
  have hext := (Plan.branch_placed (Plan.statements_placed body) hr h).toExtends
  obtain ⟨cell, flag, r₁, scratch, r₂, r₃, inner, r₄, hl, hf, hsc, hrs, hb, hrf, rfl⟩ |
    ⟨flag, r₁, inner, r₂, hl, -, -, -, rfl⟩ := Plan.branch_ok h
  · have hflag := Resolver.extends_define hr hf
    have hscratch := Resolver.extends_define hflag.valid hsc
    have hback := Resolver.extends_define_release hflag.valid hsc hrs
    -- the scratch cell is given back before the body is planned, so the body may take it again
    have hn₃ : Agrees n r₃ cells := by
      have hleave := (hn.define_none hr hf).leave n (by simp [hn.count]) hback
      rwa [List.append_nil] at hleave
    have hplaced := Plan.block_placed hback.valid (Plan.statements_placed body) hb
    obtain ⟨r₅, hstatements, -⟩ := Plan.block_ok hb
    have hinner := Plan.diagnostics_branch hdiag
    obtain ⟨hsim, hagree⟩ := hbody hback.valid.enter hn₃.enter hstatements hinner
    have hvar : (Plan.copy cell flag scratch ++
        .loop .once flag (Plan.clear flag ++ inner ++ Plan.applyMark subject cell) .empty).varCells =
          inner.varCells := by
      simp [CellCode.varCells, Plan.varCells_copy, Plan.clear, Plan.varCells_applyMark]
    rw [hvar] at hext ⊢
    have hn' := hn.leave (Stmt.meanings body n).2 hagree.count hext
    have hscope : r'.scope = r.scope := by rw [hext.scope, List.append_nil]
    have hl' : r'.lookup? subject.name = some cell := (Resolver.lookup_of_scope hscope _).trans hl
    -- the flag is held through the body, so no variable of the body can land on it
    have htaken : r₁.memory.Taken flag := (hflag.taken _).2 (.inr (by simp))
    have hflagFree : ¬ r.memory.Taken flag := hflag.fresh _ (by simp)
    have hscratchFree : ¬ r₁.memory.Taken scratch := hscratch.fresh _ (by simp)
    refine ⟨branch_simulates hn hl hn' hl' (fun hc => hflagFree (hn.taken _ hc))
      (fun hc => hscratchFree ((hflag.taken _).2 (.inl (hn.taken _ hc))))
      (fun heq => hscratchFree (heq ▸ htaken))
      (fun hc => hplaced.fresh _ hc ((hback.taken _).2 (.inl htaken))) hsim, hn'⟩
  · simp [Plan.report, hl, CellCode.ofOps, CellCode.diagnostics] at hdiag

/-- A loop, given what its body means. -/
theorem Plan.loop_meaning (hs : Stmt.anyDeclares body = false) (hr : r.Valid) (hn : Agrees n r cells)
    (h : Plan.loop subject (Plan.statements body) r = .ok (code, r')) (hdiag : code.diagnostics = []) :
    Simulates cells code ((Stmt.loop subject body).meaning n).1 ∧
      Agrees ((Stmt.loop subject body).meaning n).2 r' (cells ++ code.varCells) := by
  rw [Stmt.meaning]
  have hext := (Plan.loop_placed (Plan.statements_placed body) hr h).toExtends
  obtain ⟨cell, inner, hl, hb, rfl⟩ | ⟨guard, r₁, inner, r₂, hl, -, -, -, rfl⟩ := Plan.loop_ok h
  · obtain ⟨r₁, hstatements, -⟩ := Plan.block_ok hb
    have hinner := Plan.diagnostics_loop hdiag
    obtain ⟨hsim, hagree⟩ := hbody hr.enter hn.enter hstatements hinner
    -- a body without declarations ends each round with the cells it began it with
    have hvar := Plan.varCells_statements body hs hstatements
    refine ⟨loop_simulates hn hl hsim hvar, hn.leave _ ?_ hext⟩
    simpa [CellCode.varCells, Plan.varCells_applyMark] using hagree.count
  · simp [Plan.report, hl, CellCode.ofOps, CellCode.diagnostics] at hdiag

end

mutual

theorem Plan.statement_simulates (s : Stmt) (hs : s.loopDeclares = false) {n : Names} {r r' : Resolver}
    {code : CellCode} {cells : List Int} (hr : r.Valid) (hn : Agrees n r cells)
    (h : Plan.statement s r = .ok (code, r')) (hdiag : code.diagnostics = []) :
    Simulates cells code (s.meaning n).1 ∧ Agrees (s.meaning n).2 r' (cells ++ code.varCells) := by
  match s with
  | .declare names =>
    rw [Plan.statement] at h
    rw [Stmt.meaning]
    exact declare_simulates hr hn h hdiag
  | .assign ts (.literal k) =>
    rw [Plan.statement] at h
    rw [Stmt.meaning]
    have hext := (Plan.assignLiteral_placed hr h).toExtends
    refine ⟨assignLiteral_simulates hr hn h hdiag, hn.leave n ?_ hext⟩
    rw [Plan.varCells_assign h, List.append_nil, hn.count]
  | .assign ts (.ident i) =>
    rw [Plan.statement] at h
    rw [Stmt.meaning]
    have hext := (Plan.assignIdent_placed hr h).toExtends
    refine ⟨assignIdent_simulates hn h hdiag, hn.leave n ?_ hext⟩
    rw [Plan.varCells_assign h, List.append_nil, hn.count]
  | .print names =>
    rw [Plan.statement] at h
    rw [Stmt.meaning]
    obtain ⟨rfl, rfl⟩ := Prod.mk.inj (Except.ok.inj h)
    refine ⟨pass_simulates hn (fun _ => rfl) (fun _ _ _ => rfl) Store.encode_foldl_print
      (fun _ _ _ _ => rfl) hdiag, ?_⟩
    rw [Plan.varCells_pass fun _ => rfl, List.append_nil]
    exact hn
  | .read names =>
    rw [Plan.statement] at h
    rw [Stmt.meaning]
    obtain ⟨rfl, rfl⟩ := Prod.mk.inj (Except.ok.inj h)
    refine ⟨pass_simulates hn (fun _ => rfl) (fun _ _ _ => rfl) Store.encode_foldl_read
      (fun w x y hy => by rw [Store.value_read, if_neg hy]) hdiag, ?_⟩
    rw [Plan.varCells_pass fun _ => rfl, List.append_nil]
    exact hn
  | .branch subject body =>
    rw [Plan.statement] at h
    rw [Stmt.loopDeclares] at hs
    exact Plan.branch_meaning (fun hr hn h hdiag => Plan.statements_simulate body hs hr hn h hdiag) hr hn h
      hdiag
  | .loop subject body =>
    rw [Plan.statement] at h
    rw [Stmt.loopDeclares, Bool.or_eq_false_iff] at hs
    exact Plan.loop_meaning (fun hr hn h hdiag => Plan.statements_simulate body hs.2 hr hn h hdiag) hs.1 hr hn
      h hdiag
  -- these leave a diagnostic, and there is none
  | .define _ _ _ | .call _ _ | .bare _ | .invalid _ =>
    rw [Plan.statement] at h
    obtain ⟨rfl, rfl⟩ := Prod.mk.inj (Except.ok.inj h)
    simp [CellCode.diagnostics] at hdiag
  | .wrap inner =>
    rw [Plan.statement] at h
    rw [Stmt.loopDeclares] at hs
    rw [Stmt.meaning]
    exact Plan.statement_simulates inner hs hr hn h hdiag

/-- **The code of statements simulates their meaning.** -/
theorem Plan.statements_simulate (ss : List Stmt) (hs : Stmt.anyLoopDeclares ss = false) {n : Names}
    {r r' : Resolver} {code : CellCode} {cells : List Int} (hr : r.Valid) (hn : Agrees n r cells)
    (h : Plan.statements ss r = .ok (code, r')) (hdiag : code.diagnostics = []) :
    Simulates cells code (Stmt.meanings ss n).1 ∧
      Agrees (Stmt.meanings ss n).2 r' (cells ++ code.varCells) := by
  match ss with
  | [] =>
    rw [Plan.statements] at h
    obtain ⟨rfl, rfl⟩ := Prod.mk.inj (Except.ok.inj h)
    rw [Stmt.meanings]
    exact ⟨.silent fun _ _ _ => Iff.rfl, by simpa [CellCode.varCells] using hn⟩
  | s :: ss =>
    rw [Stmt.anyLoopDeclares, Bool.or_eq_false_iff] at hs
    obtain ⟨first, r₁, rest, hfirst, hrest, rfl⟩ := Plan.statements_cons_ok h
    rw [CellCode.diagnostics_append, List.append_eq_nil_iff] at hdiag
    obtain ⟨bs, hplaced⟩ := Plan.statement_placed s hr hfirst
    obtain ⟨hsim, hagree⟩ := Plan.statement_simulates s hs.1 hr hn hfirst hdiag.1
    obtain ⟨hsim', hagree'⟩ := Plan.statements_simulate ss hs.2 hplaced.valid hagree hrest hdiag.2
    rw [Stmt.meanings, CellCode.varCells_append, ← List.append_assoc]
    exact ⟨hsim.append hsim', hagree'⟩

end

end TapeCompiler
