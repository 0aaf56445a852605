import TapeCompiler.Proofs.CellCode.Basic

/-!
# Code on cells as a tree of tape operations

Assembled code is a tree of loops, and running that tree does to the tape what the code does to its
cells. The diagnostics in the code must hold no operation that moves the head or is a bracket; all
other texts run on the cell under the head.

* `operations`: the tape operations of instructions.
* `Stationary`: a text that leaves the head where it is.
* `CellCode.tree`, `ops_tree`: **the operations of assembled code are those of a tree.**
* `run_tree`: **the tree does to the tape what the code does to the cells.**
-/

namespace TapeCompiler

/-- The tape operations of instructions. -/
def operations (is : List Instruction) : List TapeOp :=
  TapeOp.program (codeText is)

@[simp]
theorem operations_nil : operations [] = [] := by
  simp [operations, codeText, TapeOp.program]

theorem operations_cons (i : Instruction) (is : List Instruction) :
    operations (i :: is) = TapeOp.program i.code ++ operations is := by
  simp [operations, codeText, TapeOp.program]

@[simp]
theorem operations_append (is js : List Instruction) :
    operations (is ++ js) = operations is ++ operations js := by
  simp [operations, codeText, TapeOp.program]

/-- A text without brackets that leaves the head where it is. -/
def Stationary (text : String) : Prop :=
  ∀ o ∈ TapeOp.program text, o ≠ .openLoop ∧ o ≠ .closeLoop ∧ o ≠ .right ∧ o ≠ .left

theorem mem_textActions {text : String} {a : Action} :
    a ∈ CellOp.textActions text ↔ a.toOp ∈ TapeOp.program text := by
  unfold CellOp.textActions
  rw [List.mem_filterMap]
  constructor
  · rintro ⟨o, ho, hoa⟩
    cases o <;> cases hoa <;> exact ho
  · intro h
    exact ⟨a.toOp, h, by cases a <;> rfl⟩

theorem map_textActions {text : String} (h : Stationary text) :
    (CellOp.textActions text).map Action.toOp = TapeOp.program text := by
  unfold CellOp.textActions
  unfold Stationary at h
  generalize TapeOp.program text = os at h
  induction os with
  | nil => rfl
  | cons o os ih =>
    have hos := ih fun o' ho' => h o' (List.mem_cons_of_mem _ ho')
    obtain ⟨h1, h2, -, -⟩ := h o List.mem_cons_self
    cases o with
    | openLoop => exact absurd rfl h1
    | closeLoop => exact absurd rfl h2
    | right | left | increment | decrement | write | read =>
      simp only [List.filterMap_cons, List.map_cons, hos, Action.toOp]

namespace Instruction

/-- As often `up` as a positive number says, or `down` as a negative one does. -/
def signedActions (up down : Action) (n : Int) : List Action :=
  if 0 < n then List.replicate n.toNat up else List.replicate (-n).toNat down

theorem mem_signedActions {up down a : Action} {n : Int} (h : a ∈ signedActions up down n) :
    a = up ∨ a = down := by
  unfold signedActions at h
  split at h
  · exact Or.inl (List.eq_of_mem_replicate h)
  · exact Or.inr (List.eq_of_mem_replicate h)

/-- The actions of an instruction that is no bracket. -/
def actions : Instruction → List Action
  | move delta => signedActions .right .left delta
  | add n => signedActions .increment .decrement n
  | print => [.write]
  | read => [.read]
  | marker d => CellOp.textActions d.text
  | openLoop | closeLoop | comment _ => []

theorem program_signedRun (up down : TapeOp) (n : Int) :
    TapeOp.program (signedRun up down n) =
      if 0 < n then List.replicate n.toNat up else List.replicate (-n).toNat down := by
  unfold signedRun TapeOp.program
  split <;> simp

theorem map_signedActions (up down : Action) (n : Int) :
    (signedActions up down n).map Action.toOp =
      TapeOp.program (signedRun up.toOp down.toOp n) := by
  rw [program_signedRun]
  unfold signedActions
  split <;> simp

/-- The code of an instruction without brackets spells its actions. -/
theorem program_code {i : Instruction} (ho : i ≠ .openLoop) (hc : i ≠ .closeLoop)
    (hd : ∀ d, i = .marker d → Stationary d.text) :
    TapeOp.program i.code = i.actions.map Action.toOp := by
  cases i with
  | openLoop => exact absurd rfl ho
  | closeLoop => exact absurd rfl hc
  | move delta => exact (map_signedActions .right .left delta).symm
  | add n => exact (map_signedActions .increment .decrement n).symm
  | print | read => decide
  | comment text => rfl
  | marker d => exact (map_textActions (hd d rfl)).symm

end Instruction

/-- The actions that bring the head from one cell to another. -/
def travelActions (head cell : Int) : List Action :=
  Instruction.signedActions .right .left (cell - head)

theorem operations_travel (head cell : Int) :
    operations (travel head cell) = (travelActions head cell).map Action.toOp := by
  unfold travel travelActions
  split
  · rename_i h
    simp [h, Instruction.signedActions]
  · rw [operations_cons, operations_nil, List.append_nil, Instruction.map_signedActions]; rfl

namespace CellOp

/-- The actions of an operation for a head on a cell. -/
def actions (head : Int) : CellOp → List Action
  | add cell n => travelActions head cell ++ (Instruction.add n).actions
  | print cell => travelActions head cell ++ Instruction.print.actions
  | read cell => travelActions head cell ++ Instruction.read.actions
  | mark d => textActions d.text
  | comment _ | declared _ => []

theorem operations_instructions (comments : Bool) (head : Int) {o : CellOp}
    (hd : ∀ d, o = .mark d → Stationary d.text) :
    operations (o.instructions comments head) = (o.actions head).map Action.toOp := by
  have hone : ∀ (i : Instruction), i ≠ .openLoop → i ≠ .closeLoop →
      (∀ d, i = .marker d → Stationary d.text) → operations [i] = i.actions.map Action.toOp := by
    intro i ho hc hm
    rw [operations_cons, operations_nil, List.append_nil, Instruction.program_code ho hc hm]
  cases o with
  | add cell n =>
    rw [instructions, operations_append, operations_travel, hone (.add n) (by simp) (by simp) (by simp),
      actions, List.map_append]
  | print cell =>
    rw [instructions, operations_append, operations_travel, hone .print (by simp) (by simp) (by simp),
      actions, List.map_append]
  | read cell =>
    rw [instructions, operations_append, operations_travel, hone .read (by simp) (by simp) (by simp),
      actions, List.map_append]
  | comment text =>
    cases comments
    · exact operations_nil
    · exact hone (.comment _) (by simp) (by simp) (by simp)
  | mark d =>
    refine hone (.marker d) (by simp) (by simp) ?_
    intro d' h
    cases h
    exact hd d rfl
  | declared _ => exact operations_nil

end CellOp

namespace CellCode

/-- The tree of assembled code. -/
def tree (head : Int) : CellCode → LoopTree
  | empty => .empty
  | op o next => .ofActions (o.actions head) ++ next.tree (o.headAfter head)
  | loop _ cell body next =>
    .ofActions (travelActions head cell) ++
      .loop (body.tree cell ++ .ofActions (travelActions (body.headAfter cell) cell)) (next.tree cell)

/-- The diagnostics of code leave the head where it is. -/
def Quiet (a : CellCode) : Prop :=
  ∀ d ∈ a.diagnostics, Stationary d.text

theorem quiet_of_nil {a : CellCode} (h : a.diagnostics = []) : a.Quiet := by
  intro d hd
  simp [h] at hd

theorem Quiet.op {o : CellOp} {next : CellCode} (h : (op o next).Quiet) :
    (∀ d, o = .mark d → Stationary d.text) ∧ next.Quiet := by
  constructor
  · rintro d rfl
    exact h d List.mem_cons_self
  · intro d hd
    apply h d
    cases o <;> simp [diagnostics, hd]

theorem Quiet.loop {kind : LoopKind} {cell : Int} {body next : CellCode}
    (h : (loop kind cell body next).Quiet) : body.Quiet ∧ next.Quiet :=
  ⟨fun d hd => h d (List.mem_append_left _ hd), fun d hd => h d (List.mem_append_right _ hd)⟩

/-- **The operations of assembled code are those of a tree.** -/
theorem ops_tree (comments : Bool) (head : Int) {a : CellCode} (h : a.Quiet) :
    (a.tree head).ops = operations (a.instructions comments head) := by
  induction a generalizing head with
  | empty => simp [tree, instructions, LoopTree.ops]
  | op o next ih =>
    obtain ⟨ho, hn⟩ := h.op
    rw [tree, LoopTree.ops_append, LoopTree.ops_ofActions, instructions, operations_append,
      CellOp.operations_instructions comments head ho, ih _ hn]
  | loop kind cell body next ihb ihn =>
    obtain ⟨hb, hn⟩ := h.loop
    have hopen : TapeOp.program Instruction.openLoop.code = [.openLoop] := by decide
    have hclose : TapeOp.program Instruction.closeLoop.code = [.closeLoop] := by decide
    simp only [tree, LoopTree.ops_append, LoopTree.ops_ofActions, LoopTree.ops, instructions,
      operations_append, operations_cons, operations_travel, hopen, hclose, ihb _ hb, ihn _ hn,
      List.append_assoc, List.cons_append, List.nil_append]

/-! ## Running the tree -/

end CellCode

/-- A cell of a tape. -/
def InTape (size : ℕ) (cell : Int) : Prop :=
  0 ≤ cell ∧ cell < size

section

variable {size : ℕ}

theorem foldl_replicate_right (s : Store Int) (n : ℕ) {head : Int} (h0 : 0 ≤ head)
    (hn : head + n < size) :
    (List.replicate n Action.right).foldl Action.apply (s.config size head) =
      s.config size (head + n) := by
  induction n generalizing head with
  | zero => simp
  | succ n ih =>
    rw [List.replicate_succ, List.foldl_cons, Store.right_config s h0 (by omega),
      ih (by omega) (by omega)]
    congr 1; omega

theorem foldl_replicate_left (s : Store Int) (n : ℕ) {head : Int} (hn : (n : Int) ≤ head)
    (hsize : head < size) :
    (List.replicate n Action.left).foldl Action.apply (s.config size head) =
      s.config size (head - n) := by
  induction n generalizing head with
  | zero => simp
  | succ n ih =>
    rw [List.replicate_succ, List.foldl_cons, Store.left_config s (by omega) hsize,
      ih (by omega) (by omega)]
    congr 1; omega

/-- Travelling moves the head and nothing else. -/
theorem foldl_travelActions (s : Store Int) {head cell : Int} (hh : InTape size head)
    (hc : InTape size cell) :
    (travelActions head cell).foldl Action.apply (s.config size head) = s.config size cell := by
  obtain ⟨hh0, hh1⟩ := hh
  obtain ⟨hc0, hc1⟩ := hc
  unfold travelActions Instruction.signedActions
  split
  · rw [foldl_replicate_right s _ hh0 (by omega)]
    congr 1; omega
  · rw [foldl_replicate_left s _ (by omega) hh1]
    congr 1; omega

/-- Actions that leave the head where it is act on the cell under it. -/
theorem foldl_actions (as : List Action) (s : Store Int) {head : Int} (hh : InTape size head)
    (has : ∀ a ∈ as, a ≠ .right ∧ a ≠ .left) :
    as.foldl Action.apply (s.config size head) = (as.foldl (Store.act head) s).config size head := by
  induction as generalizing s with
  | nil => rfl
  | cons a as ih =>
    obtain ⟨hr, hl⟩ := has a List.mem_cons_self
    rw [List.foldl_cons, Store.apply_config s hh.1 hh.2 hr hl,
      ih _ fun b hb => has b (List.mem_cons_of_mem _ hb)]
    rfl

theorem foldl_act_replicate (s : Store Int) (a : Action) (cell k : Int) (n : ℕ)
    (ha : ∀ s : Store Int, s.act cell a = s.add cell k) :
    (List.replicate n a).foldl (Store.act cell) s = s.add cell (n * k) := by
  induction n generalizing s with
  | zero => simp
  | succ n ih =>
    rw [List.replicate_succ, List.foldl_cons, ha, ih, Store.add_add]
    congr 1
    rw [Int.natCast_succ, Int.add_mul]; omega

theorem foldl_act_add (s : Store Int) (cell n : Int) :
    (Instruction.add n).actions.foldl (Store.act cell) s = s.add cell n := by
  simp only [Instruction.actions, Instruction.signedActions]
  split
  · rw [foldl_act_replicate s .increment cell 1 _ fun _ => rfl]
    congr 1; omega
  · rw [foldl_act_replicate s .decrement cell (-1) _ fun _ => rfl]
    congr 1; omega

/-- The actions of an operation do to the tape what the operation does to the cells. -/
theorem CellOp.foldl_actions_config (s : Store Int) {head : Int} {o : CellOp} (hh : InTape size head)
    (hc : ∀ cell, o.cell? = some cell → InTape size cell)
    (hd : ∀ d, o = .mark d → Stationary d.text) :
    (o.actions head).foldl Action.apply (s.config size head) =
      (o.apply head s).config size (o.headAfter head) := by
  have hstay : ∀ (n : Int), ∀ a ∈ (Instruction.add n).actions, a ≠ .right ∧ a ≠ .left := by
    intro n a ha
    rcases Instruction.mem_signedActions ha with rfl | rfl <;> simp
  cases o with
  | add cell n =>
    have hcell := hc cell rfl
    rw [actions, List.foldl_append, foldl_travelActions s hh hcell,
      foldl_actions _ s hcell (hstay n), foldl_act_add]
    rfl
  | print cell =>
    have hcell := hc cell rfl
    rw [actions, List.foldl_append, foldl_travelActions s hh hcell,
      foldl_actions _ s hcell (by simp [Instruction.actions])]
    rfl
  | read cell =>
    have hcell := hc cell rfl
    rw [actions, List.foldl_append, foldl_travelActions s hh hcell,
      foldl_actions _ s hcell (by simp [Instruction.actions])]
    rfl
  | mark d =>
    refine foldl_actions _ s hh fun a ha => ?_
    obtain ⟨-, -, hr, hl⟩ := hd d rfl _ (mem_textActions.1 ha)
    exact ⟨fun h => hr (by rw [h]; rfl), fun h => hl (by rw [h]; rfl)⟩
  | comment _ | declared _ => rfl

namespace CellCode

/-- Code that works on cells of the tape only. -/
def Within (size : ℕ) (a : CellCode) : Prop :=
  ∀ cell ∈ a.cells, InTape size cell

theorem Within.mono {size' : ℕ} {a : CellCode} (h : a.Within size) (hle : size ≤ size') :
    a.Within size' := by
  intro cell hc
  obtain ⟨h0, h1⟩ := h cell hc
  exact ⟨h0, by omega⟩

theorem Within.op {o : CellOp} {next : CellCode} (h : (op o next).Within size) :
    (∀ cell, o.cell? = some cell → InTape size cell) ∧ next.Within size :=
  ⟨fun cell hc => h cell (by simp [cells, hc]), fun cell hc => h cell (by simp [cells, hc])⟩

theorem Within.loop {kind : LoopKind} {cell : Int} {body next : CellCode}
    (h : (loop kind cell body next).Within size) :
    InTape size cell ∧ body.Within size ∧ next.Within size :=
  ⟨h cell (by simp [cells]), fun c hc => h c (by simp [cells, hc]), fun c hc => h c (by simp [cells, hc])⟩

theorem Within.append {a b : CellCode} (h : (a ++ b).Within size) : a.Within size ∧ b.Within size :=
  ⟨fun c hc => h c (by simp [hc]), fun c hc => h c (by simp [hc])⟩

theorem inTape_opHeadAfter {o : CellOp} {head : Int} (hh : InTape size head)
    (hc : ∀ cell, o.cell? = some cell → InTape size cell) : InTape size (o.headAfter head) := by
  cases o with
  | add cell _ | print cell | read cell => exact hc cell rfl
  | comment _ | mark _ | declared _ => exact hh

theorem inTape_headAfter {a : CellCode} {head : Int} (hh : InTape size head) (ha : a.Within size) :
    InTape size (a.headAfter head) := by
  induction a generalizing head with
  | empty => exact hh
  | op o next ih => exact ih (inTape_opHeadAfter hh ha.op.1) ha.op.2
  | loop kind cell body next _ ih => exact ih ha.loop.1 ha.loop.2.2

/-- A pass of a loop of the tree ends on the cell of the loop, and for the rest is a pass of the code. -/
theorem pass_tree {body : CellCode} {cell : Int} (hcell : InTape size cell) (hbody : body.Within size)
    (hrun : ∀ (s : Store Int) t, (body.tree cell).Run (s.config size cell) t ↔
      ∃ u, body.Run cell s u ∧ t = u.config size (body.headAfter cell)) (s : Store Int) (t : Config) :
    (body.tree cell ++ .ofActions (travelActions (body.headAfter cell) cell)).Run (s.config size cell) t ↔
      ∃ u, body.Run cell s u ∧ t = u.config size cell := by
  have hback (u : Store Int) := foldl_travelActions u (inTape_headAfter hcell hbody) hcell
  rw [LoopTree.run_append]
  simp only [LoopTree.run_ofActions, hrun]
  constructor
  · rintro ⟨_, ⟨u, hu, rfl⟩, rfl⟩
    exact ⟨u, hu, hback u⟩
  · rintro ⟨u, hu, rfl⟩
    exact ⟨_, ⟨u, hu, rfl⟩, (hback u).symm⟩

/-- **The tree does to the tape what the code does to the cells.** -/
theorem run_tree {a : CellCode} {head : Int} (hh : InTape size head) (ha : a.Within size)
    (hq : a.Quiet) (s : Store Int) (t : Config) :
    (a.tree head).Run (s.config size head) t ↔
      ∃ u, a.Run head s u ∧ t = u.config size (a.headAfter head) := by
  induction a generalizing head s t with
  | empty => simp [tree, LoopTree.Run, Run, headAfter]
  | op o next ih =>
    rw [tree, LoopTree.run_append]
    simp only [LoopTree.run_ofActions, CellOp.foldl_actions_config s hh ha.op.1 hq.op.1,
      exists_eq_left]
    exact ih (inTape_opHeadAfter hh ha.op.1) ha.op.2 hq.op.2 _ _
  | loop kind cell body next ihb ihn =>
    obtain ⟨hcell, hbody, hnext⟩ := ha.loop
    have hpass := pass_tree hcell hbody (ihb hcell hbody hq.loop.1)
    -- both test the same cell, so they make the same passes
    have hloop : ∀ t, LoopTree.Loops
        (body.tree cell ++ .ofActions (travelActions (body.headAfter cell) cell)).Run
          (s.config size cell) t ↔ ∃ u, Repeats (fun s => s.value cell ≠ 0) (body.Run cell) s u ∧
            True ∧ t = u.config size cell := fun t =>
      repeats_map (I := fun _ => True)
        (fun s _ => by rw [Store.current_config s hcell.1 hcell.2]) (fun s _ _ => hpass s)
        (fun _ _ _ _ _ => trivial) trivial
    rw [tree, LoopTree.run_append]
    simp only [LoopTree.run_ofActions, foldl_travelActions s hh hcell, exists_eq_left, LoopTree.Run,
      hloop, true_and, Run, headAfter]
    constructor
    · rintro ⟨_, ⟨v, hv, rfl⟩, ht⟩
      obtain ⟨u, hu, rfl⟩ := (ihn hcell hnext hq.loop.2 v t).1 ht
      exact ⟨u, ⟨v, hv, hu⟩, rfl⟩
    · rintro ⟨u, ⟨v, hv, hu⟩, rfl⟩
      exact ⟨_, ⟨v, hv, rfl⟩, (ihn hcell hnext hq.loop.2 v _).2 ⟨u, hu, rfl⟩⟩

/-! ## Visiting the tree -/

theorem tree_append (head : Int) (a b : CellCode) :
    (a ++ b).tree head = a.tree head ++ b.tree (a.headAfter head) := by
  induction a generalizing head with
  | empty => rfl
  | op o next ih => simp only [op_append, tree, headAfter, ih, LoopTree.append_assoc]
  | loop kind cell body next _ ih =>
    simp only [loop_append, tree, headAfter, ih, LoopTree.append_assoc, LoopTree.loop_append]

/-- Before the end of its first part a run of code visits places of that part. -/
theorem visits_tree_left {a b : CellCode} {comments : Bool} {head : Int} (hq : a.Quiet) {k : ℕ}
    (hk : k ≤ (operations (a.instructions comments head)).length) {s t : Config}
    (h : ((a ++ b).tree head).Visits s k t) : (a.tree head).Visits s k t := by
  rw [tree_append] at h
  rw [← ops_tree comments head hq] at hk
  exact LoopTree.visits_append_left hk h

/-- Beyond its first part a run of code visits places of the second part. -/
theorem visits_tree_right {a b : CellCode} {comments : Bool} {head : Int} (hh : InTape size head)
    (ha : a.Within size) (hq : a.Quiet) {k : ℕ} {s : Store Int} {t : Config}
    (h : ((a ++ b).tree head).Visits (s.config size head)
      ((operations (a.instructions comments head)).length + k) t) :
    ∃ u, a.Run head s u ∧ (b.tree (a.headAfter head)).Visits (u.config size (a.headAfter head)) k t := by
  rw [tree_append, ← ops_tree comments head hq] at h
  obtain ⟨_, hrun, hv⟩ := LoopTree.visits_append_right h
  obtain ⟨u, hu, rfl⟩ := (run_tree hh ha hq s _).1 hrun
  exact ⟨u, hu, hv⟩

/-- Between the ends of a loop a run of code visits the places of a pass, in every pass. -/
theorem visits_tree_loop {kind : LoopKind} {cell : Int} {body next : CellCode} {comments : Bool}
    {head : Int} (hh : InTape size head) (ha : (loop kind cell body next).Within size)
    (hq : (loop kind cell body next).Quiet) {k : ℕ}
    (hk : k ≤ (operations (body.instructions comments cell ++ travel (body.headAfter cell) cell)).length)
    {s : Store Int} {t : Config}
    (h : ((loop kind cell body next).tree head).Visits (s.config size head)
      ((operations (travel head cell ++ [.openLoop])).length + k) t) :
    ∃ u, Passes (fun s => s.value cell ≠ 0) (body.Run cell) s u ∧ u.value cell ≠ 0 ∧
      (body.tree cell ++ .ofActions (travelActions (body.headAfter cell) cell)).Visits
        (u.config size cell) k t := by
  obtain ⟨hcell, hbody, -⟩ := ha.loop
  rw [operations_append, operations_travel, ← ops_tree comments cell hq.loop.1, ← LoopTree.ops_ofActions,
    ← LoopTree.ops_append] at hk
  have hopen : operations [.openLoop] = [.openLoop] := by decide
  rw [tree, operations_append, operations_travel, hopen, List.length_append, ← LoopTree.ops_ofActions,
    Nat.add_assoc] at h
  -- the way to the cell of the loop lies behind
  obtain ⟨_, htravel, h⟩ := LoopTree.visits_append_right h
  rw [LoopTree.run_ofActions, foldl_travelActions s hh hcell] at htravel
  subst htravel
  have hcurrent (u : Store Int) : (u.config size cell).current = u.value cell :=
    Store.current_config u hcell.1 hcell.2
  have hpass := pass_tree hcell hbody (run_tree hcell hbody hq.loop.1)
  rw [List.length_singleton] at h
  rcases h with ⟨h, -⟩ | ⟨_, j, hpasses, htest, hj, hv⟩ | ⟨_, j, -, hj, -⟩
  · omega
  · obtain ⟨u, hp, -, rfl⟩ := (passes_map (I := fun _ => True) (fun s _ => by rw [hcurrent])
      (fun s _ _ => hpass s) (fun _ _ _ _ _ => trivial) trivial).1 hpasses
    obtain rfl : j = k := by omega
    exact ⟨u, hp, by rwa [hcurrent] at htest, hv⟩
  · -- the place lies before the end of the pass
    omega

/-- Inside a loop a run of code visits the places of the body, once in every pass. -/
theorem visits_tree_body {kind : LoopKind} {cell : Int} {body next : CellCode} {comments : Bool}
    {head : Int} (hh : InTape size head) (ha : (loop kind cell body next).Within size)
    (hq : (loop kind cell body next).Quiet) {k : ℕ}
    (hk : k ≤ (operations (body.instructions comments cell)).length) {s : Store Int} {t : Config}
    (h : ((loop kind cell body next).tree head).Visits (s.config size head)
      ((operations (travel head cell ++ [.openLoop])).length + k) t) :
    ∃ u, Passes (fun s => s.value cell ≠ 0) (body.Run cell) s u ∧ u.value cell ≠ 0 ∧
      (body.tree cell).Visits (u.config size cell) k t := by
  have hle : k ≤ (operations (body.instructions comments cell ++ travel (body.headAfter cell) cell)).length := by
    rw [operations_append, List.length_append]
    omega
  obtain ⟨u, hpasses, htest, hv⟩ := visits_tree_loop hh ha hq hle h
  rw [← ops_tree comments cell hq.loop.1] at hk
  exact ⟨u, hpasses, htest, LoopTree.visits_append_left hk hv⟩

/-- **A loop on a cell that is zero is skipped**: no run visits a place between its brackets. -/
theorem not_visits_of_zero (comments : Bool) {before body : CellCode} {kind : LoopKind} {cell head : Int}
    (hh : InTape size head) (ha : (before ++ .loop kind cell body .empty).Within size)
    (hq : (before ++ .loop kind cell body .empty).Quiet) {s : Store Int}
    (hzero : ∀ u, before.Run head s u → u.value cell = 0) {k : ℕ} {t : Config}
    (hin : (operations (before.instructions comments head ++
      (travel (before.headAfter head) cell ++ [.openLoop]))).length ≤ k)
    (hout : k < (operations ((before ++ .loop kind cell body .empty).instructions comments head)).length) :
    ¬ ((before ++ .loop kind cell body .empty).tree head).Visits (s.config size head) k t := by
  intro hv
  obtain ⟨hbefore, hloop⟩ := ha.append
  have hqb : before.Quiet := fun d hd => hq d (by simp [hd])
  have hql : (loop kind cell body .empty).Quiet := fun d hd => hq d (by simp [hd])
  obtain ⟨j, rfl⟩ := Nat.exists_eq_add_of_le hin
  rw [operations_append, List.length_append, Nat.add_assoc] at hv
  obtain ⟨u, hu, hv⟩ := visits_tree_right hh hbefore hqb hv
  have hj : j ≤ (operations (body.instructions comments cell ++ travel (body.headAfter cell) cell)).length := by
    have hclose : (TapeOp.program Instruction.closeLoop.code).length = 1 := by decide
    simp only [instructions_append, instructions, operations_append, operations_cons, operations_nil,
      List.length_append, List.length_nil, hclose] at hout ⊢
    omega
  obtain ⟨v, hpasses, htest, -⟩ := visits_tree_loop (inTape_headAfter hh hbefore) hloop hql hj hv
  -- there is no first pass
  rcases hpasses.cases_head with rfl | ⟨w, ⟨hne, -⟩, -⟩
  · exact htest (hzero _ hu)
  · exact hne (hzero u hu)

end CellCode

end

end TapeCompiler
