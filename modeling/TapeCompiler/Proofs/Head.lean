import TapeCompiler.Proofs.CellCode.Quiet
import TapeCompiler.Proofs.Compiled

/-!
# Where the head is

The assembler keeps track of the head along the code, and the machine jumps about in it. Yet they always
agree: every loop leaves the head on the cell on which it found it.

* `LoopTree.Steady`: a tree all of whose loops leave the head where they found it.
* `Steady.visits`: **wherever a run of such a tree comes by, the head is where reading the code from its start
  takes it**, however often loops were entered, repeated or skipped.
* `CellCode.leads_tree`: the tree of code on cells is one.
* `Assembler.Becomes`: the moments of an assembler; `Becomes.tracks`: what it takes for the cell under the head
  is where its instructions take it.
* `compiled_head_eq_position`: **a machine that runs a compiled source has its head where the assembler said,**
  and never beyond the tape of the program.
-/

namespace TapeCompiler

/-- How far an operation takes the head. -/
def TapeOp.shift : TapeOp → Int
  | right => 1
  | left => -1
  | increment | decrement | openLoop | closeLoop | write | read => 0

/-- How far operations take the head, one after the other. -/
def shiftOf : List TapeOp → Int
  | [] => 0
  | o :: os => o.shift + shiftOf os

@[simp]
theorem shiftOf_nil : shiftOf [] = 0 := rfl

@[simp]
theorem shiftOf_cons (o : TapeOp) (os : List TapeOp) : shiftOf (o :: os) = o.shift + shiftOf os := rfl

@[simp]
theorem shiftOf_append (os ps : List TapeOp) : shiftOf (os ++ ps) = shiftOf os + shiftOf ps := by
  induction os with
  | nil => simp
  | cons o os ih => rw [List.cons_append, shiftOf_cons, shiftOf_cons, ih]; omega

theorem shiftOf_replicate (n : ℕ) (o : TapeOp) : shiftOf (List.replicate n o) = n * o.shift := by
  induction n with
  | zero => simp
  | succ n ih => rw [List.replicate_succ, shiftOf_cons, ih, Int.natCast_succ, Int.add_mul]; omega

theorem shiftOf_eq_zero {os : List TapeOp} (h : ∀ o ∈ os, o ≠ .right ∧ o ≠ .left) : shiftOf os = 0 := by
  induction os with
  | nil => rfl
  | cons o os ih =>
    obtain ⟨⟨hr, hl⟩, hos⟩ := List.forall_mem_cons.1 h
    rw [shiftOf_cons, ih hos]
    cases o <;> simp_all [TapeOp.shift]

variable {size : ℕ}

namespace LoopTree

/-! ## Trees in balance -/

/-- The head starts on a cell and stays on the tape, and no loop moves it in the end. -/
def Steady (size : ℕ) : LoopTree → Int → Prop
  | empty, head => InTape size head
  | act a next, head => InTape size head ∧ next.Steady size (head + a.toOp.shift)
  | loop body next, head => body.Steady size head ∧ shiftOf body.ops = 0 ∧ next.Steady size head

/-- A tree takes the head from one cell to another. -/
structure Leads (size : ℕ) (b : LoopTree) (head last : Int) : Prop where
  steady : b.Steady size head
  shift : shiftOf b.ops = last - head

variable {a b : LoopTree} {head mid last : Int}

theorem Steady.inTape (h : b.Steady size head) : InTape size head := by
  induction b generalizing head with
  | empty => exact h
  | act a next _ => exact h.1
  | loop body next ihb _ => exact ihb h.1

theorem Steady.append (ha : a.Steady size head) (hb : b.Steady size (head + shiftOf a.ops)) :
    (a ++ b).Steady size head := by
  induction a generalizing head with
  | empty => simpa [ops] using hb
  | act x next ih =>
    refine ⟨ha.1, ih ha.2 ?_⟩
    rwa [ops, shiftOf_cons, ← Int.add_assoc] at hb
  | loop body next _ ih =>
    obtain ⟨hbody, hzero, hnext⟩ := ha
    refine ⟨hbody, hzero, ih hnext ?_⟩
    simpa [ops, hzero, TapeOp.shift] using hb

theorem Leads.append (ha : a.Leads size head mid) (hb : b.Leads size mid last) :
    (a ++ b).Leads size head last := by
  have hmid : head + shiftOf a.ops = mid := by rw [ha.shift]; omega
  refine ⟨ha.steady.append (hmid ▸ hb.steady), ?_⟩
  rw [ops_append, shiftOf_append, ha.shift, hb.shift]
  omega

/-- A loop whose body comes back. -/
theorem Leads.loop (ha : a.Leads size head head) (hb : b.Leads size head last) :
    (loop a b).Leads size head last := by
  have hzero : shiftOf a.ops = 0 := by rw [ha.shift]; omega
  refine ⟨⟨ha.steady, hzero, hb.steady⟩, ?_⟩
  simp [ops, TapeOp.shift, hzero, hb.shift]

end LoopTree

/-- The head of a configuration is on a cell, and the tape is not shorter than `size`. -/
def Config.On (size : ℕ) (head : Int) (s : Config) : Prop :=
  (s.pointer : Int) = head ∧ size ≤ s.tape.size

/-- An action that does not leave the first `size` cells does not go round the tape. -/
theorem Config.On.apply {s : Config} {head : Int} (h : s.On size head) (hh : InTape size head) {a : Action}
    (ha : InTape size (head + a.toOp.shift)) : (a.apply s).On size (head + a.toOp.shift) := by
  obtain ⟨hp, hsize⟩ := h
  obtain ⟨h0, h1⟩ := hh
  obtain ⟨ha0, ha1⟩ := ha
  refine ⟨?_, by rwa [Action.size_apply]⟩
  cases a with
  | right =>
    simp only [Action.toOp, TapeOp.shift] at ha1 ⊢
    have hlt : s.pointer + 1 < s.tape.size := by omega
    simp only [Action.apply, Nat.mod_eq_of_lt hlt]
    omega
  | left =>
    simp only [Action.toOp, TapeOp.shift] at ha0 ⊢
    have hback : s.pointer + s.tape.size - 1 = s.pointer - 1 + s.tape.size := by omega
    have hlt : s.pointer - 1 < s.tape.size := by omega
    simp only [Action.apply, hback, Nat.add_mod_right, Nat.mod_eq_of_lt hlt]
    omega
  | increment | decrement | write | read =>
    simpa [Action.apply, Config.alter, Action.toOp, TapeOp.shift] using hp

namespace LoopTree

/-- **Wherever a run comes by, the head is where reading the code from its start takes it.** The induction is
on the tree; a loop in balance hands every pass the head that it got itself. -/
theorem Steady.visits {b : LoopTree} {head : Int} (hb : b.Steady size head) {s t : Config} {k : ℕ}
    (hs : s.On size head) (hv : b.Visits s k t) :
    t.On size (head + shiftOf (b.ops.take k)) ∧ InTape size (head + shiftOf (b.ops.take k)) := by
  induction b generalizing head s t k with
  | empty =>
    obtain ⟨rfl, rfl⟩ := hv
    simpa using ⟨hs, hb⟩
  | act a next ih =>
    obtain ⟨hhead, hnext⟩ := hb
    rcases hv with ⟨rfl, rfl⟩ | ⟨j, rfl, hv⟩
    · simpa using ⟨hs, hhead⟩
    · have hmove := hs.apply hhead hnext.inTape
      rw [ops, List.take_succ_cons, shiftOf_cons, ← Int.add_assoc]
      exact ih hnext hmove hv
  | loop body next ihb ihn =>
    obtain ⟨hbody, hzero, hnext⟩ := hb
    -- a whole pass visits the end of the body
    have hpass (u v : Config) (hu : u.On size head) (hrun : body.Run u v) : v.On size head := by
      have h := (ihb hbody hu ((visits_ops_length body u v).2 hrun)).1
      rwa [List.take_length, hzero, Int.add_zero] at h
    rcases hv with ⟨rfl, rfl⟩ | ⟨u, j, hpasses, -, rfl, hv⟩ | ⟨u, j, hloops, rfl, hv⟩
    · simpa using ⟨hs, hbody.inTape⟩
    · have hu : u.On size head := hpasses.keeps hs fun v w hv' _ hw => hpass v w hv' hw
      have htake : (LoopTree.loop body next).ops.take (j + 1) = .openLoop :: body.ops.take j := by
        rw [ops, List.take_succ_cons, List.take_append_of_le_length hv.le_length]
      rw [htake, shiftOf_cons, TapeOp.shift, Int.zero_add]
      exact ihb hbody hu hv
    · have hu : u.On size head := hloops.1.keeps hs fun v w hv' _ hw => hpass v w hv' hw
      have htake : (LoopTree.loop body next).ops.take (body.ops.length + 2 + j) =
          .openLoop :: (body.ops ++ .closeLoop :: next.ops.take j) := by
        have hsplit : body.ops.length + 2 + j = body.ops.length + (j + 1) + 1 := by omega
        rw [ops, hsplit, List.take_succ_cons, List.take_length_add_append, List.take_succ_cons]
      rw [htake, shiftOf_cons, shiftOf_append, shiftOf_cons, hzero]
      simp only [TapeOp.shift, Int.zero_add]
      exact ihn hnext hu hv

/-! ## Actions -/

variable {head : Int}

theorem leads_empty (hh : InTape size head) : empty.Leads size head head :=
  ⟨hh, by simp [ops]⟩

theorem leads_act {a : Action} {next : LoopTree} {last : Int} (hh : InTape size head)
    (hn : next.Leads size (head + a.toOp.shift) last) : (act a next).Leads size head last := by
  refine ⟨⟨hh, hn.steady⟩, ?_⟩
  rw [ops, shiftOf_cons, hn.shift]
  omega

theorem ofActions_append (as bs : List Action) : ofActions (as ++ bs) = ofActions as ++ ofActions bs := by
  induction as with
  | nil => rfl
  | cons a as ih => exact congrArg (act a) ih

/-- Actions that leave the head where it is. -/
theorem leads_stay {as : List Action} (hh : InTape size head) (has : ∀ a ∈ as, a ≠ .right ∧ a ≠ .left) :
    (ofActions as).Leads size head head := by
  induction as with
  | nil => exact leads_empty hh
  | cons a as ih =>
    obtain ⟨⟨hr, hl⟩, has⟩ := List.forall_mem_cons.1 has
    have hshift : a.toOp.shift = 0 := by cases a <;> simp_all [Action.toOp, TapeOp.shift]
    exact leads_act hh (by rw [hshift, Int.add_zero]; exact ih has)

/-- All cells between two cells of the tape are cells of the tape. -/
theorem leads_replicate {a : Action} {n : ℕ} (hh : InTape size head)
    (hto : InTape size (head + n * a.toOp.shift)) :
    (ofActions (List.replicate n a)).Leads size head (head + n * a.toOp.shift) := by
  induction n generalizing head with
  | zero => simpa [ofActions] using leads_empty hh
  | succ n ih =>
    have hsplit : head + ((n + 1 : ℕ) : Int) * a.toOp.shift =
        head + a.toOp.shift + n * a.toOp.shift := by
      rw [Int.natCast_succ, Int.add_mul]; omega
    rw [hsplit] at hto ⊢
    have hnext : InTape size (head + a.toOp.shift) := by
      obtain ⟨h0, h1⟩ := hh
      obtain ⟨ht0, ht1⟩ := hto
      cases a <;> simp only [Action.toOp, TapeOp.shift] at ht0 ht1 ⊢ <;> constructor <;> omega
    exact leads_act hh (ih hnext hto)

theorem leads_travel {cell : Int} (hh : InTape size head) (hc : InTape size cell) :
    (ofActions (travelActions head cell)).Leads size head cell := by
  unfold travelActions Instruction.signedActions
  split
  · have hto : head + ((cell - head).toNat : Int) * Action.right.toOp.shift = cell := by
      simp only [Action.toOp, TapeOp.shift]; omega
    have h := leads_replicate (a := .right) (n := (cell - head).toNat) hh (by rwa [hto])
    rwa [hto] at h
  · have hto : head + ((-(cell - head)).toNat : Int) * Action.left.toOp.shift = cell := by
      simp only [Action.toOp, TapeOp.shift]; omega
    have h := leads_replicate (a := .left) (n := (-(cell - head)).toNat) hh (by rwa [hto])
    rwa [hto] at h

end LoopTree

namespace CellCode

theorem leads_op {o : CellOp} {head : Int} (hh : InTape size head)
    (hc : ∀ cell, o.cell? = some cell → InTape size cell)
    (hd : ∀ d, o = .mark d → Stationary d.text) :
    (LoopTree.ofActions (o.actions head)).Leads size head (o.headAfter head) := by
  cases o with
  | add cell n =>
    have hcell := hc cell rfl
    rw [CellOp.actions, LoopTree.ofActions_append]
    refine (LoopTree.leads_travel hh hcell).append (LoopTree.leads_stay hcell fun a ha => ?_)
    rcases Instruction.mem_signedActions ha with rfl | rfl <;> simp
  | print cell | read cell =>
    have hcell := hc cell rfl
    rw [CellOp.actions, LoopTree.ofActions_append]
    exact (LoopTree.leads_travel hh hcell).append
      (LoopTree.leads_stay hcell (by simp [Instruction.actions]))
  | mark d =>
    refine LoopTree.leads_stay hh fun a ha => ?_
    obtain ⟨-, -, hr, hl⟩ := hd d rfl _ (mem_textActions.1 ha)
    exact ⟨fun h => hr (by rw [h]; rfl), fun h => hl (by rw [h]; rfl)⟩
  | comment _ | declared _ => exact LoopTree.leads_empty hh

/-- **The loops of assembled code are in balance.** -/
theorem leads_tree {a : CellCode} {head : Int} (hh : InTape size head) (ha : a.Within size)
    (hq : a.Quiet) : (a.tree head).Leads size head (a.headAfter head) := by
  induction a generalizing head with
  | empty => exact LoopTree.leads_empty hh
  | op o next ih =>
    obtain ⟨hc, hnext⟩ := ha.op
    exact (leads_op hh hc hq.op.1).append (ih (inTape_opHeadAfter hh hc) hnext hq.op.2)
  | loop kind cell body next ihb ihn =>
    obtain ⟨hcell, hbody, hnext⟩ := ha.loop
    have hback := LoopTree.leads_travel (inTape_headAfter hcell hbody) hcell
    exact (LoopTree.leads_travel hh hcell).append
      (((ihb hcell hbody hq.loop.1).append hback).loop (ihn hcell hnext hq.loop.2))

end CellCode

/-! ## The moments of an assembler -/

/-- How far an instruction takes the head. -/
def Instruction.delta : Instruction → Int
  | move delta => delta
  | add _ | openLoop | closeLoop | print | read | comment _ | marker _ => 0

/-- How far instructions take the head, one after the other. -/
def deltaOf : List Instruction → Int
  | [] => 0
  | i :: is => i.delta + deltaOf is

theorem deltaOf_append (is js : List Instruction) : deltaOf (is ++ js) = deltaOf is + deltaOf js := by
  induction is with
  | nil => simp [deltaOf]
  | cons i is ih => rw [List.cons_append, deltaOf, deltaOf, ih]; omega

/-- The code of an instruction takes the head as far as it does, if diagnostics leave it where it is. -/
theorem Instruction.shiftOf_code {i : Instruction} (h : ∀ d, i = .marker d → Stationary d.text) :
    shiftOf (TapeOp.program i.code) = i.delta := by
  cases i with
  | move delta =>
    have hcode : TapeOp.program (Instruction.move delta).code =
        if 0 < delta then List.replicate delta.toNat .right
        else List.replicate (-delta).toNat .left := program_signedRun _ _ _
    rw [hcode, Instruction.delta]
    split <;> rw [shiftOf_replicate, TapeOp.shift] <;> omega
  | add n =>
    have hcode : TapeOp.program (Instruction.add n).code =
        if 0 < n then List.replicate n.toNat .increment
        else List.replicate (-n).toNat .decrement := program_signedRun _ _ _
    rw [hcode, Instruction.delta]
    refine shiftOf_eq_zero fun o ho => ?_
    split at ho <;> rw [List.eq_of_mem_replicate ho] <;> simp
  | openLoop | closeLoop | print | read => decide
  | comment text => rfl
  | marker d =>
    refine shiftOf_eq_zero fun o ho => ?_
    obtain ⟨-, -, hr, hl⟩ := h d rfl o ho
    exact ⟨hr, hl⟩

theorem shiftOf_operations {is : List Instruction} (h : ∀ d, .marker d ∈ is → Stationary d.text) :
    shiftOf (operations is) = deltaOf is := by
  induction is with
  | nil => simp [deltaOf]
  | cons i is ih =>
    have hfirst := i.shiftOf_code fun d hd => h d (hd ▸ List.mem_cons_self)
    have hrest := ih fun d hd => h d (List.mem_cons_of_mem _ hd)
    rw [operations_cons, shiftOf_append, hfirst, hrest]
    simp [deltaOf]

namespace Assembler

/-- An assembler becomes another one by some operations. -/
def Becomes : Assembler → Assembler → Prop :=
  Relation.ReflTransGen fun a b => ∃ op, (a.perform op).2 = b

variable {a b c : Assembler}

theorem becomes_perform (a : Assembler) (op : Op) : a.Becomes (a.perform op).2 :=
  .single ⟨op, rfl⟩

@[simp]
theorem move_self (a : Assembler) : a.move a.position = a := by
  simp [move]

@[simp]
theorem position_move (a : Assembler) (cell : Int) : (a.move cell).position = cell := by
  rw [move_eq]

theorem move_move (a : Assembler) (cell : Int) : (a.move cell).move cell = a.move cell := by
  have h := move_self (a.move cell)
  rwa [position_move] at h

theorem emitted_move (a : Assembler) (cell : Int) :
    (a.move cell).emitted.toList = a.emitted.toList ++ travel a.position cell := by
  rw [move_eq]

theorem openLoops_move (a : Assembler) (cell : Int) : (a.move cell).openLoops = a.openLoops := by
  rw [move_eq]

@[simp]
theorem emitted_emit (a : Assembler) (i : Instruction) :
    (a.emit i).emitted.toList = a.emitted.toList ++ [i] := by
  simp [emit]

/-- An operation first brings the head to a cell, if it needs one, and then emits at most one instruction. -/
theorem perform_cases (a : Assembler) (op : Op) :
    ∃ b, (b = a ∨ ∃ cell, b = a.move cell) ∧ (b.perform op).2 = (a.perform op).2 ∧
      (a.perform op).2.position = b.position ∧
      ((a.perform op).2.emitted.toList = b.emitted.toList ∨
        ∃ i, i.delta = 0 ∧ (a.perform op).2.emitted.toList = b.emitted.toList ++ [i]) := by
  cases op with
  | move cell => exact ⟨a.move cell, .inr ⟨cell, rfl⟩, move_move a cell, rfl, .inl rfl⟩
  | add cell n =>
    refine ⟨a.move cell, .inr ⟨cell, rfl⟩, ?_, rfl, .inr ⟨.add n, rfl, emitted_emit _ _⟩⟩
    simp only [perform, add, move_move]
  | print cell =>
    refine ⟨a.move cell, .inr ⟨cell, rfl⟩, ?_, rfl, .inr ⟨.print, rfl, emitted_emit _ _⟩⟩
    simp only [perform, print, move_move]
  | read cell =>
    refine ⟨a.move cell, .inr ⟨cell, rfl⟩, ?_, rfl, .inr ⟨.read, rfl, emitted_emit _ _⟩⟩
    simp only [perform, read, move_move]
  | openLoop cell =>
    refine ⟨a.move cell, .inr ⟨cell, rfl⟩, ?_, rfl, .inr ⟨.openLoop, rfl, emitted_emit _ _⟩⟩
    simp only [perform, openLoop, move_move]
  | closeLoop =>
    cases hl : a.openLoops with
    | nil => exact ⟨a, .inl rfl, rfl, by simp [perform, closeLoop, hl], by simp [perform, closeLoop, hl]⟩
    | cons cell rest =>
      refine ⟨a.move cell, .inr ⟨cell, rfl⟩, ?_, ?_, .inr ⟨.closeLoop, rfl, ?_⟩⟩
      · simp only [perform, closeLoop, openLoops_move, hl, move_move]
      · simp only [perform, closeLoop, hl]; rfl
      · simp only [perform, closeLoop, hl, emitted_emit]
  | comment text =>
    refine ⟨a, .inl rfl, rfl, ?_⟩
    simp only [perform, comment]
    split
    · exact ⟨rfl, .inr ⟨_, rfl, emitted_emit _ _⟩⟩
    · exact ⟨rfl, .inl rfl⟩
  | mark d => exact ⟨a, .inl rfl, rfl, rfl, .inr ⟨.marker d, rfl, emitted_emit _ _⟩⟩
  | finish => exact ⟨a, .inl rfl, rfl, rfl, .inl rfl⟩

theorem deltaOf_travel (head cell : Int) : deltaOf (travel head cell) = cell - head := by
  unfold travel
  split
  · rename_i h
    simp [deltaOf, h]
  · simp [deltaOf, Instruction.delta]

/-- The assembler is where its instructions take the head. -/
def Tracks (a : Assembler) : Prop :=
  a.position = deltaOf a.emitted.toList

theorem tracks_move (h : a.Tracks) (cell : Int) : (a.move cell).Tracks := by
  unfold Tracks at h ⊢
  rw [position_move, emitted_move, deltaOf_append, deltaOf_travel, ← h]
  omega

theorem tracks_perform (h : a.Tracks) (op : Op) : (a.perform op).2.Tracks := by
  obtain ⟨b, hb, -, hpos, hemit⟩ := perform_cases a op
  have htracks : b.Tracks := by
    rcases hb with rfl | ⟨cell, rfl⟩
    · exact h
    · exact tracks_move h cell
  unfold Tracks at htracks ⊢
  rcases hemit with hemit | ⟨i, hi, hemit⟩
  · rw [hpos, hemit, htracks]
  · rw [hpos, hemit, deltaOf_append, htracks]
    simp [deltaOf, hi]

/-- **What the assembler takes for the cell under the head is where its instructions take it.** -/
theorem Becomes.tracks (h : a.Becomes b) (ha : a.Tracks) : b.Tracks := by
  induction h with
  | refl => exact ha
  | tail _ hstep ih =>
    obtain ⟨op, rfl⟩ := hstep
    exact tracks_perform ih op

theorem isPrefix_perform (a : Assembler) (op : Op) :
    a.emitted.toList <+: (a.perform op).2.emitted.toList := by
  obtain ⟨b, hb, -, -, hemit⟩ := perform_cases a op
  have hfirst : a.emitted.toList <+: b.emitted.toList := by
    rcases hb with rfl | ⟨cell, rfl⟩
    · exact List.prefix_rfl
    · rw [emitted_move]; exact List.prefix_append _ _
  refine hfirst.trans ?_
  rcases hemit with hemit | ⟨i, -, hemit⟩
  · exact ⟨[], by rw [List.append_nil, hemit]⟩
  · rw [hemit]; exact List.prefix_append _ _

/-- What has been emitted stays. -/
theorem Becomes.isPrefix (h : a.Becomes b) : a.emitted.toList <+: b.emitted.toList := by
  induction h with
  | refl => exact List.prefix_rfl
  | tail _ hstep ih =>
    obtain ⟨op, rfl⟩ := hstep
    exact ih.trans (isPrefix_perform _ op)

/-- **There is a moment before every instruction**, also between the move that an operation needs and the
instruction itself. -/
theorem Becomes.exists_moment (h : a.Becomes b) {k : ℕ} (ha : a.emitted.toList.length ≤ k)
    (hb : k ≤ b.emitted.toList.length) :
    ∃ c, a.Becomes c ∧ c.Becomes b ∧ c.emitted.toList.length = k := by
  induction h with
  | refl => exact ⟨a, .refl, .refl, by omega⟩
  | @tail b' _ hfirst hstep ih =>
    obtain ⟨op, rfl⟩ := hstep
    rcases Nat.lt_or_ge b'.emitted.toList.length k with hk | hk
    · obtain ⟨c, hc, hperform, -, hemit⟩ := perform_cases b' op
      have hmoves : b'.Becomes c ∧ c.emitted.toList.length ≤ b'.emitted.toList.length + 1 := by
        rcases hc with rfl | ⟨cell, rfl⟩
        · exact ⟨.refl, by omega⟩
        · refine ⟨becomes_perform b' (.move cell), ?_⟩
          rw [emitted_move, List.length_append]
          unfold travel
          split <;> simp
      rcases Nat.lt_or_ge c.emitted.toList.length k with hck | hck
      · -- nothing but the operation's own instruction comes behind `c`
        refine ⟨(b'.perform op).2, hfirst.trans (becomes_perform b' op), .refl, ?_⟩
        rcases hemit with hemit | ⟨i, -, hemit⟩
        · rw [hemit] at hb ⊢
          omega
        · rw [hemit, List.length_append, List.length_singleton] at hb ⊢
          omega
      · exact ⟨c, hfirst.trans hmoves.1, hperform ▸ becomes_perform c op, by omega⟩
    · obtain ⟨c, hac, hcb, hlen⟩ := ih hk
      exact ⟨c, hac, hcb.trans (becomes_perform b' op), hlen⟩

/-- Assembling code is a matter of operations. -/
theorem becomes_assemble (a : Assembler) (code : CellCode) : a.Becomes (a.assemble code) := by
  induction code generalizing a with
  | empty => rw [assemble_empty]; exact .refl
  | op o next ih =>
    rw [assemble_op]
    refine Relation.ReflTransGen.trans ?_ (ih _)
    cases o with
    | add cell n => rw [← add_eq]; exact becomes_perform a (.add cell n)
    | print cell => rw [← print_eq]; exact becomes_perform a (.print cell)
    | read cell => rw [← read_eq]; exact becomes_perform a (.read cell)
    | comment text => rw [← comment_eq]; exact becomes_perform a (.comment text)
    | mark d => rw [← mark_eq]; exact becomes_perform a (.mark d)
    | declared cell => rw [assemble_declared, assemble_empty]
  | loop kind cell body next ihb ihn =>
    have happend : CellCode.loop kind cell body next = .loop kind cell body .empty ++ next := rfl
    have hclose := a.closeLoop_assemble kind cell body
    have hlast : (((a.openLoop cell).assemble body).perform .closeLoop).2 =
        a.assemble (.loop kind cell body .empty) := by simp only [perform, hclose]
    rw [happend, assemble_append]
    refine Relation.ReflTransGen.trans ?_ (ihn _)
    rw [← hlast]
    exact ((becomes_perform a (.openLoop cell)).trans (ihb _)).trans (becomes_perform _ .closeLoop)

end Assembler

/-! ## Compiled sources -/

/-- At some moment between two states of a generator its assembler is `a`. -/
def Generator.Moment (g g' : Generator) (a : Assembler) : Prop :=
  g.assembler.Becomes a ∧ a.Becomes g'.assembler

/-- The generator of a compiled source, at first and in the end. -/
theorem exists_generator_of_plan {program : List Stmt} {options : Options} {code : CellCode}
    (h : plan program options.tapeSize = .ok code) :
    ∃ g g', Generator.ofSize options.tapeSize options.comments = .ok g ∧
      Generate.statements program g = .ok () g' ∧ g.assembler = .new options.comments ∧
      g'.assembler = (Assembler.new options.comments).assemble code := by
  obtain ⟨r, r', hr, hs⟩ := plan_ok h
  obtain ⟨code', r'', hplan, hrun, -⟩ | ⟨e, g, hplan, -⟩ :=
    Generate.statements_follow program r (.new options.comments)
  · obtain ⟨rfl, rfl⟩ := Prod.mk.inj (Except.ok.inj (hs.symm.trans hplan))
    exact ⟨_, _, by rw [Generator.ofSize, hr]; rfl, hrun, rfl, rfl⟩
  · rw [hs] at hplan
    cases hplan

/-- The head of a machine that runs a compiled source is where reading the code from its start takes it. -/
theorem head_of_plan {source : String} {options : Options} {program : List Stmt} {c : Compiled}
    {code : CellCode} (hparse : parse source (scan source) = .ok program)
    (hplan : plan program options.tapeSize = .ok code)
    (hc : c.instructions = code.instructions options.comments 0) (hsize : options.tapeSize ≤ size)
    (input : String) :
    ∃ m, (Machine.blank size).load c.code input = (.ok (), m) ∧
      ∀ n, ((m.after n).pointer : Int) = shiftOf ((operations c.instructions).take (m.after n).pc) ∧
        InTape options.tapeSize.toNat (m.after n).pointer := by
  have hquiet := plan_quiet hparse hplan
  obtain ⟨hpos, hwithin⟩ := plan_within hplan
  obtain ⟨m, hload, hstarts, hconfig⟩ := starts_compiled hc hquiet (show 0 < size by omega) input
  have htree : (code.tree 0).Leads options.tapeSize.toNat 0 (code.headAfter 0) :=
    CellCode.leads_tree ⟨Int.le_refl 0, by omega⟩ hwithin hquiet
  have hstart : m.config.On options.tapeSize.toNat 0 := by
    rw [hconfig]
    exact ⟨rfl, by simp [Store.config]; omega⟩
  refine ⟨m, hload, fun n => ?_⟩
  obtain ⟨k, s, j, hafter, hv⟩ := Machine.after_visits hstarts n
  obtain ⟨⟨hpointer, -⟩, hin⟩ := htree.steady.visits hstart hv
  rw [CellCode.ops_tree options.comments 0 hquiet, ← hc, Int.zero_add] at hpointer hin
  rw [hafter]
  exact ⟨hpointer, by rw [← hpointer] at hin; exact hin⟩

theorem stationary_of_plan {source : String} {options : Options} {program : List Stmt} {c : Compiled}
    {code : CellCode} (hparse : parse source (scan source) = .ok program)
    (hplan : plan program options.tapeSize = .ok code)
    (hc : c.instructions = code.instructions options.comments 0) :
    ∀ d, .marker d ∈ c.instructions → Stationary d.text := by
  intro d hd
  refine plan_quiet hparse hplan d ?_
  rw [← CellCode.diagnosticsOf_instructions options.comments 0, ← hc]
  exact List.mem_filterMap.2 ⟨_, hd, rfl⟩

/-- **The head is where the assembler said.** A machine with enough cells that runs a compiled source, with or
without diagnostics, has its head on the tape of the program at every step, where reading the code without
jumps takes it. At the first operation of an instruction it is on the cell that the assembler took for the cell
under the head when it emitted the instruction, however often the loops around it were entered, repeated or
skipped. -/
theorem compiled_head_eq_position {source : String} {options : Options} {c : Compiled}
    (hcompile : compile source options = .ok c) (hsize : options.tapeSize ≤ size) (input : String) :
    ∃ program g g' m, parse source (scan source) = .ok program ∧
      Generator.ofSize options.tapeSize options.comments = .ok g ∧
      Generate.statements program g = .ok () g' ∧ g'.instructions = c.instructions ∧
      (Machine.blank size).load c.code input = (.ok (), m) ∧
      (∀ n, ((m.after n).pointer : Int) = shiftOf ((operations c.instructions).take (m.after n).pc) ∧
        ((m.after n).pointer : Int) < options.tapeSize) ∧
      ∀ k ≤ c.instructions.length,
        (∃ a, g.Moment g' a ∧ a.emitted.toList = c.instructions.take k) ∧
        ∀ a, g.Moment g' a → a.emitted.toList.length = k →
          ∀ n, (m.after n).pc = (operations (c.instructions.take k)).length →
            ((m.after n).pointer : Int) = a.position := by
  obtain ⟨program, code, hparse, hplan, hc⟩ := exists_plan_of_compile hcompile
  obtain ⟨g, g', hg, hrun, hstart, hend⟩ := exists_generator_of_plan hplan
  obtain ⟨m, hload, hhead⟩ := head_of_plan hparse hplan hc hsize input
  have hstationary := stationary_of_plan hparse hplan hc
  have hfinal : g'.assembler.emitted.toList = c.instructions := by
    rw [hend, hc]
    simp [Assembler.assemble, Assembler.new]
  have hall : g.assembler.Becomes g'.assembler := by
    rw [hstart, hend]
    exact Assembler.becomes_assemble _ _
  -- what was emitted at a moment is the beginning of all instructions
  have htake {a : Assembler} (ha : g.Moment g' a) :
      a.emitted.toList = c.instructions.take a.emitted.toList.length := by
    rw [← hfinal]
    exact List.prefix_iff_eq_take.1 ha.2.isPrefix
  refine ⟨program, g, g', m, hparse, hg, hrun, hfinal, hload, fun n => ?_, fun k hk => ⟨?_, ?_⟩⟩
  · obtain ⟨hpointer, hin⟩ := hhead n
    exact ⟨hpointer, by have := hin.2; omega⟩
  · obtain ⟨a, hga, hag', hlen⟩ := hall.exists_moment (k := k) (by simp [hstart, Assembler.new])
      (by rwa [hfinal])
    exact ⟨a, ⟨hga, hag'⟩, hlen ▸ htake ⟨hga, hag'⟩⟩
  · intro a ha hlen n hpc
    have hemitted : a.emitted.toList = c.instructions.take k := hlen ▸ htake ha
    have htracks : a.position = deltaOf (c.instructions.take k) := by
      rw [← hemitted]
      exact ha.1.tracks (by rw [hstart]; rfl)
    have hfirst : (operations c.instructions).take (operations (c.instructions.take k)).length =
        operations (c.instructions.take k) := by
      conv_lhs => rw [← List.take_append_drop k c.instructions, operations_append]
      simp
    rw [(hhead n).1, hpc, hfirst, htracks]
    exact shiftOf_operations fun d hd => hstationary d (List.mem_of_mem_take hd)

/-- A source with diagnostics inside and outside of a loop that runs three times. -/
def diagnosedSource : String :=
  "var $a, $b; $a = 3; while -$a \x7b $b = $c; print +$b; def $f($x) \x7b $x = '>'; \x7d \x7d $f();"

theorem compiled_head_eq_position_diagnosed :
    ∃ c m, compile diagnosedSource ⟨3, true, false, 1⟩ = .ok c ∧ c.ok = false ∧
      (Machine.blank 3).load c.code "x" = (.ok (), m) ∧ ∀ n, ((m.after n).pointer : Int) < 3 := by
  have hcompile : (compile diagnosedSource ⟨3, true, false, 1⟩).map Compiled.ok = .ok false := by
    decide +kernel
  obtain ⟨c, hc, hok⟩ := exists_of_map_ok hcompile
  have hsize : (3 : Int) ≤ (3 : ℕ) := by decide
  obtain ⟨_, _, _, m, _, _, _, _, hload, hhead, _⟩ := compiled_head_eq_position hc hsize "x"
  exact ⟨c, m, hc, hok, hload, fun n => (hhead n).2⟩

end TapeCompiler
