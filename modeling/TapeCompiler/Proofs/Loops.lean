import TapeCompiler.Proofs.Head

/-!
# The loops of instructions

Which instruction closes the loop that another one opened is told by the stack of open loops. The assembler
keeps the cells of these loops; here the stack holds the indices of the instructions that opened them, so that
two loops on one cell can be told apart.

* `pending`: the open loops after instructions, if no loop is closed that is not open.
* `ClosesLoop`: an instruction closes the loop that another one opened.
* `exists_closesLoop`: **if no loop is open in the end, every loop is closed.**
* `Assembler.Nests`, `Becomes.nests`: **the assembler's stack holds the cells of the pending loops.**
* `Generator.SameLoop`, `sameLoop_iff_closesLoop`: **the ends of one loop are the ends of one entry of the
  assembler's stack.**
-/

namespace TapeCompiler

/-- The open loops behind the instruction with index `n`, the innermost first. -/
def Instruction.pend (n : ℕ) (loops : List ℕ) : Instruction → Option (List ℕ)
  | openLoop => some (n :: loops)
  | closeLoop =>
    match loops with
    | [] => none
    | _ :: outer => some outer
  | move _ | add _ | print | read | comment _ | marker _ => some loops

/-- The open loops behind instructions, the first of which has index `n`. -/
def pendingFrom (n : ℕ) (loops : List ℕ) : List Instruction → Option (List ℕ)
  | [] => some loops
  | i :: is => (i.pend n loops).bind fun loops' => pendingFrom (n + 1) loops' is

/-- The indices of the instructions whose loops are open behind instructions, the innermost first. -/
def pending (is : List Instruction) : Option (List ℕ) :=
  pendingFrom 0 [] is

/-- The instruction with index `j` closes the loop that the one with index `k` opened. -/
def ClosesLoop (is : List Instruction) (k j : ℕ) : Prop :=
  is[j]? = some .closeLoop ∧ ∃ outer, pending (is.take j) = some (k :: outer)

theorem pendingFrom_append (n : ℕ) (loops : List ℕ) (is js : List Instruction) :
    pendingFrom n loops (is ++ js) =
      (pendingFrom n loops is).bind fun loops' => pendingFrom (n + is.length) loops' js := by
  induction is generalizing n loops with
  | nil => simp [pendingFrom]
  | cons i is ih =>
    have hlength : n + (i :: is).length = n + 1 + is.length := by rw [List.length_cons]; omega
    simp only [List.cons_append, pendingFrom, ih, Option.bind_assoc, hlength]

theorem pending_concat (is : List Instruction) (i : Instruction) :
    pending (is ++ [i]) = (pending is).bind fun loops => i.pend is.length loops := by
  simp [pending, pendingFrom_append, pendingFrom]

section

variable {is : List Instruction} {loops : List ℕ} {k j n : ℕ}

theorem pending_take_succ {i : Instruction} (hi : is[n]? = some i) :
    pending (is.take (n + 1)) = (pending (is.take n)).bind fun loops => i.pend n loops := by
  obtain ⟨hn, -⟩ := List.getElem?_eq_some_iff.1 hi
  rw [List.take_add_one, hi, Option.toList_some, pending_concat, List.length_take,
    Nat.min_eq_left (Nat.le_of_lt hn)]

/-- No beginning closes a loop that is not open, if the whole does not. -/
theorem exists_pending_take (h : pending is = some loops) (n : ℕ) : ∃ first, pending (is.take n) = some first := by
  rw [← List.take_append_drop n is, pending, pendingFrom_append] at h
  obtain ⟨first, hfirst, -⟩ := Option.bind_eq_some_iff.1 h
  exact ⟨first, hfirst⟩

/-- What one more instruction does to the open loops. -/
theorem pending_step (hn : n < is.length) (h : pending (is.take (n + 1)) = some loops) :
    ∃ i before, is[n]? = some i ∧ pending (is.take n) = some before ∧ i.pend n before = some loops := by
  have hi : is[n]? = some is[n] := List.getElem?_eq_getElem hn
  rw [pending_take_succ hi] at h
  obtain ⟨before, hbefore, hpend⟩ := Option.bind_eq_some_iff.1 h
  exact ⟨is[n], before, hi, hbefore, hpend⟩

/-- An instruction opens a loop, closes the innermost one or leaves the open loops alone. -/
theorem Instruction.pend_cases {i : Instruction} {before : List ℕ} (h : i.pend n before = some loops) :
    (i = .openLoop ∧ loops = n :: before) ∨ (i = .closeLoop ∧ ∃ k, before = k :: loops) ∨
      (i ≠ .openLoop ∧ i ≠ .closeLoop ∧ loops = before) := by
  cases i with
  | openLoop => exact .inl ⟨rfl, (Option.some.inj h).symm⟩
  | closeLoop =>
    cases before with
    | nil => cases h
    | cons k outer => exact .inr (.inl ⟨rfl, k, by rw [Option.some.inj h]⟩)
  | move _ | add _ | print | read | comment _ | marker _ =>
    exact .inr (.inr ⟨by simp, by simp, (Option.some.inj h).symm⟩)

/-- The open loops were opened one after the other. -/
theorem pending_sorted (hn : n ≤ is.length) (h : pending (is.take n) = some loops) :
    loops.Pairwise (· > ·) ∧ ∀ k ∈ loops, k < n ∧ is[k]? = some .openLoop := by
  induction n generalizing loops with
  | zero =>
    obtain rfl : [] = loops := Option.some.inj h
    simp
  | succ n ih =>
    obtain ⟨i, before, hi, hbefore, hpend⟩ := pending_step hn h
    obtain ⟨hsorted, hopen⟩ := ih (by omega) hbefore
    have hlater : ∀ k ∈ before, k < n + 1 ∧ is[k]? = some .openLoop := by
      intro k hk
      obtain ⟨hlt, hkopen⟩ := hopen k hk
      exact ⟨by omega, hkopen⟩
    obtain ⟨rfl, rfl⟩ | ⟨rfl, k, rfl⟩ | ⟨-, -, rfl⟩ := Instruction.pend_cases hpend
    · refine ⟨List.pairwise_cons.2 ⟨fun k hk => (hopen k hk).1, hsorted⟩, ?_⟩
      exact List.forall_mem_cons.2 ⟨⟨by omega, hi⟩, hlater⟩
    · exact ⟨hsorted.of_cons, fun k hk => hlater k (List.mem_cons_of_mem _ hk)⟩
    · exact ⟨hsorted, hlater⟩

/-- **An open loop has been open ever since it was opened**, inside of the loops that were open then. -/
theorem suffix_of_suffix {outer : List ℕ} (hn : n ≤ is.length) (h : pending (is.take n) = some loops)
    (hk : k :: outer <:+ loops) :
    pending (is.take k) = some outer ∧
      ∀ m, k < m → m ≤ n → ∃ now, pending (is.take m) = some now ∧ k :: outer <:+ now := by
  induction n generalizing loops with
  | zero =>
    obtain rfl : [] = loops := Option.some.inj h
    simp at hk
  | succ n ih =>
    obtain ⟨i, before, hi, hbefore, hpend⟩ := pending_step hn h
    -- a loop that was open before the last instruction
    have hearlier (hold : k :: outer <:+ before) : pending (is.take k) = some outer ∧
        ∀ m, k < m → m ≤ n + 1 → ∃ now, pending (is.take m) = some now ∧ k :: outer <:+ now := by
      obtain ⟨hfirst, hsince⟩ := ih (by omega) hbefore hold
      refine ⟨hfirst, fun m hkm hm => ?_⟩
      rcases Nat.lt_or_ge n m with hlast | hm
      · obtain rfl : m = n + 1 := by omega
        exact ⟨loops, h, hk⟩
      · exact hsince m hkm hm
    obtain ⟨rfl, rfl⟩ | ⟨rfl, x, rfl⟩ | ⟨-, -, rfl⟩ := Instruction.pend_cases hpend
    · rcases List.suffix_cons_iff.1 hk with hnew | hold
      · obtain ⟨rfl, rfl⟩ := List.cons.inj hnew
        refine ⟨hbefore, fun m hkm hm => ?_⟩
        obtain rfl : m = k + 1 := by omega
        exact ⟨_, h, hk⟩
      · exact hearlier hold
    · exact hearlier (hk.trans (List.suffix_cons x loops))
    · exact hearlier hk

/-- The loop was opened before. -/
theorem ClosesLoop.opening (h : ClosesLoop is k j) : is[k]? = some .openLoop ∧ k < j := by
  obtain ⟨hclose, outer, hbefore⟩ := h
  obtain ⟨hj, -⟩ := List.getElem?_eq_some_iff.1 hclose
  obtain ⟨hlt, hopen⟩ := (pending_sorted (Nat.le_of_lt hj) hbefore).2 k List.mem_cons_self
  exact ⟨hopen, hlt⟩

/-- An instruction closes one loop. -/
theorem ClosesLoop.unique {k' : ℕ} (h : ClosesLoop is k j) (h' : ClosesLoop is k' j) : k = k' := by
  obtain ⟨-, outer, hbefore⟩ := h
  obtain ⟨-, outer', hbefore'⟩ := h'
  exact (List.cons.inj (Option.some.inj (hbefore.symm.trans hbefore'))).1

/-- A loop that was closed is not open again. -/
theorem ClosesLoop.notMem (hclose : ClosesLoop is k j) (hj : j < n) (hn : n ≤ is.length)
    (h : pending (is.take n) = some loops) : k ∉ loops := by
  intro hk
  obtain ⟨hcloses, outer, hbefore⟩ := hclose
  obtain ⟨inner, rest, rfl⟩ := List.append_of_mem hk
  obtain ⟨-, hsince⟩ := suffix_of_suffix hn h (List.suffix_append inner (k :: rest))
  obtain ⟨hsorted, hopened⟩ := pending_sorted (by omega) hbefore
  have hkj := (hopened k List.mem_cons_self).1
  obtain ⟨now, hnow, hsuffix⟩ := hsince (j + 1) (by omega) (by omega)
  rw [pending_take_succ hcloses, hbefore] at hnow
  obtain rfl : outer = now := Option.some.inj hnow
  -- the loop was the innermost one, so it is not among those around it
  have hlt : k > k := (List.pairwise_cons.1 hsorted).1 k (hsuffix.subset List.mem_cons_self)
  omega

/-- A loop that was opened is open, or it was closed. -/
theorem mem_or_closesLoop (hk : is[k]? = some .openLoop) (hkn : k < n) (hn : n ≤ is.length)
    (h : pending (is.take n) = some loops) : k ∈ loops ∨ ∃ j < n, ClosesLoop is k j := by
  induction n generalizing loops with
  | zero => omega
  | succ n ih =>
    obtain ⟨i, before, hi, hbefore, hpend⟩ := pending_step hn h
    rcases Nat.lt_or_ge k n with hlt | hge
    · rcases ih hlt (by omega) hbefore with hopen | ⟨j, hj, hclosed⟩
      · obtain ⟨rfl, rfl⟩ | ⟨rfl, x, rfl⟩ | ⟨-, -, rfl⟩ := Instruction.pend_cases hpend
        · exact .inl (List.mem_cons_of_mem _ hopen)
        · rcases List.mem_cons.1 hopen with rfl | hopen
          · exact .inr ⟨n, by omega, hi, loops, hbefore⟩
          · exact .inl hopen
        · exact .inl hopen
      · exact .inr ⟨j, by omega, hclosed⟩
    · obtain rfl : k = n := by omega
      obtain rfl : Instruction.openLoop = i := Option.some.inj (hk.symm.trans hi)
      obtain rfl : k :: before = loops := Option.some.inj hpend
      exact .inl List.mem_cons_self

/-- **If no loop is open in the end, every loop is closed.** -/
theorem exists_closesLoop (h : pending is = some []) (hk : is[k]? = some .openLoop) : ∃ j, ClosesLoop is k j := by
  obtain ⟨hlt, -⟩ := List.getElem?_eq_some_iff.1 hk
  have hall : pending (is.take is.length) = some [] := by rwa [List.take_length]
  rcases mem_or_closesLoop hk hlt (Nat.le_refl _) hall with hopen | ⟨j, -, hclosed⟩
  · cases hopen
  · exact ⟨j, hclosed⟩

/-- Every closing instruction closes a loop. -/
theorem exists_closedLoop (h : pending is = some loops) (hj : is[j]? = some .closeLoop) :
    ∃ k, is[k]? = some .openLoop ∧ ClosesLoop is k j := by
  obtain ⟨hlt, -⟩ := List.getElem?_eq_some_iff.1 hj
  obtain ⟨after, hafter⟩ := exists_pending_take h (j + 1)
  obtain ⟨i, before, hi, hbefore, hpend⟩ := pending_step hlt hafter
  obtain rfl : Instruction.closeLoop = i := Option.some.inj (hj.symm.trans hi)
  obtain ⟨hfalse, -⟩ | ⟨-, k, rfl⟩ | ⟨-, hfalse, -⟩ := Instruction.pend_cases hpend
  · cases hfalse
  · have hclose : ClosesLoop is k j := ⟨hj, after, hbefore⟩
    exact ⟨k, hclose.opening.1, hclose⟩
  · exact absurd rfl hfalse

end

/-! ## The assembler's stack -/

/-- The cell under the head before the instruction with index `k`. -/
def cellAt (is : List Instruction) (k : ℕ) : Int :=
  deltaOf (is.take k)

theorem map_cellAt_append {is : List Instruction} {loops : List ℕ} (h : ∀ k ∈ loops, k < is.length)
    (js : List Instruction) : loops.map (cellAt (is ++ js)) = loops.map (cellAt is) := by
  refine List.map_congr_left fun k hk => ?_
  rw [cellAt, cellAt, List.take_append_of_le_length (Nat.le_of_lt (h k hk))]

namespace Assembler

/-- The stack of open loops holds the cells on which the pending loops were opened. -/
structure Nests (a : Assembler) : Prop where
  tracks : a.Tracks
  stack : ∃ loops, pending a.emitted.toList = some loops ∧ a.openLoops = loops.map (cellAt a.emitted.toList)

variable {a b : Assembler}

/-- **What one emitted instruction preserves**: the stack of open loops follows the pending loops. -/
theorem Nests.emitted {i : Instruction} (h : a.Nests) (hb : b.Tracks)
    (hemit : b.emitted.toList = a.emitted.toList ++ [i])
    (hloops : (i = .openLoop ∧ b.openLoops = a.position :: a.openLoops) ∨
      (i = .closeLoop ∧ ∃ cell, a.openLoops = cell :: b.openLoops) ∨
      (i ≠ .openLoop ∧ i ≠ .closeLoop ∧ b.openLoops = a.openLoops)) : b.Nests := by
  obtain ⟨htracks, loops, hpending, hstack⟩ := h
  have hbefore : pending (a.emitted.toList.take a.emitted.toList.length) = some loops := by
    rwa [List.take_length]
  have hlt : ∀ k ∈ loops, k < a.emitted.toList.length := fun k hk =>
    ((pending_sorted (Nat.le_refl _) hbefore).2 k hk).1
  have hmap := map_cellAt_append hlt [i]
  refine ⟨hb, ?_⟩
  rw [hemit, pending_concat, hpending, Option.bind_some]
  obtain ⟨rfl, hopen⟩ | ⟨rfl, cell, hclose⟩ | ⟨ho, hc, hsame⟩ := hloops
  · -- the loop is opened where the head has come to
    refine ⟨_, rfl, ?_⟩
    have hcell : cellAt (a.emitted.toList ++ [.openLoop]) a.emitted.toList.length = a.position := by
      rw [cellAt, List.take_left, htracks]
    rw [hopen, List.map_cons, hmap, hcell, hstack]
  · cases loops with
    | nil => simp [hstack] at hclose
    | cons k outer =>
      refine ⟨outer, rfl, ?_⟩
      rw [hstack, ← hmap, List.map_cons] at hclose
      exact (List.cons.inj hclose).2.symm
  · refine ⟨loops, ?_, by rw [hsame, hstack, hmap]⟩
    cases i <;> first | rfl | contradiction

theorem nests_move (h : a.Nests) (cell : Int) : (a.move cell).Nests := by
  by_cases hcell : cell = a.position
  · rw [hcell, move_self]
    exact h
  · refine h.emitted (i := .move (cell - a.position)) (tracks_move h.tracks cell) ?_ ?_
    · rw [emitted_move, travel, if_neg (by omega)]
    · exact .inr (.inr ⟨by simp, by simp, openLoops_move a cell⟩)

/-- What one operation preserves. -/
theorem nests_perform (h : a.Nests) (op : Op) : (a.perform op).2.Nests := by
  have htracks := tracks_perform h.tracks op
  cases op with
  | move cell => exact nests_move h cell
  | add cell n =>
    exact (nests_move h cell).emitted htracks (emitted_emit _ _) (.inr (.inr ⟨by simp, by simp, rfl⟩))
  | print cell | read cell =>
    exact (nests_move h cell).emitted htracks (emitted_emit _ _) (.inr (.inr ⟨by simp, by simp, rfl⟩))
  | openLoop cell =>
    refine (nests_move h cell).emitted htracks (emitted_emit _ _) (.inl ⟨rfl, ?_⟩)
    rw [position_move]
    rfl
  | closeLoop =>
    cases hloops : a.openLoops with
    | nil =>
      have hsame : (a.perform .closeLoop).2 = a := by simp [perform, closeLoop, hloops]
      rwa [hsame]
    | cons cell outer =>
      have hclose : (a.perform .closeLoop).2 = { (a.move cell).emit .closeLoop with openLoops := outer } := by
        simp [perform, closeLoop, hloops]
      rw [hclose] at htracks ⊢
      refine (nests_move h cell).emitted htracks (emitted_emit _ _) (.inr (.inl ⟨rfl, cell, ?_⟩))
      rw [openLoops_move, hloops]
  | comment text =>
    by_cases hcomments : a.comments
    · have hemit : (a.perform (.comment text)).2 = a.emit (.comment (TapeOp.sanitize text)) := by
        simp [perform, comment, hcomments]
      rw [hemit] at htracks ⊢
      exact h.emitted htracks (emitted_emit _ _) (.inr (.inr ⟨by simp, by simp, rfl⟩))
    · have hsame : (a.perform (.comment text)).2 = a := by simp [perform, comment, hcomments]
      rwa [hsame]
  | mark d =>
    exact h.emitted htracks (emitted_emit _ _) (.inr (.inr ⟨by simp, by simp, rfl⟩))
  | finish => exact h

/-- **The assembler's stack holds the cells of the pending loops**, whatever operations it performs. -/
theorem Becomes.nests (h : a.Becomes b) (ha : a.Nests) : b.Nests := by
  induction h with
  | refl => exact ha
  | tail _ hstep ih =>
    obtain ⟨op, rfl⟩ := hstep
    exact nests_perform ih op

theorem nests_new (comments : Bool) : (new comments).Nests :=
  ⟨rfl, [], rfl, rfl⟩

end Assembler

/-! ## The loops of a generator -/

namespace Generator

/-- The instruction with index `k` puts `cell` on the stack of open loops, on top of `outer`, and it stays there
until the instruction with index `j` takes it away. -/
structure Entry (g g' : Generator) (k j : ℕ) (cell : Int) (outer : List Int) : Prop where
  lt : k < j
  before : ∀ a, g.Moment g' a → a.emitted.toList.length = k → a.openLoops = outer
  inside : ∀ a, g.Moment g' a → k < a.emitted.toList.length → a.emitted.toList.length ≤ j →
    cell :: outer <:+ a.openLoops
  last : ∀ a, g.Moment g' a → a.emitted.toList.length = j → a.openLoops = cell :: outer
  after : ∀ a, g.Moment g' a → a.emitted.toList.length = j + 1 → a.openLoops = outer

/-- Two instructions are the ends of one loop. -/
def SameLoop (g g' : Generator) (k j : ℕ) : Prop :=
  ∃ cell outer, g.Entry g' k j cell outer

variable {g g' : Generator}

theorem Moment.take {a : Assembler} (h : g.Moment g' a) :
    a.emitted.toList = g'.instructions.take a.emitted.toList.length :=
  List.prefix_iff_eq_take.1 h.2.isPrefix

/-- At every moment the stack holds the cells of the loops that are pending then. -/
theorem Moment.openLoops_eq {a : Assembler} (h : g.Moment g' a) (hg : g.assembler.Nests) {loops : List ℕ}
    (hloops : pending (g'.instructions.take a.emitted.toList.length) = some loops) :
    a.openLoops = loops.map (cellAt g'.instructions) := by
  obtain ⟨-, now, hnow, hstack⟩ := h.1.nests hg
  rw [← h.take, hnow] at hloops
  obtain rfl : now = loops := Option.some.inj hloops
  have hlt : ∀ k ∈ now, k < a.emitted.toList.length := by
    rw [← List.take_length (l := a.emitted.toList)] at hnow
    exact fun k hk => ((pending_sorted (Nat.le_refl _) hnow).2 k hk).1
  obtain ⟨rest, hrest⟩ := h.2.isPrefix
  rw [hstack, instructions, ← hrest, map_cellAt_append hlt]

theorem sameLoop_of_closesLoop (hg : g.assembler.Nests) {k j : ℕ} (h : ClosesLoop g'.instructions k j) :
    g.SameLoop g' k j := by
  obtain ⟨-, hlt⟩ := h.opening
  obtain ⟨hclose, outer, hlast⟩ := h
  obtain ⟨hj, -⟩ := List.getElem?_eq_some_iff.1 hclose
  obtain ⟨hbefore, hsince⟩ := suffix_of_suffix (Nat.le_of_lt hj) hlast List.suffix_rfl
  have hafter : pending (g'.instructions.take (j + 1)) = some outer := by
    rw [pending_take_succ hclose, hlast]
    rfl
  refine ⟨cellAt g'.instructions k, outer.map (cellAt g'.instructions), hlt, ?_, ?_, ?_, ?_⟩
  · intro a ha hlen
    exact ha.openLoops_eq hg (hlen ▸ hbefore)
  · intro a ha hk hlen
    obtain ⟨now, hnow, hsuffix⟩ := hsince _ hk hlen
    rw [ha.openLoops_eq hg hnow]
    exact hsuffix.map _
  · intro a ha hlen
    exact ha.openLoops_eq hg (hlen ▸ hlast)
  · intro a ha hlen
    exact ha.openLoops_eq hg (hlen ▸ hafter)

/-- A loop does not end later than it does: right behind its end the entry is gone. -/
theorem Entry.le {k j j' : ℕ} {cell cell' : Int} {outer outer' : List Int}
    (h : g.Entry g' k j cell outer) (h' : g.Entry g' k j' cell' outer')
    (hmoment : ∀ n ≤ g'.instructions.length, ∃ a, g.Moment g' a ∧ a.emitted.toList.length = n)
    (hj' : j' < g'.instructions.length) : j' ≤ j := by
  by_contra hgt
  have hkj := h.lt
  obtain ⟨a, ha, hk⟩ := hmoment k (by omega)
  have houter : outer' = outer := (h'.before a ha hk).symm.trans (h.before a ha hk)
  obtain ⟨b, hb, hlen⟩ := hmoment (j + 1) (by omega)
  have hsuffix := h'.inside b hb (by omega) (by omega)
  rw [h.after b hb hlen, houter] at hsuffix
  have hlength := hsuffix.length_le
  rw [List.length_cons] at hlength
  omega

/-- **The ends of one loop are the ends of one entry of the assembler's stack.** -/
theorem sameLoop_iff_closesLoop (hg : g.assembler.Nests)
    (hmoment : ∀ n ≤ g'.instructions.length, ∃ a, g.Moment g' a ∧ a.emitted.toList.length = n)
    (hend : pending g'.instructions = some []) {k j : ℕ} (hk : g'.instructions[k]? = some .openLoop)
    (hj : g'.instructions[j]? = some .closeLoop) : g.SameLoop g' k j ↔ ClosesLoop g'.instructions k j := by
  refine ⟨fun h => ?_, sameLoop_of_closesLoop hg⟩
  obtain ⟨j', hclose⟩ := exists_closesLoop hend hk
  obtain ⟨cell, outer, hentry⟩ := h
  obtain ⟨cell', outer', hentry'⟩ := sameLoop_of_closesLoop hg hclose
  obtain ⟨hlt, -⟩ := List.getElem?_eq_some_iff.1 hj
  obtain ⟨hlt', -⟩ := List.getElem?_eq_some_iff.1 hclose.1
  have heq : j = j' := Nat.le_antisymm (hentry'.le hentry hmoment hlt) (hentry.le hentry' hmoment hlt')
  rwa [heq]

end Generator

end TapeCompiler
