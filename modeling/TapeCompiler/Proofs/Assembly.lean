import TapeCompiler.Proofs.Loading
import TapeCompiler.Proofs.Machine.Brackets

/-!
# What an assembler keeps

An assembler holds a position, a stack of cells and a count, and emits instructions. None of the three is looked up in
what was emitted, yet each of them can be found there: after any operations, also refused ones, they are what reading
the instructions from the start gives.

* `Assembler.Emits`: one instruction is emitted; `emits_perform`: **all that an operation does.**
* `Encloses`: two instructions open and close one loop, by what stands between them; `LeftOpen`: a loop is not closed.
* `closesLoop_iff_encloses`: **the stack of pending loops pairs up the brackets.**
* `Assembler.Kept`: what one instruction preserves; `Assembler.Consistent`: what can be said without a stack.
* `assembler_consistent`: **position, stack and count agree with the instructions after all operations.**
-/

namespace TapeCompiler

namespace Assembler

/-! ## Emitting -/

/-- An assembler emits one instruction and becomes another one. A loop is opened where the head is, and closed only
where it was opened. -/
inductive Emits (a : Assembler) : Assembler → Prop
  | move {cell : Int} (h : cell ≠ a.position) : Emits a { a.emit (.move (cell - a.position)) with position := cell }
  | add (n : Int) : Emits a (a.emit (.add n))
  | openLoop : Emits a { a.emit .openLoop with openLoops := a.position :: a.openLoops }
  | closeLoop {outer : List Int} (h : a.openLoops = a.position :: outer) :
      Emits a { a.emit .closeLoop with openLoops := outer }
  | print : Emits a (a.emit .print)
  | read : Emits a (a.emit .read)
  | comment (h : a.comments = true) (text : String) : Emits a (a.emit (.comment (TapeOp.sanitize text)))
  | mark (d : Diagnostic) : Emits a (a.mark d)

variable {a b : Assembler}

theorem emits_move (a : Assembler) (cell : Int) : Relation.ReflTransGen Emits a (a.move cell) := by
  by_cases hcell : cell = a.position
  · rw [hcell, move_self]
  · rw [Assembler.move, if_neg hcell]
    exact .single (.move hcell)

/-- **All that an operation does** is to emit instructions, at most two of them. -/
theorem emits_perform (a : Assembler) (op : Op) : Relation.ReflTransGen Emits a (a.perform op).2 := by
  cases op with
  | move cell => exact emits_move a cell
  | add cell n => exact (emits_move a cell).tail (.add n)
  | print cell => exact (emits_move a cell).tail .print
  | read cell => exact (emits_move a cell).tail .read
  | openLoop cell =>
    have hopen : Emits (a.move cell) (a.perform (.openLoop cell)).2 := by
      have h := Emits.openLoop (a := a.move cell)
      rwa [position_move] at h
    exact (emits_move a cell).tail hopen
  | closeLoop =>
    cases hloops : a.openLoops with
    | nil =>
      -- without an open loop this is refused, and nothing is emitted
      have hsame : (a.perform .closeLoop).2 = a := by simp [perform, Assembler.closeLoop, hloops]
      rw [hsame]
    | cons cell outer =>
      have hclose : (a.perform .closeLoop).2 = { (a.move cell).emit .closeLoop with openLoops := outer } := by
        simp [perform, Assembler.closeLoop, hloops]
      rw [hclose]
      exact (emits_move a cell).tail (.closeLoop (by rw [openLoops_move, position_move, hloops]))
  | comment text =>
    by_cases hcomments : a.comments
    · have hemit : (a.perform (.comment text)).2 = a.emit (.comment (TapeOp.sanitize text)) := by
        simp [perform, Assembler.comment, hcomments]
      rw [hemit]
      exact .single (.comment hcomments text)
    · have hsame : (a.perform (.comment text)).2 = a := by simp [perform, Assembler.comment, hcomments]
      rw [hsame]
  | mark d => exact .single (.mark d)
  | finish => exact .refl

end Assembler

/-! ## Brackets -/

/-- The brackets of instructions. -/
def brackets (is : List Instruction) : List TapeOp :=
  is.filterMap Instruction.bracket?

theorem brackets_append (is js : List Instruction) : brackets (is ++ js) = brackets is ++ brackets js :=
  List.filterMap_append

/-- How many loops an instruction opens. -/
def Instruction.nesting : Instruction → Int
  | openLoop => 1
  | closeLoop => -1
  | move _ | add _ | print | read | comment _ | marker _ => 0

@[simp]
theorem depthOf_brackets_nil : depthOf (brackets []) = 0 := rfl

@[simp]
theorem depthOf_brackets_cons (i : Instruction) (is : List Instruction) :
    depthOf (brackets (i :: is)) = i.nesting + depthOf (brackets is) := by
  cases i with
  | openLoop | closeLoop => rfl
  | move _ | add _ | print | read | comment _ | marker _ => exact (Int.zero_add _).symm

/-- Balance can be told at the ends of all beginnings. -/
theorem balanced_brackets_iff (is : List Instruction) :
    Balanced (brackets is) ↔ depthOf (brackets is) = 0 ∧ ∀ js, js <+: is → 0 ≤ depthOf (brackets js) := by
  refine and_congr_right fun _ => ⟨fun h js hjs => ?_, fun h k _ => ?_⟩
  · have hbegin : brackets js <+: brackets is := hjs.filterMap _
    rw [List.prefix_iff_eq_take.1 hbegin]
    exact h _ hbegin.length_le
  · obtain ⟨js, hjs, htake⟩ := List.prefix_filterMap_iff.1 (List.take_prefix k (brackets is))
    rw [htake]
    exact h js hjs

theorem Instruction.length_pend {i : Instruction} {n : ℕ} {loops loops' : List ℕ} (h : i.pend n loops = some loops') :
    (loops'.length : Int) = loops.length + i.nesting := by
  obtain ⟨rfl, rfl⟩ | ⟨rfl, k, rfl⟩ | ⟨hopen, hclose, rfl⟩ := Instruction.pend_cases h
  · simp [nesting]
  · rw [nesting, List.length_cons]
    omega
  · cases i with
    | openLoop => exact absurd rfl hopen
    | closeLoop => exact absurd rfl hclose
    | move _ | add _ | print | read | comment _ | marker _ => simp [nesting]

/-- The stack of pending loops is as high as the brackets are deep. -/
theorem length_of_pendingFrom {is : List Instruction} {n : ℕ} {loops loops' : List ℕ}
    (h : pendingFrom n loops is = some loops') :
    (loops'.length : Int) = loops.length + depthOf (brackets is) := by
  induction is generalizing n loops with
  | nil =>
    obtain rfl : loops = loops' := Option.some.inj h
    simp
  | cons i is ih =>
    obtain ⟨mid, hmid, hrest⟩ := Option.bind_eq_some_iff.1 h
    have hfirst := Instruction.length_pend hmid
    have hsecond := ih hrest
    rw [depthOf_brackets_cons]
    omega

/-- Instructions that close no more than the `inner` loops leave the loops around them alone. -/
theorem exists_pendingFrom {is : List Instruction} (n : ℕ) (inner : List ℕ)
    (hdeep : ∀ js, js <+: is → -(inner.length : Int) ≤ depthOf (brackets js)) :
    ∃ inner', ∀ loops, pendingFrom n (inner ++ loops) is = some (inner' ++ loops) := by
  -- `inner` are the loops opened on the way; a closing bracket may take none but these
  induction is generalizing n inner with
  | nil => exact ⟨inner, fun _ => rfl⟩
  | cons i is ih =>
    have hrest (js : List Instruction) (hjs : js <+: is) :
        -(inner.length : Int) ≤ i.nesting + depthOf (brackets js) := by
      rw [← depthOf_brackets_cons]
      exact hdeep _ ((List.prefix_cons_inj i).2 hjs)
    cases i with
    | openLoop =>
      refine ih (n + 1) (n :: inner) fun js hjs => ?_
      have h := hrest js hjs
      rw [Instruction.nesting] at h
      push_cast [List.length_cons]
      omega
    | closeLoop =>
      cases inner with
      | nil => simpa [Instruction.nesting] using hrest [] List.nil_prefix
      | cons k inner =>
        refine ih (n + 1) inner fun js hjs => ?_
        have h := hrest js hjs
        rw [Instruction.nesting] at h
        push_cast [List.length_cons] at h
        omega
    | move _ | add _ | print | read | comment _ | marker _ =>
      refine ih (n + 1) inner fun js hjs => ?_
      simpa [Instruction.nesting] using hrest js hjs

/-- Balanced instructions leave all pending loops as they are. -/
theorem pendingFrom_of_balanced {is : List Instruction} (h : Balanced (brackets is)) (n : ℕ) (loops : List ℕ) :
    pendingFrom n loops is = some loops := by
  obtain ⟨hdepth, hdeep⟩ := (balanced_brackets_iff is).1 h
  obtain ⟨inner', hpending⟩ := exists_pendingFrom n [] (by simpa using hdeep)
  have hsame := hpending loops
  rw [List.nil_append] at hsame
  have hlength := length_of_pendingFrom hsame
  rw [hdepth, List.length_append] at hlength
  obtain rfl : inner' = [] := List.eq_nil_of_length_eq_zero (by omega)
  exact hsame

/-! ## The two ends of a loop -/

/-- One instruction opens a loop and another one closes it: what stands between them is balanced. -/
structure Encloses (is : List Instruction) (k j : ℕ) : Prop where
  lt : k < j
  opens : is[k]? = some .openLoop
  closes : is[j]? = some .closeLoop
  inside : Balanced (brackets ((is.take j).drop (k + 1)))

/-- An instruction opens a loop that no instruction closes. -/
def LeftOpen (is : List Instruction) (k : ℕ) : Prop :=
  is[k]? = some .openLoop ∧ ∀ j, ¬ Encloses is k j

section

variable {is : List Instruction} {loops : List ℕ} {k j : ℕ}

/-- What is pending at the end of a part, from what is pending before it. -/
theorem pending_take_of_le (hkj : k ≤ j) (hj : j ≤ is.length) :
    pending (is.take j) =
      (pending (is.take k)).bind fun loops => pendingFrom k loops ((is.take j).drop k) := by
  conv_lhs => rw [← List.take_append_drop k (is.take j), List.take_take, Nat.min_eq_left hkj]
  rw [pending, pendingFrom_append, List.length_take, Nat.min_eq_left (Nat.le_trans hkj hj), Nat.zero_add]
  rfl

/-- Between the two ends of a loop the brackets are balanced, since the loop stays pending there. -/
theorem ClosesLoop.encloses (h : ClosesLoop is k j) : Encloses is k j := by
  obtain ⟨hopens, hlt⟩ := h.opening
  obtain ⟨hcloses, outer, hbefore⟩ := h
  obtain ⟨hj, -⟩ := List.getElem?_eq_some_iff.1 hcloses
  obtain ⟨hfirst, hsince⟩ := suffix_of_suffix (Nat.le_of_lt hj) hbefore List.suffix_rfl
  have hopened : pending (is.take (k + 1)) = some (k :: outer) := by
    rw [pending_take_succ hopens, hfirst]
    rfl
  -- how deep the brackets are behind the first instructions of the loop
  have hdepth {m : ℕ} {now : List ℕ} (hkm : k + 1 ≤ m) (hmj : m ≤ j) (hnow : pending (is.take m) = some now) :
      (now.length : Int) = (k :: outer).length + depthOf (brackets ((is.take m).drop (k + 1))) := by
    rw [pending_take_of_le hkm (by omega), hopened] at hnow
    exact length_of_pendingFrom hnow
  refine ⟨hlt, hopens, hcloses, (balanced_brackets_iff _).2 ⟨?_, fun js hjs => ?_⟩⟩
  · have hend := hdepth hlt (Nat.le_refl j) hbefore
    omega
  · have hle := hjs.length_le
    rw [List.length_drop, List.length_take] at hle
    have htake : js = (is.take (k + 1 + js.length)).drop (k + 1) := by
      conv_lhs => rw [List.prefix_iff_eq_take.1 hjs]
      rw [List.take_drop, List.take_take, Nat.min_eq_left (by omega)]
    obtain ⟨now, hnow, hsuffix⟩ := hsince (k + 1 + js.length) (by omega) (by omega)
    have hthere := hdepth (by omega) (by omega) hnow
    have hlow := hsuffix.length_le
    rw [← htake] at hthere
    omega

/-- **The stack of pending loops pairs up the brackets.** -/
theorem closesLoop_iff_encloses (h : pending is = some loops) : ClosesLoop is k j ↔ Encloses is k j := by
  refine ⟨ClosesLoop.encloses, fun henclose => ?_⟩
  obtain ⟨hlt, hopens, hcloses, hinside⟩ := henclose
  obtain ⟨hj, -⟩ := List.getElem?_eq_some_iff.1 hcloses
  obtain ⟨outer, houter⟩ := exists_pending_take h k
  refine ⟨hcloses, outer, ?_⟩
  rw [pending_take_of_le hlt (by omega), pending_take_succ hopens, houter]
  exact pendingFrom_of_balanced hinside (k + 1) (k :: outer)

/-- The pending loops are those that are left open. -/
theorem mem_iff_leftOpen (h : pending is = some loops) : k ∈ loops ↔ LeftOpen is k := by
  have hall : pending (is.take is.length) = some loops := by rwa [List.take_length]
  constructor
  · intro hk
    refine ⟨((pending_sorted (Nat.le_refl _) hall).2 k hk).2, fun j henclose => ?_⟩
    have hclose := (closesLoop_iff_encloses h).2 henclose
    obtain ⟨hj, -⟩ := List.getElem?_eq_some_iff.1 henclose.closes
    exact hclose.notMem hj (Nat.le_refl _) hall hk
  · rintro ⟨hopens, hnone⟩
    obtain ⟨hk, -⟩ := List.getElem?_eq_some_iff.1 hopens
    rcases mem_or_closesLoop hopens hk (Nat.le_refl _) hall with hmem | ⟨j, -, hclose⟩
    · exact hmem
    · exact absurd ((closesLoop_iff_encloses h).1 hclose) (hnone j)

/-- Brackets are balanced exactly if no loop is pending. -/
theorem balanced_iff_of_pending (h : pending is = some loops) : Balanced (brackets is) ↔ loops = [] := by
  have hlength := length_of_pendingFrom h
  rw [List.length_nil] at hlength
  rw [balanced_brackets_iff, ← List.length_eq_zero_iff]
  refine ⟨fun hbalanced => by omega, fun hnone => ⟨by omega, fun js hjs => ?_⟩⟩
  obtain ⟨first, hfirst⟩ := exists_pending_take h js.length
  rw [← List.prefix_iff_eq_take.1 hjs] at hfirst
  have hpart := length_of_pendingFrom hfirst
  rw [List.length_nil] at hpart
  omega

theorem pendingFrom_replicate (n : ℕ) (loops : List ℕ) :
    pendingFrom n loops (List.replicate loops.length .closeLoop) = some [] := by
  induction loops generalizing n with
  | nil => rfl
  | cons k loops ih => exact ih (n + 1)

/-- Pending loops can be closed one after the other. -/
theorem balanced_append_replicate (h : pending is = some loops) :
    Balanced (brackets (is ++ List.replicate loops.length .closeLoop)) := by
  have hclosed : pending (is ++ List.replicate loops.length .closeLoop) = some [] := by
    rw [pending, pendingFrom_append, ← pending, h]
    exact pendingFrom_replicate _ loops
  exact (balanced_iff_of_pending hclosed).2 rfl

end

/-! ## What is preserved -/

theorem cellAt_append {is : List Instruction} {k : ℕ} (hk : k ≤ is.length) (js : List Instruction) :
    cellAt (is ++ js) k = cellAt is k := by
  rw [cellAt, cellAt, List.take_append_of_le_length hk]

/-- One more instruction may close the innermost loop, and no other. -/
theorem closesLoop_concat {is : List Instruction} {i : Instruction} {k j : ℕ} (h : ClosesLoop (is ++ [i]) k j) :
    ClosesLoop is k j ∨ j = is.length ∧ i = .closeLoop ∧ ∃ outer, pending is = some (k :: outer) := by
  obtain ⟨hcloses, hbefore⟩ := h
  obtain ⟨hj, -⟩ := List.getElem?_eq_some_iff.1 hcloses
  rw [List.length_append, List.length_singleton] at hj
  rcases Nat.lt_or_ge j is.length with hlt | hge
  · rw [List.getElem?_append_left hlt] at hcloses
    rw [List.take_append_of_le_length (Nat.le_of_lt hlt)] at hbefore
    exact .inl ⟨hcloses, hbefore⟩
  · obtain rfl : j = is.length := by omega
    rw [List.getElem?_concat_length] at hcloses
    rw [List.take_left] at hbefore
    exact .inr ⟨rfl, Option.some.inj hcloses, hbefore⟩

namespace Assembler

variable {a b : Assembler}

/-- Emitting an instruction is an operation on the cell under the head. -/
theorem Emits.becomes (h : a.Emits b) : a.Becomes b := by
  have hop (op : Op) (hb : (a.perform op).2 = b) : a.Becomes b := hb ▸ becomes_perform a op
  cases h with
  | @move cell hcell => exact hop (.move cell) (if_neg hcell)
  | add n => exact hop (.add a.position n) (by simp [perform, Assembler.add])
  | openLoop => exact hop (.openLoop a.position) (by simp [perform, Assembler.openLoop, emit])
  | closeLoop hloops => exact hop .closeLoop (by simp [perform, Assembler.closeLoop, hloops])
  | print => exact hop (.print a.position) (by simp [perform, Assembler.print])
  | read => exact hop (.read a.position) (by simp [perform, Assembler.read])
  | comment hcomments text => exact hop (.comment text) (if_pos hcomments)
  | mark d => exact hop (.mark d) rfl

/-- **What every instruction preserves all operations preserve.** -/
theorem Becomes.keeps {P : Assembler → Prop} (hstep : ∀ a b, P a → a.Emits b → P b) (h : a.Becomes b) (ha : P a) :
    P b := by
  induction h with
  | refl => exact ha
  | @tail c _ _ hlast ih =>
    obtain ⟨op, rfl⟩ := hlast
    have hemits := emits_perform c op
    generalize (c.perform op).2 = d at hemits
    induction hemits with
    | refl => exact ih
    | tail _ hemit hbefore => exact hstep _ _ hbefore hemit

/-- The instruction that is emitted, what it may be, and what is counted. -/
theorem Emits.exists_instruction (h : a.Emits b) :
    ∃ i, b.emitted.toList = a.emitted.toList ++ [i] ∧ (∀ delta, i = .move delta → delta ≠ 0) ∧
      (i = .closeLoop → a.openLoops.head? = some a.position) ∧
      (∀ text, i = .comment text → ∃ original, TapeOp.sanitize original = text) ∧
      b.errorCount = a.errorCount + (diagnosticsOf [i]).length := by
  cases h with
  | @move cell hcell =>
    refine ⟨.move (cell - a.position), emitted_emit _ _, fun delta hdelta => ?_, by simp, by simp, rfl⟩
    obtain rfl := Instruction.move.inj hdelta
    omega
  | closeLoop hloops => exact ⟨.closeLoop, emitted_emit _ _, by simp, fun _ => by rw [hloops]; rfl, by simp, rfl⟩
  | add n => exact ⟨.add n, emitted_emit _ _, by simp, by simp, by simp, rfl⟩
  | openLoop => exact ⟨.openLoop, emitted_emit _ _, by simp, by simp, by simp, rfl⟩
  | print => exact ⟨.print, emitted_emit _ _, by simp, by simp, by simp, rfl⟩
  | read => exact ⟨.read, emitted_emit _ _, by simp, by simp, by simp, rfl⟩
  | comment _ text => exact ⟨.comment (TapeOp.sanitize text), emitted_emit _ _, by simp, by simp, by simp, rfl⟩
  | mark d => exact ⟨.marker d, emitted_emit _ _, by simp, by simp, by simp, rfl⟩

/-- What an assembler keeps, in terms of the pending loops. -/
structure Kept (a : Assembler) : Prop where
  nests : a.Nests
  moves : ∀ delta, .move delta ∈ a.emitted.toList → delta ≠ 0
  returns : ∀ k j, ClosesLoop a.emitted.toList k j → cellAt a.emitted.toList j = cellAt a.emitted.toList k
  errors : a.errorCount = (diagnosticsOf a.emitted.toList).length

theorem kept_new (comments : Bool) : (new comments).Kept where
  nests := nests_new comments
  moves := by simp [new]
  returns := by simp [new, ClosesLoop]
  errors := rfl

/-- **What one instruction preserves.** -/
theorem Kept.emits (h : a.Kept) (hab : a.Emits b) : b.Kept := by
  obtain ⟨i, hemit, hmove, hclose, -, hcount⟩ := hab.exists_instruction
  obtain ⟨htracks, loops, hpending, hstack⟩ := h.nests
  refine ⟨hab.becomes.nests h.nests, ?_, ?_, ?_⟩
  · intro delta hdelta
    rw [hemit, List.mem_append, List.mem_singleton] at hdelta
    rcases hdelta with hold | hnew
    · exact h.moves delta hold
    · exact hmove delta hnew.symm
  · intro k j hkj
    rw [hemit] at hkj ⊢
    rcases closesLoop_concat hkj with hold | ⟨rfl, hi, outer, hinnermost⟩
    · obtain ⟨-, hlt⟩ := hold.opening
      obtain ⟨hj, -⟩ := List.getElem?_eq_some_iff.1 hold.1
      rw [cellAt_append (by omega), cellAt_append (by omega)]
      exact h.returns k j hold
    · -- the loop was opened on the cell on top of the stack, and the head is there
      have hhead := hclose hi
      have hk := ((pending_sorted (n := a.emitted.toList.length) (Nat.le_refl _)
        (by rwa [List.take_length])).2 k List.mem_cons_self).1
      obtain rfl : loops = k :: outer := Option.some.inj (hpending.symm.trans hinnermost)
      rw [hstack, List.map_cons, List.head?_cons] at hhead
      rw [cellAt_append (Nat.le_refl _), cellAt_append (Nat.le_of_lt hk), Option.some.inj hhead, cellAt,
        List.take_length]
      exact htracks.symm
  · rw [hcount, hemit, h.errors, diagnosticsOf, diagnosticsOf, diagnosticsOf, List.filterMap_append,
      List.length_append]

/-- What operations leave, one after the other. -/
def afterAll (a : Assembler) (ops : List Op) : Assembler :=
  ops.foldl (fun a op => (a.perform op).2) a

theorem becomes_afterAll (a : Assembler) (ops : List Op) : a.Becomes (a.afterAll ops) := by
  induction ops generalizing a with
  | nil => exact .refl
  | cons op ops ih => exact (becomes_perform a op).trans (ih _)

/-! ## Without a stack -/

/-- Position, stack and count of an assembler are what the instructions say. The head is where the moves take it, and
none of them stays where it is. The brackets are the beginning of a balanced text, the stack holds the cells of the
loops that are left open, the outermost first, and a loop ends on the cell on which it began. Diagnostics are
counted. -/
structure Consistent (a : Assembler) : Prop where
  position : a.position = deltaOf a.emitted.toList
  moves : ∀ delta, .move delta ∈ a.emitted.toList → delta ≠ 0
  nested : ∃ rest, Balanced (brackets a.emitted.toList ++ rest)
  stack : ∃ opened : List ℕ, opened.Pairwise (· < ·) ∧ (∀ k, k ∈ opened ↔ LeftOpen a.emitted.toList k) ∧
    a.loopCells = opened.map (cellAt a.emitted.toList)
  returns : ∀ k j, Encloses a.emitted.toList k j → cellAt a.emitted.toList j = cellAt a.emitted.toList k
  errors : a.errorCount = (diagnosticsOf a.emitted.toList).length

/-- What is kept can be said without the stack of pending loops. -/
theorem Kept.consistent (h : a.Kept) : a.Consistent := by
  obtain ⟨htracks, loops, hpending, hstack⟩ := h.nests
  refine ⟨htracks, h.moves, ?_, ?_, ?_, h.errors⟩
  · refine ⟨brackets (List.replicate loops.length .closeLoop), ?_⟩
    rw [← brackets_append]
    exact balanced_append_replicate hpending
  · have hsorted := (pending_sorted (n := a.emitted.toList.length) (Nat.le_refl _) (by rwa [List.take_length])).1
    refine ⟨loops.reverse, List.pairwise_reverse.2 hsorted, fun k => ?_, ?_⟩
    · rw [List.mem_reverse]
      exact mem_iff_leftOpen hpending
    · rw [loopCells, hstack, List.map_reverse]
  · intro k j henclose
    exact h.returns k j ((closesLoop_iff_encloses hpending).2 henclose)

/-- No loop is open, if the brackets are balanced. -/
theorem Kept.openLoops_iff_balanced (h : a.Kept) : a.openLoops = [] ↔ Balanced (brackets a.emitted.toList) := by
  obtain ⟨-, loops, hpending, hstack⟩ := h.nests
  rw [balanced_iff_of_pending hpending, hstack, List.map_eq_nil_iff]

/-- No loop is open, if none is left open. -/
theorem Kept.openLoops_iff_leftOpen (h : a.Kept) : a.openLoops = [] ↔ ∀ k, ¬ LeftOpen a.emitted.toList k := by
  obtain ⟨-, loops, hpending, hstack⟩ := h.nests
  rw [hstack, List.map_eq_nil_iff, List.eq_nil_iff_forall_not_mem]
  exact forall_congr' fun k => not_congr (mem_iff_leftOpen hpending)

theorem finish_ok_iff (a : Assembler) : (a.perform .finish).1 = .ok () ↔ a.openLoops = [] := by
  by_cases hloops : a.openLoops = [] <;> simp [perform, finish, hloops]

theorem finish_error_iff (a : Assembler) :
    (a.perform .finish).1 = .error (.loopsOpen a.loopCells) ↔ a.openLoops ≠ [] := by
  by_cases hloops : a.openLoops = [] <;> simp [perform, finish, hloops]

theorem closeLoop_error_iff (a : Assembler) : (a.perform .closeLoop).1 = .error .noOpenLoop ↔ a.openLoops = [] := by
  cases hloops : a.openLoops <;> simp [perform, closeLoop, hloops]

/-- Only closing a loop and finishing can be refused, and then nothing is changed. -/
theorem perform_refused {op : Op} {e : Fault} (h : (a.perform op).1 = .error e) :
    (op = .closeLoop ∨ op = .finish) ∧ (a.perform op).2 = a := by
  cases op with
  | closeLoop =>
    refine ⟨.inl rfl, ?_⟩
    cases hloops : a.openLoops with
    | nil => simp [perform, closeLoop, hloops]
    | cons cell outer => simp [perform, closeLoop, hloops] at h
  | finish => exact ⟨.inr rfl, rfl⟩
  | move _ | add _ _ | openLoop _ | print _ | read _ | comment _ | mark _ => cases h

end Assembler

/-- **An assembler agrees with what it has emitted.** After any operations on any cells, also refused ones, its position,
its stack of loops and its count of diagnostics are those of the emitted instructions. A program can be finished if and
only if its brackets are balanced, a loop can be closed if and only if one is left open, and nothing else is refused; an
operation that is refused changes nothing. -/
theorem assembler_consistent (comments : Bool) (ops : List Assembler.Op) :
    ∃ a, (Assembler.new comments).afterAll ops = a ∧ a.Consistent ∧
      ((a.perform .finish).1 = .ok () ↔ Balanced (brackets a.emitted.toList)) ∧
      ((a.perform .finish).1 = .error (.loopsOpen a.loopCells) ↔ ¬ Balanced (brackets a.emitted.toList)) ∧
      ((a.perform .closeLoop).1 = .error .noOpenLoop ↔ ∀ k, ¬ LeftOpen a.emitted.toList k) ∧
      ∀ op e, (a.perform op).1 = .error e → (op = .closeLoop ∨ op = .finish) ∧ (a.perform op).2 = a := by
  have hkept := ((Assembler.new comments).becomes_afterAll ops).keeps (fun _ _ => Assembler.Kept.emits)
    (Assembler.kept_new comments)
  refine ⟨_, rfl, hkept.consistent, ?_, ?_, ?_, fun _ _ => Assembler.perform_refused⟩
  · rw [Assembler.finish_ok_iff, hkept.openLoops_iff_balanced]
  · rw [Assembler.finish_error_iff, Ne, hkept.openLoops_iff_balanced]
  · rw [Assembler.closeLoop_error_iff, hkept.openLoops_iff_leftOpen]

/-- A loop inside another one, which is left open; closing a loop and finishing are refused on the way. -/
def danglingOps : List Assembler.Op :=
  [.closeLoop, .openLoop 2, .add 2 (-1), .openLoop (-1), .mark ⟨.redefined, .other "x"⟩, .print 5, .finish, .closeLoop,
    .comment "back", .move 7]

/-- The ends of the inner loop are on one cell, and the program cannot be finished. -/
theorem assembler_consistent_dangling :
    ∃ a, (Assembler.new true).afterAll danglingOps = a ∧ a.position = 7 ∧ a.errorCount = 1 ∧
      Encloses a.emitted.toList 4 9 ∧ cellAt a.emitted.toList 9 = cellAt a.emitted.toList 4 ∧
      (a.perform .finish).1 = .error (.loopsOpen [2]) ∧ ¬ Balanced (brackets a.emitted.toList) := by
  obtain ⟨a, ha, hconsistent, -, hfinish, -⟩ := assembler_consistent true danglingOps
  have hvalue : a = ⟨true, #[.move 2, .openLoop, .add (-1), .move (-3), .openLoop, .marker ⟨.redefined, .other "x"⟩,
      .move 6, .print, .move (-6), .closeLoop, .comment "back", .move 8], 7, [2], 1⟩ := by
    rw [← ha]
    decide +kernel
  have henclose : Encloses a.emitted.toList 4 9 := by
    rw [hvalue]
    exact ⟨by decide, rfl, rfl, by decide⟩
  have hrefused : (a.perform .finish).1 = .error (.loopsOpen a.loopCells) := by
    rw [hvalue]
    rfl
  have hcells : a.loopCells = [2] := by
    rw [hvalue]
    rfl
  exact ⟨a, ha, by rw [hvalue], by rw [hvalue], henclose, hconsistent.returns 4 9 henclose, hcells ▸ hrefused,
    hfinish.1 hrefused⟩

end TapeCompiler
