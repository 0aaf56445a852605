import TapeCompiler.Proofs.Machine.Structured

/-!
# Balanced programs are trees

Brackets are balanced if, read from the left, no loop is closed that was not opened before, and in the end
all are closed. Such a program is a tree of loops, and just one; so the machine, which knows places and
jumps only, runs it loop by loop.

* `Balanced`: the depth of the brackets never falls below zero and ends there.
* `exists_tree_of_balanced`, `LoopTree.ops_injective`: **a balanced program is the program of one tree.**
* `balanced_run_iff_tree`: **the machine ends a balanced program if and only if its tree ends, and ends it in
  the same configuration.**
-/

namespace TapeCompiler

/-! ## Depth -/

/-- How many loops an operation opens. -/
def TapeOp.nesting : TapeOp → Int
  | openLoop => 1
  | closeLoop => -1
  | right | left | increment | decrement | write | read => 0

/-- How many loops operations open and do not close. -/
def depthOf : List TapeOp → Int
  | [] => 0
  | o :: ops => o.nesting + depthOf ops

/-- Every loop that is closed was opened before, and all are closed in the end. -/
def Balanced (ops : List TapeOp) : Prop :=
  depthOf ops = 0 ∧ ∀ k ≤ ops.length, 0 ≤ depthOf (ops.take k)

instance (ops : List TapeOp) : Decidable (Balanced ops) :=
  inferInstanceAs (Decidable (_ ∧ _))

/-! ## The tree of a program -/

/-- An operation that is no bracket is an action. -/
theorem TapeOp.bracket_or_action (o : TapeOp) : o = .openLoop ∨ o = .closeLoop ∨ ∃ a : Action, o = a.toOp := by
  cases o with
  | openLoop => exact .inl rfl
  | closeLoop => exact .inr (.inl rfl)
  | right => exact .inr (.inr ⟨.right, rfl⟩)
  | left => exact .inr (.inr ⟨.left, rfl⟩)
  | increment => exact .inr (.inr ⟨.increment, rfl⟩)
  | decrement => exact .inr (.inr ⟨.decrement, rfl⟩)
  | write => exact .inr (.inr ⟨.write, rfl⟩)
  | read => exact .inr (.inr ⟨.read, rfl⟩)

theorem Action.nesting_toOp (a : Action) : a.toOp.nesting = 0 := by
  cases a <;> rfl

theorem Action.toOp_injective : Function.Injective Action.toOp := by
  intro a b h
  cases a <;> cases b <;> first | rfl | cases h

namespace LoopTree

/-- A tree, and further trees with a closing bracket before each: what a program is behind the opening brackets
of loops that are still open. -/
def opsUnder (b : LoopTree) (bs : List LoopTree) : List TapeOp :=
  b.ops ++ bs.flatMap fun c => .closeLoop :: c.ops

/-- Operations that close `d` loops opened before them, and close no more at any point, are a tree behind the
opening bracket of each of these loops and a tree behind the last of them. -/
theorem exists_opsUnder (ops : List TapeOp) (d : ℕ) (hend : depthOf ops = -d)
    (hlow : ∀ k ≤ ops.length, -(d : Int) ≤ depthOf (ops.take k)) :
    ∃ b bs, bs.length = d ∧ opsUnder b bs = ops := by
  -- along the operations; a bracket changes how many loops are open
  induction ops generalizing d with
  | nil =>
    have hd : d = 0 := by
      rw [depthOf] at hend
      omega
    exact ⟨.empty, [], hd.symm, rfl⟩
  | cons o ops ih =>
    rw [depthOf] at hend
    have hrest (k : ℕ) (hk : k ≤ ops.length) : -(d : Int) ≤ o.nesting + depthOf (ops.take k) := by
      have h := hlow (k + 1) (by simpa using hk)
      rwa [List.take_succ_cons, depthOf] at h
    rcases o.bracket_or_action with rfl | rfl | ⟨a, rfl⟩
    · have hopen : TapeOp.openLoop.nesting = 1 := rfl
      obtain ⟨b, bs, hlen, hops⟩ := ih (d + 1) (by push_cast; omega) fun k hk => by
        have h := hrest k hk
        push_cast
        omega
      -- the first of the trees behind is what follows the loop
      cases bs with
      | nil => simp at hlen
      | cons next bs =>
        refine ⟨.loop b next, bs, by simpa using hlen, ?_⟩
        rw [← hops]
        simp [opsUnder, LoopTree.ops]
    · have hclose : TapeOp.closeLoop.nesting = -1 := rfl
      have hpos : 1 ≤ d := by
        have h := hrest 0 (Nat.zero_le _)
        rw [List.take_zero, depthOf] at h
        omega
      obtain ⟨b, bs, hlen, hops⟩ := ih (d - 1) (by omega) fun k hk => by
        have h := hrest k hk
        omega
      refine ⟨.empty, b :: bs, ?_, ?_⟩
      · rw [List.length_cons]
        omega
      · rw [← hops]
        rfl
    · have hact := a.nesting_toOp
      obtain ⟨b, bs, hlen, hops⟩ := ih d (by omega) fun k hk => by
        have h := hrest k hk
        omega
      refine ⟨.act a b, bs, hlen, ?_⟩
      rw [← hops]
      rfl

/-- Nothing follows, or the closing bracket of a loop around. -/
def Stops (rest : List TapeOp) : Prop :=
  ∀ o ∈ rest.head?, o = .closeLoop

/-- Where a tree ends can be told from the operations. -/
theorem ops_append_inj {a b : LoopTree} {rest rest' : List TapeOp} (h : a.ops ++ rest = b.ops ++ rest')
    (hrest : Stops rest) (hrest' : Stops rest') : a = b ∧ rest = rest' := by
  have hact (x : Action) : x.toOp ≠ .openLoop ∧ x.toOp ≠ .closeLoop := by
    cases x <;> decide
  -- a tree ends at a closing bracket or where the operations end, and neither begins a tree
  induction a generalizing b rest rest' with
  | empty =>
    cases b with
    | empty => exact ⟨rfl, h⟩
    | act y nextb => exact absurd (hrest y.toOp (by rw [show rest = _ from h]; simp [ops])) (hact y).2
    | loop bodyb nextb =>
      exact absurd (hrest .openLoop (by rw [show rest = _ from h]; simp [ops])) (by decide)
  | act x nexta ih =>
    cases b with
    | empty => exact absurd (hrest' x.toOp (by rw [← show _ = rest' from h]; simp [ops])) (hact x).2
    | act y nextb =>
      obtain ⟨hxy, hnext⟩ := List.cons.inj h
      obtain ⟨rfl, hsame⟩ := ih hnext hrest hrest'
      exact ⟨by rw [Action.toOp_injective hxy], hsame⟩
    | loop bodyb nextb => exact absurd (List.cons.inj h).1 (hact x).1
  | loop bodya nexta ihb ihn =>
    cases b with
    | empty =>
      exact absurd (hrest' .openLoop (by rw [← show _ = rest' from h]; simp [ops])) (by decide)
    | act y nextb => exact absurd (List.cons.inj h).1.symm (hact y).1
    | loop bodyb nextb =>
      have hinner : bodya.ops ++ .closeLoop :: (nexta.ops ++ rest) =
          bodyb.ops ++ .closeLoop :: (nextb.ops ++ rest') := by
        simpa [ops] using h
      obtain ⟨rfl, hbehind⟩ := ihb hinner (by simp [Stops]) (by simp [Stops])
      obtain ⟨rfl, hsame⟩ := ihn (List.cons.inj hbehind).2 hrest hrest'
      exact ⟨rfl, hsame⟩

/-- **A program is the program of one tree at most.** -/
theorem ops_injective : Function.Injective ops := by
  intro a b h
  have hnil : Stops [] := by simp [Stops]
  exact (ops_append_inj (by rw [h]) hnil hnil).1

end LoopTree

/-- **A balanced program is the program of a tree.** -/
theorem exists_tree_of_balanced {program : List TapeOp} (h : Balanced program) :
    ∃ b : LoopTree, b.ops = program := by
  obtain ⟨b, bs, hlen, hops⟩ := LoopTree.exists_opsUnder program 0 (by simpa using h.1) (by simpa using h.2)
  obtain rfl := List.length_eq_zero_iff.1 hlen
  exact ⟨b, by simpa [LoopTree.opsUnder] using hops⟩

/-! ## Balanced programs on the machine -/

/-- **A balanced program runs as its tree does.** It is the program of one tree, a machine with at least one
cell loads it, and no step of it is refused. The run ends if and only if the run of the tree does, and then it
leaves the same tape, head, input and output. -/
theorem balanced_run_iff_tree {text : String} (hbalanced : Balanced (TapeOp.program text)) {size : Int}
    (hsize : 1 ≤ size) (input : String) :
    ∃ b : LoopTree, b.ops = TapeOp.program text ∧ (∀ b' : LoopTree, b'.ops = TapeOp.program text → b' = b) ∧
      ∃ fresh m : Machine, Machine.ofSize size = .ok fresh ∧ fresh.load text input = (.ok (), m) ∧
        (∀ n, (m.after n).step.1 = .ok ()) ∧
        ((∃ m', m.HaltsIn m') ↔ ∃ s, b.Run ⟨Array.replicate size.toNat 0, 0, input.toList, #[]⟩ s) ∧
        ∀ m' s, m.HaltsIn m' → b.Run ⟨Array.replicate size.toNat 0, 0, input.toList, #[]⟩ s →
          m'.tape = s.tape ∧ m'.pointer = s.pointer ∧ m'.input = s.input ∧ m'.output = s.output := by
  obtain ⟨b, hb⟩ := exists_tree_of_balanced hbalanced
  obtain ⟨m, hload, hstarts, hconfig⟩ := Machine.starts_load size.toNat (by omega) hb.symm input
  have hfresh : Machine.ofSize size = .ok (.blank size.toNat) := if_neg (by omega)
  have hrun := Machine.haltsIn_iff_run hstarts
  rw [hconfig] at hrun
  refine ⟨b, hb, fun b' hb' => LoopTree.ops_injective (hb'.trans hb.symm), .blank size.toNat, m, hfresh, hload,
    Machine.step_after_ok hstarts, ⟨?_, ?_⟩, ?_⟩
  · rintro ⟨m', hm'⟩
    exact ⟨m'.config, (hrun _).1 ⟨m', hm', rfl⟩⟩
  · rintro ⟨s, hs⟩
    obtain ⟨m', hm', -⟩ := (hrun s).2 hs
    exact ⟨m', hm'⟩
  · intro m' s hm' hs
    obtain ⟨m'', hm'', rfl⟩ := (hrun s).2 hs
    obtain rfl := Machine.HaltsIn.unique hstarts hm' hm''
    exact ⟨rfl, rfl, rfl, rfl⟩

/-- Two cells take turns: the value goes round the tape and loses one each time. -/
def countdownText : String :=
  ",[.-[->+<]>] and so on down to zero"

theorem balanced_run_iff_tree_countdown :
    Balanced (TapeOp.program countdownText) ∧
      ∃ (b : LoopTree) (s : Config), b.ops = TapeOp.program countdownText ∧ b.Run ⟨#[0, 0], 0, ['\u0103'], #[]⟩ s ∧
        s.tape = #[0, 0] ∧ s.pointer = 1 ∧ s.input = [] ∧ s.output = #[3, 2, 1] := by
  have hbalanced : Balanced (TapeOp.program countdownText) := by decide +kernel
  -- the machine, run for as long as it takes
  have hmachine : ((Machine.ofSize 2).map fun fresh =>
      let (result, m) := Machine.runFor 0 60 (fresh.load countdownText "\u0103").2
      (result, m.tape, m.pointer, m.input, m.output)) = .ok (.ok (), #[0, 0], 1, [], #[3, 2, 1]) := by
    decide +kernel
  obtain ⟨b, hb, -, fresh, m, hfresh, hload, -, hends, hsame⟩ :=
    balanced_run_iff_tree hbalanced (by decide : 1 ≤ (2 : Int)) "\u0103"
  simp only [hfresh, hload, Except.map, Except.ok.injEq, Prod.mk.injEq] at hmachine
  obtain ⟨hok, htape, hpointer, hinput, houtput⟩ := hmachine
  have hhalts : m.HaltsIn (Machine.runFor 0 60 m).2 := ⟨60, Prod.ext hok rfl⟩
  obtain ⟨s, hs⟩ := hends.1 ⟨_, hhalts⟩
  obtain ⟨htape', hpointer', hinput', houtput'⟩ := hsame _ s hhalts hs
  exact ⟨hbalanced, b, s, hb, hs, htape'.symm.trans htape, hpointer'.symm.trans hpointer, hinput'.symm.trans hinput,
    houtput'.symm.trans houtput⟩

end TapeCompiler
