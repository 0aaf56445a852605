import TapeCompiler.Proofs.Loops

/-!
# Loading compiled sources

A machine finds the partners of the brackets in the code, where it knows nothing of instructions. It finds the
loops of the assembler, also in code with diagnostics.

* `placeOf`: where the operations of an instruction start in the code.
* `getElem?_operations`: **the brackets of the code are those of the instructions.**
* `Joins`, `pairFrom_take`: pairing up the brackets of instructions joins the two ends of every loop that is
  closed, and nothing else.
* `compiled_load_pairs_loops`: **every compiled source can be loaded, and its brackets are paired up as the
  assembler opened and closed them.**
-/

namespace TapeCompiler

/-- The bracket of an instruction. -/
def Instruction.bracket? : Instruction → Option TapeOp
  | openLoop => some .openLoop
  | closeLoop => some .closeLoop
  | move _ | add _ | print | read | comment _ | marker _ => none

/-- A bracket tells its instruction. -/
theorem Instruction.bind_bracket? {i : Instruction} {o : TapeOp} (hi : i.bracket? = some o)
    {found : Option Instruction} : found.bind Instruction.bracket? = some o ↔ found = some i := by
  rcases found with _ | i'
  · simp
  · cases i <;> cases hi <;> cases i' <;> simp [Instruction.bracket?]

/-- The place of the first operation of the instruction with index `k`. -/
def placeOf (is : List Instruction) (k : ℕ) : ℕ :=
  (operations (is.take k)).length

@[simp]
theorem placeOf_zero (is : List Instruction) : placeOf is 0 = 0 := by
  simp [placeOf]

theorem placeOf_cons_succ (i : Instruction) (is : List Instruction) (k : ℕ) :
    placeOf (i :: is) (k + 1) = (TapeOp.program i.code).length + placeOf is k := by
  simp [placeOf, operations_cons]

theorem operations_take_succ {is : List Instruction} {i : Instruction} {n : ℕ} (hi : is[n]? = some i) :
    operations (is.take (n + 1)) = operations (is.take n) ++ TapeOp.program i.code := by
  rw [List.take_add_one, hi, Option.toList_some, operations_append, operations_cons, operations_nil,
    List.append_nil]

theorem placeOf_succ {is : List Instruction} {i : Instruction} {n : ℕ} (hi : is[n]? = some i) :
    placeOf is (n + 1) = placeOf is n + (TapeOp.program i.code).length := by
  rw [placeOf, operations_take_succ hi, List.length_append, placeOf]

theorem placeOf_mono (is : List Instruction) {k n : ℕ} (h : k ≤ n) : placeOf is k ≤ placeOf is n := by
  obtain ⟨rest, hrest⟩ := List.take_prefix_take_left (l := is) h
  rw [placeOf, placeOf, ← hrest, operations_append, List.length_append]
  omega

theorem Instruction.program_code_of_bracket {i : Instruction} {o : TapeOp} (h : i.bracket? = some o) :
    TapeOp.program i.code = [o] := by
  cases i <;> cases h <;> decide

/-- What comes behind a bracket has another place. -/
theorem placeOf_lt {is : List Instruction} {i : Instruction} {o : TapeOp} {k n : ℕ} (hk : is[k]? = some i)
    (hi : i.bracket? = some o) (h : k < n) : placeOf is k < placeOf is n := by
  have hstep := placeOf_succ hk
  rw [Instruction.program_code_of_bracket hi, List.length_singleton] at hstep
  have hmono := placeOf_mono is (show k + 1 ≤ n by omega)
  omega

/-- Different brackets have different places. -/
theorem placeOf_inj {is : List Instruction} {i i' : Instruction} {o o' : TapeOp} {k k' : ℕ}
    (hk : is[k]? = some i) (hi : i.bracket? = some o) (hk' : is[k']? = some i') (hi' : i'.bracket? = some o')
    (h : placeOf is k = placeOf is k') : k = k' := by
  rcases Nat.lt_trichotomy k k' with hlt | heq | hlt
  · have := placeOf_lt hk hi hlt
    omega
  · exact heq
  · have := placeOf_lt hk' hi' hlt
    omega

/-- An instruction without a bracket has none in its code, if diagnostics hold none. -/
theorem Instruction.program_code_of_plain {i : Instruction} (h : i.bracket? = none)
    (hd : ∀ d, i = .marker d → Stationary d.text) :
    TapeOp.program i.code = i.actions.map Action.toOp := by
  refine Instruction.program_code ?_ ?_ hd
  · rintro rfl
    cases h
  · rintro rfl
    cases h

/-- **The brackets of the code are those of the instructions**, each at the place of its instruction. -/
theorem getElem?_operations {is : List Instruction} (hd : ∀ d, .marker d ∈ is → Stationary d.text) {o : TapeOp}
    (ho : o = .openLoop ∨ o = .closeLoop) (p : ℕ) :
    (operations is)[p]? = some o ↔ ∃ k, is[k]?.bind Instruction.bracket? = some o ∧ p = placeOf is k := by
  induction is generalizing p with
  | nil => simp
  | cons i is ih =>
    have hrest := ih fun d hmem => hd d (List.mem_cons_of_mem _ hmem)
    rw [operations_cons]
    rcases Nat.lt_or_ge p (TapeOp.program i.code).length with hp | hp
    · rw [List.getElem?_append_left hp]
      -- no later instruction starts here
      have hfirst (k : ℕ) (hk : p = placeOf (i :: is) k) : k = 0 := by
        cases k with
        | zero => rfl
        | succ k =>
          rw [placeOf_cons_succ] at hk
          omega
      cases hi : i.bracket? with
      | some b =>
        rw [Instruction.program_code_of_bracket hi] at hp ⊢
        obtain rfl : p = 0 := by simpa using hp
        constructor
        · intro h
          exact ⟨0, by simpa [hi] using h, by simp⟩
        · rintro ⟨k, hk, hplace⟩
          obtain rfl := hfirst k hplace
          simpa [hi] using hk
      | none =>
        rw [Instruction.program_code_of_plain hi fun d h => hd d (h ▸ List.mem_cons_self)]
        constructor
        · intro h
          obtain ⟨a, -, ha⟩ := List.mem_map.1 (List.mem_of_getElem? h)
          rcases ho with rfl | rfl <;> cases a <;> cases ha
        · rintro ⟨k, hk, hplace⟩
          obtain rfl := hfirst k hplace
          simp [hi] at hk
    · rw [List.getElem?_append_right hp, hrest]
      constructor
      · rintro ⟨k, hk, hplace⟩
        exact ⟨k + 1, by simpa using hk, by rw [placeOf_cons_succ]; omega⟩
      · rintro ⟨k, hk, hplace⟩
        cases k with
        | zero =>
          have hi : i.bracket? = some o := by simpa using hk
          rw [placeOf_zero] at hplace
          rw [Instruction.program_code_of_bracket hi, List.length_singleton] at hp
          omega
        | succ k =>
          rw [placeOf_cons_succ] at hplace
          exact ⟨k, by simpa using hk, by omega⟩

/-! ## Pairing up -/

/-- A table joins the ends of the loops that are closed by one of the first `n` instructions, and nothing
else. -/
def Joins (is : List Instruction) (n : ℕ) (t : Partners) : Prop :=
  ∀ p q, t.get? p = some q ↔ ∃ k j, j < n ∧ ClosesLoop is k j ∧
    (p = placeOf is k ∧ q = placeOf is j ∨ p = placeOf is j ∧ q = placeOf is k)

theorem pairFrom_actions (as : List Action) (i : ℕ) (opened : List ℕ) (t : Partners) (ops : List TapeOp) :
    pairFrom i opened t (as.map Action.toOp ++ ops) = pairFrom (i + as.length) opened t ops := by
  induction as generalizing i with
  | nil => rfl
  | cons a as ih =>
    rw [List.map_cons, List.cons_append, pairFrom_toOp, ih, List.length_cons]
    congr 1
    omega

section

variable {is : List Instruction} {n k : ℕ} {t : Partners}

/-- An instruction that closes no loop changes nothing. -/
theorem Joins.succ (h : Joins is n t) (hn : is[n]? ≠ some .closeLoop) : Joins is (n + 1) t := by
  intro p q
  rw [h p q]
  constructor
  · rintro ⟨k, j, hj, hrest⟩
    exact ⟨k, j, by omega, hrest⟩
  · rintro ⟨k, j, hj, hclose, hplaces⟩
    have hne : j ≠ n := by
      rintro rfl
      exact hn hclose.1
    exact ⟨k, j, by omega, hclose, hplaces⟩

/-- Of the loops that are closed by an instruction or before it, one is closed by it. -/
theorem ClosesLoop.exists_lt_succ (hclose : ClosesLoop is k n) (P : ℕ → ℕ → Prop) :
    (∃ k' j, j < n + 1 ∧ ClosesLoop is k' j ∧ P k' j) ↔
      (∃ k' j, j < n ∧ ClosesLoop is k' j ∧ P k' j) ∨ P k n := by
  constructor
  · rintro ⟨k', j, hj, hclose', hP⟩
    rcases Nat.lt_or_ge j n with hlt | hge
    · exact .inl ⟨k', j, hlt, hclose', hP⟩
    · obtain rfl : j = n := by omega
      obtain rfl := hclose.unique hclose'
      exact .inr hP
  · rintro (⟨k', j, hj, hrest⟩ | hP)
    · exact ⟨k', j, by omega, hrest⟩
    · exact ⟨k, n, by omega, hclose, hP⟩

/-- The ends of a loop have no partners before it is closed: loops that were closed before end elsewhere. -/
theorem Joins.get?_eq_none (h : Joins is n t) (hclose : ClosesLoop is k n) :
    t.get? (placeOf is k) = none ∧ t.get? (placeOf is n) = none := by
  obtain ⟨hopen, hkn⟩ := hclose.opening
  obtain ⟨hcloses, outer, hbefore⟩ := hclose
  obtain ⟨hn, -⟩ := List.getElem?_eq_some_iff.1 hcloses
  constructor <;> refine Option.eq_none_iff_forall_ne_some.2 fun q hq => ?_ <;>
    obtain ⟨k', j', hj', hclose', hplaces⟩ := (h _ q).1 hq <;>
    obtain ⟨hopen', hkj'⟩ := hclose'.opening <;>
    rcases hplaces with ⟨hp, -⟩ | ⟨hp, -⟩
  · obtain rfl := placeOf_inj hopen rfl hopen' rfl hp
    exact hclose'.notMem hj' (Nat.le_of_lt hn) hbefore List.mem_cons_self
  · obtain rfl := placeOf_inj hopen rfl hclose'.1 rfl hp
    cases hopen.symm.trans hclose'.1
  · have := placeOf_lt hopen' rfl (show k' < n by omega)
    omega
  · have := placeOf_lt hclose'.1 rfl hj'
    omega

/-- An instruction that closes a loop joins its ends, and leaves the loops alone that were closed before. -/
theorem Joins.join (h : Joins is n t) (hclose : ClosesLoop is k n) (hsize : placeOf is n < t.size) :
    Joins is (n + 1) (t.join (placeOf is k) (placeOf is n)) := by
  obtain ⟨hopen, hkn⟩ := hclose.opening
  obtain ⟨hfirst, hlast⟩ := h.get?_eq_none hclose
  have hlt : placeOf is k < placeOf is n := placeOf_lt hopen rfl hkn
  intro p q
  rw [hclose.exists_lt_succ, ← h p q]
  by_cases hpn : p = placeOf is n
  · rw [hpn, Partners.get?_join_right hsize, hlast]
    grind
  · by_cases hpk : p = placeOf is k
    · rw [hpk, Partners.get?_join_left (by omega) (by omega), hfirst]
      grind
    · rw [Partners.get?_join_of_ne hpk hpn]
      simp [hpk, hpn]

/-- **Pairing goes through instructions with the loops that are pending**, and has joined the ends of those
that were closed. The induction is on the number of instructions it has gone through. -/
theorem pairFrom_take (hd : ∀ d, .marker d ∈ is → Stationary d.text) (hn : n ≤ is.length) {loops : List ℕ}
    (hloops : pending (is.take n) = some loops) :
    ∃ t : Partners, t.size = (operations is).length ∧ Joins is n t ∧ ∀ rest,
      pairFrom 0 [] (Array.replicate (operations is).length none) (operations (is.take n) ++ rest) =
        pairFrom (placeOf is n) (loops.map (placeOf is)) t rest := by
  induction n generalizing loops with
  | zero =>
    obtain rfl : [] = loops := Option.some.inj hloops
    refine ⟨Array.replicate (operations is).length none, Array.size_replicate, fun p q => ?_, fun rest => by simp⟩
    have hnone : Partners.get? (Array.replicate (operations is).length none) p = none := by
      rw [Partners.get?, Array.getElem?_replicate]
      split <;> rfl
    simp [hnone]
  | succ n ih =>
    obtain ⟨i, before, hi, hbefore, hpend⟩ := pending_step hn hloops
    obtain ⟨t, hsize, hjoins, hpair⟩ := ih (by omega) hbefore
    have hplace := placeOf_succ hi
    have hthrough (rest : List TapeOp) := hpair (TapeOp.program i.code ++ rest)
    obtain ⟨rfl, rfl⟩ | ⟨rfl, k, rfl⟩ | ⟨ho, hc, rfl⟩ := Instruction.pend_cases hpend
    · -- an opening bracket: one more place waits for its partner
      refine ⟨t, hsize, hjoins.succ (by simp [hi]), fun rest => ?_⟩
      have hcode : TapeOp.program Instruction.openLoop.code = [.openLoop] :=
        Instruction.program_code_of_bracket rfl
      rw [operations_take_succ hi, List.append_assoc, hthrough, hplace, hcode]
      rfl
    · -- a closing one: the last place that waits is joined with it
      have hcode : TapeOp.program Instruction.closeLoop.code = [.closeLoop] :=
        Instruction.program_code_of_bracket rfl
      have hin : placeOf is n < t.size := by
        have hlt : placeOf is n < placeOf is is.length := placeOf_lt hi rfl hn
        rwa [placeOf, placeOf, List.take_length, ← hsize] at hlt
      refine ⟨_, (Partners.size_join _ _ _).trans hsize, hjoins.join ⟨hi, loops, hbefore⟩ hin, fun rest => ?_⟩
      rw [operations_take_succ hi, List.append_assoc, hthrough, hplace, hcode]
      rfl
    · -- any other instruction: its code has no brackets, also that of a diagnostic
      have hclose : is[n]? ≠ some .closeLoop := by
        rw [hi]
        simpa using hc
      have hcode : TapeOp.program i.code = i.actions.map Action.toOp :=
        Instruction.program_code ho hc fun d h => hd d (h ▸ List.mem_of_getElem? hi)
      refine ⟨t, hsize, hjoins.succ hclose, fun rest => ?_⟩
      rw [operations_take_succ hi, List.append_assoc, hthrough, hplace, hcode, pairFrom_actions,
        List.length_map]

/-- **Instructions all of whose loops are closed can be loaded**, and the two ends of every loop are
partners. -/
theorem pairUp_operations (hd : ∀ d, .marker d ∈ is → Stationary d.text) (h : pending is = some []) :
    ∃ t, pairUp (operations is) = (.ok (), t) ∧ Joins is is.length t := by
  have hall : pending (is.take is.length) = some [] := by rwa [List.take_length]
  obtain ⟨t, -, hjoins, hpair⟩ := pairFrom_take hd (Nat.le_refl _) hall
  have hend := hpair []
  rw [List.take_length, List.append_nil] at hend
  exact ⟨t, hend, hjoins⟩

end

/-! ## Compiled sources -/

/-- The loops of a compiled source are all closed. -/
theorem pending_of_generator {comments : Bool} {g' : Generator} {code : CellCode}
    (hend : g'.assembler = (Assembler.new comments).assemble code) : pending g'.instructions = some [] := by
  have hbecomes := Assembler.becomes_assemble (Assembler.new comments) code
  obtain ⟨-, loops, hpending, hstack⟩ := hbecomes.nests (Assembler.nests_new comments)
  have hempty : ((Assembler.new comments).assemble code).openLoops = [] := by
    simp [Assembler.assemble, Assembler.new]
  rw [hempty] at hstack
  obtain rfl : loops = [] := List.map_eq_nil_iff.1 hstack.symm
  rwa [Generator.instructions, hend]

/-- **Every compiled source can be loaded**, with or without diagnostics, and on every machine. The brackets of
the loaded program are those of the instructions that open and close loops, every such instruction is an end of
a loop of the assembler, and two brackets are partners just if they are the two ends of one loop. -/
theorem compiled_load_pairs_loops {source : String} {options : Options} {c : Compiled}
    (hcompile : compile source options = .ok c) (m₀ : Machine) (input : String) :
    ∃ program g g' m, parse source (scan source) = .ok program ∧
      Generator.ofSize options.tapeSize options.comments = .ok g ∧
      Generate.statements program g = .ok () g' ∧ g'.instructions = c.instructions ∧
      (∀ n ≤ c.instructions.length, ∃ a, g.Moment g' a ∧ a.emitted.toList = c.instructions.take n) ∧
      m₀.load c.code input = (.ok (), m) ∧
      (∀ p, m.program[p]? = some .openLoop ↔
        ∃ k, c.instructions[k]? = some .openLoop ∧ p = placeOf c.instructions k) ∧
      (∀ p, m.program[p]? = some .closeLoop ↔
        ∃ j, c.instructions[j]? = some .closeLoop ∧ p = placeOf c.instructions j) ∧
      (∀ k, c.instructions[k]? = some .openLoop →
        ∃ j, c.instructions[j]? = some .closeLoop ∧ g.SameLoop g' k j) ∧
      (∀ j, c.instructions[j]? = some .closeLoop →
        ∃ k, c.instructions[k]? = some .openLoop ∧ g.SameLoop g' k j) ∧
      ∀ p q, m.partners.get? p = some q ↔
        ∃ k j, c.instructions[k]? = some .openLoop ∧ c.instructions[j]? = some .closeLoop ∧
          g.SameLoop g' k j ∧ (p = placeOf c.instructions k ∧ q = placeOf c.instructions j ∨
            p = placeOf c.instructions j ∧ q = placeOf c.instructions k) := by
  obtain ⟨program, code, hparse, hplan, hc⟩ := exists_plan_of_compile hcompile
  obtain ⟨g, g', hg, hrun, hstart, hend⟩ := exists_generator_of_plan hplan
  have hstationary := stationary_of_plan hparse hplan hc
  have hfinal : g'.instructions = c.instructions := by
    rw [Generator.instructions, hend, hc]
    simp [Assembler.assemble, Assembler.new]
  have hnests : g.assembler.Nests := hstart ▸ Assembler.nests_new options.comments
  have hall : g.assembler.Becomes g'.assembler := by
    rw [hstart, hend]
    exact Assembler.becomes_assemble _ _
  have hmoment : ∀ n ≤ g'.instructions.length, ∃ a, g.Moment g' a ∧ a.emitted.toList.length = n := by
    intro n hn
    obtain ⟨a, hga, hag', hlen⟩ := hall.exists_moment (k := n) (by simp [hstart, Assembler.new]) hn
    exact ⟨a, ⟨hga, hag'⟩, hlen⟩
  have hclosed := pending_of_generator hend
  rw [← hfinal] at hstationary ⊢
  obtain ⟨t, hpair, hjoins⟩ := pairUp_operations hstationary hclosed
  have hops : TapeOp.program c.code = operations g'.instructions := by rw [hfinal]; rfl
  have hload : m₀.load c.code input = (.ok (), { m₀.reset with
      program := (operations g'.instructions).toArray, partners := t, input := input.toList }) := by
    rw [Machine.load, hops, hpair]
  refine ⟨program, g, g', _, hparse, hg, hrun, rfl, ?_, hload, ?_, ?_, ?_, ?_, ?_⟩
  · intro n hn
    obtain ⟨a, ha, hlen⟩ := hmoment n hn
    exact ⟨a, ha, hlen ▸ ha.take⟩
  · intro p
    rw [List.getElem?_toArray, getElem?_operations hstationary (.inl rfl)]
    simp only [Instruction.bind_bracket? (i := .openLoop) rfl]
  · intro p
    rw [List.getElem?_toArray, getElem?_operations hstationary (.inr rfl)]
    simp only [Instruction.bind_bracket? (i := .closeLoop) rfl]
  · intro k hk
    obtain ⟨j, hclose⟩ := exists_closesLoop hclosed hk
    exact ⟨j, hclose.1, Generator.sameLoop_of_closesLoop hnests hclose⟩
  · intro j hj
    obtain ⟨k, hk, hclose⟩ := exists_closedLoop hclosed hj
    exact ⟨k, hk, Generator.sameLoop_of_closesLoop hnests hclose⟩
  · intro p q
    rw [hjoins p q]
    constructor
    · rintro ⟨k, j, -, hclose, hplaces⟩
      exact ⟨k, j, hclose.opening.1, hclose.1, Generator.sameLoop_of_closesLoop hnests hclose, hplaces⟩
    · rintro ⟨k, j, hk, hj, hsame, hplaces⟩
      obtain ⟨hlt, -⟩ := List.getElem?_eq_some_iff.1 hj
      exact ⟨k, j, hlt, (Generator.sameLoop_iff_closesLoop hnests hmoment hclosed hk hj).1 hsame, hplaces⟩

/-- The diagnostics of the source stand inside and outside of a loop, and the machine has no tape. -/
theorem compiled_load_pairs_loops_diagnosed :
    ∃ c m, compile diagnosedSource ⟨3, true, false, 1⟩ = .ok c ∧ c.ok = false ∧
      (Machine.blank 0).load c.code "" = (.ok (), m) ∧ .openLoop ∈ m.program ∧
      ∀ p, m.program[p]? = some .openLoop → ∃ q, m.program[q]? = some .closeLoop ∧
        m.partners.get? p = some q ∧ m.partners.get? q = some p := by
  have hcompile : (compile diagnosedSource ⟨3, true, false, 1⟩).map
      (fun c => (c.ok, decide (Instruction.openLoop ∈ c.instructions))) = .ok (false, true) := by
    decide +kernel
  obtain ⟨c, hc, hfacts⟩ := exists_of_map_ok hcompile
  obtain ⟨hok, hloop⟩ := Prod.mk.inj hfacts
  obtain ⟨_, g, g', m, _, _, _, _, _, hload, hopens, hcloses, hclosed, _, hpartners⟩ :=
    compiled_load_pairs_loops hc (Machine.blank 0) ""
  obtain ⟨k, hk⟩ := List.mem_iff_getElem?.1 (of_decide_eq_true hloop)
  refine ⟨c, m, hc, hok, hload, Array.mem_of_getElem? ((hopens _).2 ⟨k, hk, rfl⟩), fun p hp => ?_⟩
  obtain ⟨k, hk, rfl⟩ := (hopens p).1 hp
  obtain ⟨j, hj, hsame⟩ := hclosed k hk
  refine ⟨placeOf c.instructions j, (hcloses _).2 ⟨j, hj, rfl⟩, ?_, ?_⟩
  · exact (hpartners _ _).2 ⟨k, j, hk, hj, hsame, .inl ⟨rfl, rfl⟩⟩
  · exact (hpartners _ _).2 ⟨k, j, hk, hj, hsame, .inr ⟨rfl, rfl⟩⟩

end TapeCompiler
