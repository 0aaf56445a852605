import TapeCompiler.Machine.Run
import TapeCompiler.Proofs.Machine.Pairing

/-!
# The machine runs trees

The machine jumps between brackets by its table of partners; a tree has a meaning without places. The
two agree at every place of the program, and at its end.

* `Machine.after`: a machine some steps later.
* `Machine.HaltsIn`: how a run without a limit ends.
* `after_visits`: **every step of the machine leads to a place and a configuration that the tree visits.**
* `exists_after_of_run`: a run of the tree is made by the machine.
* `haltsIn_iff_run`: **the machine halts in just the configurations in which the tree ends.**
-/

namespace TapeCompiler

namespace Machine

/-- What the program of a machine works on. -/
def config (m : Machine) : Config :=
  ⟨m.tape, m.pointer, m.input, m.output⟩

/-- The machine at another place of its program, with another configuration, `n` steps later. -/
def moved (m : Machine) (k : ℕ) (s : Config) (n : ℕ) : Machine :=
  { m with
    pc := k, tape := s.tape, pointer := s.pointer, input := s.input, output := s.output,
    steps := m.steps + n }

/-- The machine after `n` steps. -/
def after (m : Machine) (n : ℕ) : Machine :=
  (fun m => m.step.2)^[n] m

/-- A run without a limit ends in the machine `m'`. -/
def HaltsIn (m m' : Machine) : Prop :=
  ∃ n, runFor 0 n m = (.ok (), m')

@[simp]
theorem config_moved (m : Machine) (k : ℕ) (s : Config) (n : ℕ) : (m.moved k s n).config = s := rfl

@[simp]
theorem pc_moved (m : Machine) (k : ℕ) (s : Config) (n : ℕ) : (m.moved k s n).pc = k := rfl

@[simp]
theorem program_moved (m : Machine) (k : ℕ) (s : Config) (n : ℕ) :
    (m.moved k s n).program = m.program := rfl

@[simp]
theorem partners_moved (m : Machine) (k : ℕ) (s : Config) (n : ℕ) :
    (m.moved k s n).partners = m.partners := rfl

@[simp]
theorem moved_moved (m : Machine) (k k' : ℕ) (s s' : Config) (n n' : ℕ) :
    (m.moved k s n).moved k' s' n' = m.moved k' s' (n + n') := by
  simp [moved, Nat.add_assoc]

@[simp]
theorem moved_self (m : Machine) : m.moved m.pc m.config 0 = m := rfl

@[simp]
theorem after_zero (m : Machine) : m.after 0 = m := rfl

theorem after_succ (m : Machine) (n : ℕ) : m.after (n + 1) = (m.after n).step.2 :=
  Function.iterate_succ_apply' _ _ _

theorem after_add (m : Machine) (n k : ℕ) : m.after (n + k) = (m.after n).after k := by
  rw [Nat.add_comm, after, Function.iterate_add_apply]; rfl

end Machine

/-! ## One step -/

/-- The head is on the tape. -/
def Config.OnTape (s : Config) : Prop :=
  s.pointer < s.tape.size

@[simp]
theorem Config.size_alter (s : Config) (f : UInt8 → UInt8) : (s.alter f).tape.size = s.tape.size := by
  simp [alter]

@[simp]
theorem Action.size_apply (a : Action) (s : Config) : (a.apply s).tape.size = s.tape.size := by
  cases a <;> simp [apply]

theorem Config.OnTape.apply {s : Config} (h : s.OnTape) (a : Action) : (a.apply s).OnTape := by
  unfold OnTape at h ⊢
  rw [Action.size_apply]
  cases a with
  | right => exact Nat.mod_lt _ (by omega)
  | left => exact Nat.mod_lt _ (by omega)
  | increment | decrement | write | read => exact h

theorem LoopTree.Run.onTape {b : LoopTree} {s t : Config} (h : b.Run s t) (hs : s.OnTape) : t.OnTape :=
  h.keeps (fun _ a h => h.apply a) hs

namespace Machine

variable {m : Machine}

theorem cell?_of_onTape (h : m.config.OnTape) : m.cell? = some m.config.current := by
  have hlt : m.pointer < m.tape.size := h
  simp [cell?, Config.current, config, hlt]

/-- An action is one step. -/
theorem step_act {a : Action} (hop : m.program[m.pc]? = some a.toOp) (h : m.config.OnTape) :
    m.step = (.ok (), m.moved (m.pc + 1) (a.apply m.config) 1) := by
  have hlt : m.pointer < m.tape.size := h
  have hne : m.tape.size ≠ 0 := by omega
  have hcell : ({ m with steps := m.steps + 1 } : Machine).cell? = some m.config.current :=
    cell?_of_onTape h
  unfold step
  rw [hop]
  cases a with
  | right | left => simp [Action.toOp, execute, shift, proceed, moved, Action.apply, config, hne]
  | increment | decrement =>
    simp [Action.toOp, execute, alter, proceed, moved, Action.apply, Config.alter, config, hlt]
  | write =>
    simp only [Action.toOp, execute, hcell]
    simp [proceed, moved, Action.apply, config]
  | read =>
    simp only [Action.toOp, execute, alter, hlt, if_true]
    rfl

/-- An opening bracket jumps behind its partner if the cell under the head is zero. -/
theorem step_openLoop {j : ℕ} (hop : m.program[m.pc]? = some .openLoop)
    (hj : m.partners.get? m.pc = some j) (h : m.config.OnTape) :
    m.step = (.ok (), m.moved (if m.config.current = 0 then j + 1 else m.pc + 1) m.config 1) := by
  have hcell : ({ m with steps := m.steps + 1 } : Machine).cell? = some m.config.current :=
    cell?_of_onTape h
  unfold step
  rw [hop]
  simp only [execute, hcell]
  split
  · simp only [jump, hj]; rfl
  · rfl

/-- A closing bracket jumps behind its partner if the cell under the head is not zero. -/
theorem step_closeLoop {i : ℕ} (hop : m.program[m.pc]? = some .closeLoop)
    (hi : m.partners.get? m.pc = some i) (h : m.config.OnTape) :
    m.step = (.ok (), m.moved (if m.config.current = 0 then m.pc + 1 else i + 1) m.config 1) := by
  have hcell : ({ m with steps := m.steps + 1 } : Machine).cell? = some m.config.current :=
    cell?_of_onTape h
  unfold step
  rw [hop]
  simp only [execute, hcell]
  split
  · rfl
  · simp only [jump, hi]; rfl

theorem step_of_finished (h : m.program.size ≤ m.pc) : m.step = (.ok (), m) := by
  unfold step
  rw [Array.getElem?_eq_none h]

/-! ## A tree in a program -/

/-- The program of a machine holds a tree from place `i` on. -/
structure Placed (m : Machine) (i : ℕ) (b : LoopTree) : Prop where
  ops : ∀ k, k < b.ops.length → m.program[i + k]? = b.ops[k]?
  linked : Linked m.partners i b

theorem Placed.act {i : ℕ} {a : Action} {next : LoopTree} (h : m.Placed i (.act a next)) :
    m.program[i]? = some a.toOp ∧ m.Placed (i + 1) next := by
  refine ⟨by simpa [LoopTree.ops] using h.ops 0 (by simp [LoopTree.ops]), ?_, h.linked⟩
  intro k hk
  have := h.ops (k + 1) (by simp [LoopTree.ops]; omega)
  rw [show i + 1 + k = i + (k + 1) by omega, this]
  simp [LoopTree.ops]

theorem Placed.loop {i : ℕ} {body next : LoopTree} (h : m.Placed i (.loop body next)) :
    m.program[i]? = some .openLoop ∧ m.program[i + 1 + body.ops.length]? = some .closeLoop ∧
      m.Placed (i + 1) body ∧ m.Placed (i + 1 + body.ops.length + 1) next := by
  have hops := h.ops
  simp only [LoopTree.ops, List.length_cons, List.length_append] at hops
  refine ⟨by simpa using hops 0 (by omega), ?_, ⟨?_, h.linked.2.2.1⟩, ⟨?_, h.linked.2.2.2⟩⟩
  · rw [show i + 1 + body.ops.length = i + (body.ops.length + 1) by omega, hops _ (by omega)]
    simp
  · intro k hk
    rw [show i + 1 + k = i + (k + 1) by omega, hops _ (by omega), List.getElem?_cons_succ,
      List.getElem?_append_left hk]
  · intro k hk
    rw [show i + 1 + body.ops.length + 1 + k = i + (body.ops.length + (k + 1) + 1) by omega,
      hops _ (by omega), List.getElem?_cons_succ, List.getElem?_append_right (by omega)]
    simp

/-- **One step inside a tree** leads from a visited place to a visited place. -/
theorem step_visits {b : LoopTree} {i k : ℕ} {s : Config} (hb : m.Placed i b)
    (hv : b.Visits s k m.config) (hk : k < b.ops.length) (hpc : m.pc = i + k)
    (hm : m.config.OnTape) :
    ∃ k' t, m.step = (.ok (), m.moved (i + k') t 1) ∧ b.Visits s k' t := by
  induction b generalizing i k s with
  | empty => simp [LoopTree.ops] at hk
  | act a next ih =>
    obtain ⟨hop, hnext⟩ := hb.act
    simp only [LoopTree.ops, List.length_cons] at hk
    rcases hv with ⟨rfl, hs⟩ | ⟨j, rfl, hj⟩
    · have hpc' : m.pc = i := hpc
      rw [← hpc'] at hop
      refine ⟨1, a.apply s, by rw [step_act hop hm, hpc', hs], ?_⟩
      exact Or.inr ⟨0, rfl, (LoopTree.visits_zero _ _ _).2 rfl⟩
    · obtain ⟨k', t, hstep, ht⟩ := ih hnext hj (by omega) (by omega)
      exact ⟨k' + 1, t, by rw [hstep, show i + 1 + k' = i + (k' + 1) by omega],
        Or.inr ⟨k', rfl, ht⟩⟩
  | loop body next ihb ihn =>
    obtain ⟨hopen, hclose, hbody, hnext⟩ := hb.loop
    obtain ⟨hlo, hlc, -, -⟩ := hb.linked
    simp only [LoopTree.ops, List.length_cons, List.length_append] at hk
    rcases hv with ⟨rfl, hs⟩ | ⟨u, j, hp, hu, rfl, hj⟩ | ⟨u, j, hr, rfl, hj⟩
    · -- at the opening bracket
      have hpc' : m.pc = i := hpc
      rw [← hpc'] at hopen hlo
      have hstep := step_openLoop hopen hlo hm
      by_cases hz : m.config.current = 0
      · rw [if_pos hz, hpc'] at hstep
        refine ⟨body.ops.length + 2, m.config, by rw [hstep]; congr 2; omega, ?_⟩
        refine Or.inr (Or.inr ⟨m.config, 0, ?_, rfl, (LoopTree.visits_zero _ _ _).2 rfl⟩)
        rw [← hs]; exact Repeats.done (by simpa using hz)
      · rw [if_neg hz, hpc'] at hstep
        refine ⟨1, m.config, hstep, ?_⟩
        refine Or.inr (Or.inl ⟨m.config, 0, ?_, hz, rfl, (LoopTree.visits_zero _ _ _).2 rfl⟩)
        rw [← hs]; exact Passes.refl _
    · rcases Nat.lt_or_eq_of_le hj.le_length with hlt | rfl
      · -- inside the body
        obtain ⟨k', t, hstep, ht⟩ := ihb hbody hj hlt (by omega)
        exact ⟨k' + 1, t, by rw [hstep, show i + 1 + k' = i + (k' + 1) by omega],
          Or.inr (Or.inl ⟨u, k', hp, hu, rfl, ht⟩)⟩
      · -- at the closing bracket: a whole pass has been made
        have hpass := hp.next hu ((LoopTree.visits_ops_length _ _ _).1 hj)
        have hpc' : m.pc = i + 1 + body.ops.length := by omega
        rw [← hpc'] at hclose hlc
        have hstep := step_closeLoop hclose hlc hm
        by_cases hz : m.config.current = 0
        · rw [if_pos hz, hpc'] at hstep
          refine ⟨body.ops.length + 2, m.config, by rw [hstep]; congr 2; omega, ?_⟩
          exact Or.inr (Or.inr ⟨m.config, 0, ⟨hpass, by simpa using hz⟩, rfl,
            (LoopTree.visits_zero _ _ _).2 rfl⟩)
        · rw [if_neg hz] at hstep
          refine ⟨1, m.config, hstep, ?_⟩
          exact Or.inr (Or.inl ⟨m.config, 0, hpass, hz, rfl, (LoopTree.visits_zero _ _ _).2 rfl⟩)
    · -- behind the loop
      obtain ⟨k', t, hstep, ht⟩ := ihn hnext hj (by omega) (by omega)
      refine ⟨body.ops.length + 2 + k', t, by rw [hstep]; congr 2; omega, ?_⟩
      exact Or.inr (Or.inr ⟨u, k', hr, rfl, ht⟩)

/-! ## Whole runs -/

/-- The program of a machine is a tree, and the machine is at its start. -/
structure Starts (m : Machine) (b : LoopTree) : Prop where
  program : m.program = b.ops.toArray
  linked : Linked m.partners 0 b
  pc : m.pc = 0
  onTape : m.config.OnTape

theorem Starts.placed {b : LoopTree} (h : m.Starts b) : m.Placed 0 b := by
  refine ⟨fun k _ => ?_, h.linked⟩
  rw [h.program, Nat.zero_add]; simp

theorem Placed.moved {i : ℕ} {b : LoopTree} (h : m.Placed i b) (k : ℕ) (s : Config) (n : ℕ) :
    (m.moved k s n).Placed i b :=
  ⟨h.ops, h.linked⟩

theorem onTape_of_visits {b : LoopTree} {s t : Config} {k : ℕ} (hv : b.Visits s k t)
    (hs : s.OnTape) : t.OnTape :=
  hv.keeps (fun _ a h => h.apply a) hs

/-- **Every step of the machine leads to a place and a configuration that the tree visits.** -/
theorem after_visits {b : LoopTree} (hm : m.Starts b) (n : ℕ) :
    ∃ k s j, m.after n = m.moved k s j ∧ b.Visits m.config k s := by
  induction n with
  | zero =>
    have hself := moved_self m
    rw [hm.pc] at hself
    exact ⟨0, m.config, 0, hself.symm, (LoopTree.visits_zero _ _ _).2 rfl⟩
  | succ n ih =>
    obtain ⟨k, s, j, heq, hv⟩ := ih
    rw [after_succ, heq]
    rcases Nat.lt_or_eq_of_le hv.le_length with hk | hk
    · obtain ⟨k', t, hstep, ht⟩ := step_visits (hm.placed.moved k s j) hv hk (by simp)
        (onTape_of_visits hv hm.onTape)
      exact ⟨k', t, j + 1, by rw [hstep]; simp, ht⟩
    · refine ⟨k, s, j, ?_, hv⟩
      rw [step_of_finished (by simp [hm.program, hk])]

/-- From either bracket of a loop the passes that are left are made, and then the loop is left. -/
theorem exists_after_of_passes {body next : LoopTree} {i j : ℕ} (hb : m.Placed i (.loop body next))
    (hj : j = i + 1 + body.ops.length)
    (ihb : ∀ {m' : Machine}, m'.Placed (i + 1) body → m'.pc = i + 1 → ∀ {t}, m'.config.OnTape →
      body.Run m'.config t → ∃ n, m'.after n = m'.moved (i + 1 + body.ops.length) t n)
    {u v : Config} (hv : Passes (fun s => s.current ≠ 0) body.Run v u) (hend : u.current = 0) :
    v.OnTape → ∀ k n, k = i ∨ k = j → ∃ n', (m.moved k v n).after n' = m.moved (j + 1) u (n + n') := by
  obtain ⟨hopen, hclose, hbody, -⟩ := hb.loop
  obtain ⟨hlo, hlc, -, -⟩ := hb.linked
  rw [← hj] at hclose hlo hlc
  -- along the passes that are left; at either bracket the cell is tested in the same way
  induction hv using Relation.ReflTransGen.head_induction_on with
  | refl =>
    intro hu k n hk
    refine ⟨1, ?_⟩
    rw [after_succ, after_zero]
    rcases hk with rfl | rfl
    · rw [step_openLoop (m := m.moved k u n) hopen hlo hu]
      simp [hend]
    · rw [step_closeLoop (m := m.moved k u n) hclose hlc hu]
      simp [hend]
  | @head v w hvw _ ih =>
    intro hv k n hk
    obtain ⟨hnz, hw⟩ := hvw
    have hfirst : (m.moved k v n).step = (.ok (), m.moved (i + 1) v (n + 1)) := by
      rcases hk with rfl | rfl
      · rw [step_openLoop (m := m.moved k v n) hopen hlo hv]
        simp [hnz]
      · rw [step_closeLoop (m := m.moved k v n) hclose hlc hv]
        simp [hnz]
    obtain ⟨n₁, hn₁⟩ := ihb (hbody.moved (i + 1) v (n + 1)) rfl hv hw
    obtain ⟨n₂, hn₂⟩ := ih (hw.onTape hv) j (n + 1 + n₁) (Or.inr rfl)
    refine ⟨1 + (n₁ + n₂), ?_⟩
    rw [after_add, after_succ, after_zero, hfirst, after_add, hn₁, moved_moved, ← hj, hn₂]
    congr 1; omega

/-- A tree inside a program is run from its first place to the place behind it. -/
theorem exists_after_of_run {b : LoopTree} {i : ℕ} (hb : m.Placed i b) (hpc : m.pc = i) {t : Config}
    (hm : m.config.OnTape) (hrun : b.Run m.config t) :
    ∃ n, m.after n = m.moved (i + b.ops.length) t n := by
  induction b generalizing m i t with
  | empty => exact ⟨0, by rw [hrun, ← hpc]; simp [LoopTree.ops]⟩
  | act a next ih =>
    obtain ⟨hop, hnext⟩ := hb.act
    rw [← hpc] at hop
    have hstep := step_act hop hm
    obtain ⟨n, hn⟩ := ih (hnext.moved (m.pc + 1) (a.apply m.config) 1) (by simp [hpc])
      (by simpa using hm.apply a) hrun
    refine ⟨1 + n, ?_⟩
    rw [after_add, after_succ, after_zero, hstep, hn, moved_moved]
    simp only [LoopTree.ops, List.length_cons]
    congr 1; omega
  | loop body next ihb ihn =>
    obtain ⟨-, -, -, hnext⟩ := hb.loop
    set j := i + 1 + body.ops.length with hj
    obtain ⟨u, ⟨hpass, hend⟩, ht⟩ := hrun
    obtain ⟨n₁, hn₁⟩ := exists_after_of_passes hb hj (fun hb hpc _ hm hrun => ihb hb hpc hm hrun) hpass
      (by simpa using hend) hm i 0 (Or.inl rfl)
    rw [← hpc, moved_self] at hn₁
    have hu : u.OnTape := hpass.keeps hm fun v w hv _ hw => hw.onTape hv
    obtain ⟨n₂, hn₂⟩ := ihn (hnext.moved (j + 1) u (0 + n₁)) rfl hu ht
    refine ⟨n₁ + n₂, ?_⟩
    rw [after_add, hn₁, hn₂, moved_moved]
    simp only [LoopTree.ops, List.length_cons, List.length_append]
    congr 1 <;> omega

/-- No step of a tree is refused. -/
theorem step_after_ok {b : LoopTree} (hm : m.Starts b) (n : ℕ) : (m.after n).step.1 = .ok () := by
  obtain ⟨k, s, j, heq, hv⟩ := after_visits hm n
  rw [heq]
  rcases Nat.lt_or_eq_of_le hv.le_length with hk | hk
  · obtain ⟨k', t, hstep, -⟩ := step_visits (hm.placed.moved k s j) hv hk (by simp)
      (onTape_of_visits hv hm.onTape)
    rw [hstep]
  · rw [step_of_finished (by simp [hm.program, hk])]

theorem after_of_finished (h : m.finished = true) (n : ℕ) : m.after n = m := by
  induction n with
  | zero => rfl
  | succ n ih => rw [after_succ, ih, step_of_finished (by simpa [finished] using h)]

/-- A run in which no step is refused makes all its steps or stops at the end of the program. -/
theorem runFor_eq_after (hm : ∀ k, (m.after k).step.1 = .ok ()) (limit : Int) (n : ℕ) :
    runFor limit n m =
      (if (m.after n).finished then .ok () else .error (.limitExceeded limit), m.after n) := by
  induction n generalizing m with
  | zero =>
    simp only [runFor, after_zero, stop]
    by_cases hf : m.finished = true <;> simp [hf]
  | succ n ih =>
    unfold runFor
    by_cases hf : m.finished = true
    · rw [after_of_finished hf]; simp [hf]
    · have hstep : m.step = (.ok (), m.after 1) := Prod.ext (hm 0) rfl
      rw [if_neg hf, hstep]
      simp only
      rw [ih fun k => by rw [← after_add]; exact hm _, ← after_add, Nat.add_comm 1 n]

/-- A run without a limit in which no step is refused ends where stepping ends. -/
theorem haltsIn_iff_finished (hm : ∀ k, (m.after k).step.1 = .ok ()) (m' : Machine) :
    m.HaltsIn m' ↔ m'.finished = true ∧ ∃ n, m' = m.after n := by
  constructor
  · rintro ⟨n, hn⟩
    rw [runFor_eq_after hm] at hn
    by_cases hf : (m.after n).finished = true
    · rw [if_pos hf] at hn
      cases hn
      exact ⟨hf, n, rfl⟩
    · rw [if_neg hf] at hn
      cases hn
  · rintro ⟨hf, n, rfl⟩
    exact ⟨n, by rw [runFor_eq_after hm, if_pos hf]⟩

/-- A run without a limit ends where stepping ends. -/
theorem haltsIn_iff_after {b : LoopTree} (hm : m.Starts b) (m' : Machine) :
    m.HaltsIn m' ↔ m'.finished = true ∧ ∃ n, m' = m.after n :=
  haltsIn_iff_finished (step_after_ok hm) m'

/-- A run ends in one way at most. -/
theorem HaltsIn.unique {b : LoopTree} (hm : m.Starts b) {m₁ m₂ : Machine} (h₁ : m.HaltsIn m₁)
    (h₂ : m.HaltsIn m₂) : m₁ = m₂ := by
  obtain ⟨hf₁, n₁, rfl⟩ := (haltsIn_iff_after hm m₁).1 h₁
  obtain ⟨hf₂, n₂, rfl⟩ := (haltsIn_iff_after hm m₂).1 h₂
  rcases Nat.le_total n₁ n₂ with h | h
  · obtain ⟨k, rfl⟩ := Nat.exists_eq_add_of_le h
    rw [after_add, after_of_finished hf₁]
  · obtain ⟨k, rfl⟩ := Nat.exists_eq_add_of_le h
    rw [after_add, after_of_finished hf₂]

/-- **The machine halts in just the configurations in which the tree ends.** -/
theorem haltsIn_iff_run {b : LoopTree} (hm : m.Starts b) (t : Config) :
    (∃ m', m.HaltsIn m' ∧ m'.config = t) ↔ b.Run m.config t := by
  constructor
  · rintro ⟨m', hh, rfl⟩
    obtain ⟨hf, n, rfl⟩ := (haltsIn_iff_after hm m').1 hh
    obtain ⟨k, s, j, heq, hv⟩ := after_visits hm n
    rw [heq] at hf ⊢
    have hk : k = b.ops.length := by
      have := hv.le_length
      simp [finished, hm.program] at hf
      omega
    rw [hk] at hv
    exact (LoopTree.visits_ops_length _ _ _).1 hv
  · intro hrun
    obtain ⟨n, hn⟩ := exists_after_of_run hm.placed hm.pc hm.onTape hrun
    refine ⟨m.after n, (haltsIn_iff_after hm _).2 ⟨?_, n, rfl⟩, by rw [hn, config_moved]⟩
    rw [hn]; simp [finished, hm.program]

/-- Loading the text of a tree succeeds and puts the machine at its start. -/
theorem starts_load (size : ℕ) (hsize : 0 < size) {text : String} {b : LoopTree}
    (htext : TapeOp.program text = b.ops) (input : String) :
    ∃ m', (blank size).load text input = (.ok (), m') ∧ m'.Starts b ∧
      m'.config = ⟨Array.replicate size 0, 0, input.toList, #[]⟩ := by
  obtain ⟨t, hpair, hlink⟩ := pairUp_ops b
  refine ⟨{ blank size with program := b.ops.toArray, partners := t, input := input.toList }, ?_,
    ⟨rfl, hlink, rfl, ?_⟩, rfl⟩
  · simp [load, reset, htext, hpair, blank]
  · simpa [Config.OnTape, config, blank] using hsize

end Machine

end TapeCompiler
