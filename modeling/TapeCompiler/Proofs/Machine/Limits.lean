import Mathlib.Data.ENat.Lattice
import TapeCompiler.Proofs.Machine.Brackets

/-!
# Limits on runs

A limit counts all steps since the program was loaded, and it is looked at behind a step that did not end the
program. So a run is cut off exactly at its limit, a program that ends with its last step is not cut off at all, and
a machine that was cut off can go on as if nothing had happened.

* `Machine.run_eq`: a run step by step, with the limit looked at behind each.
* `Machine.stepsToEnd`: how many steps a program takes, which may be `⊤`.
* `Machine.steps_after`: a machine counts its steps until the program ends.
* `Machine.Call`, `Machine.CallsLeave`: steps and runs in any order, also such as are cut off.
* `Machine.CallsLeave.eq_after`: **whatever is called, the machine is where as many single steps lead.**
* `run_limit_exact`: **a run is cut off if and only if its program takes more steps than the limit, and it can be
  resumed.**
-/

namespace TapeCompiler

namespace Machine

variable {m m' : Machine} {limit : Int}

/-! ## Counting steps -/

theorem steps_execute (m : Machine) (op : TapeOp) : (m.execute op).2.steps = m.steps := by
  have hjump : m.jump.2.steps = m.steps := by
    unfold jump
    split <;> rfl
  cases op <;> simp only [execute]
  case right | left =>
    unfold shift
    split_ifs <;> rfl
  case increment | decrement | read =>
    unfold alter
    split_ifs <;> rfl
  case write => split <;> rfl
  case openLoop | closeLoop =>
    split
    · split_ifs
      all_goals first | exact hjump | rfl
    · rfl

/-- A step is counted unless the program has ended. -/
theorem steps_step (m : Machine) : m.step.2.steps = if m.finished then m.steps else m.steps + 1 := by
  by_cases hf : m.finished = true
  · rw [if_pos hf, step_of_finished (by simpa [finished] using hf)]
  · have hpc : m.pc < m.program.size := by simpa [finished] using hf
    rw [if_neg hf, step, Array.getElem?_eq_getElem hpc]
    exact steps_execute _ _

theorem finished_mono (hf : m.finished = true) (n : ℕ) : (m.after n).finished = true := by
  rwa [after_of_finished hf]

/-- How many steps a machine makes until its program ends; `⊤` if it never does. -/
noncomputable def stepsToEnd (m : Machine) : ℕ∞ :=
  ⨅ (n : ℕ) (_ : (m.after n).finished = true), (n : ℕ∞)

theorem stepsToEnd_le_iff (n : ℕ) : m.stepsToEnd ≤ n ↔ (m.after n).finished = true := by
  constructor
  · intro hle
    by_contra hf
    -- an end further on is at least one step further on
    have hlater : ((n + 1 : ℕ) : ℕ∞) ≤ m.stepsToEnd := by
      refine le_iInf₂ fun k hk => ?_
      by_contra hlt
      have hkn : k ≤ n := by
        have hlt' : k < n + 1 := by exact_mod_cast not_le.1 hlt
        omega
      obtain ⟨d, rfl⟩ := Nat.exists_eq_add_of_le hkn
      rw [after_add] at hf
      exact hf (finished_mono hk d)
    have habsurd : n + 1 ≤ n := by exact_mod_cast hlater.trans hle
    omega
  · exact fun hf => iInf₂_le n hf

theorem lt_stepsToEnd_iff (n : ℕ) : n < m.stepsToEnd ↔ (m.after n).finished = false := by
  rw [← not_le, stepsToEnd_le_iff, Bool.not_eq_true]

/-- **A machine counts its steps** until the program ends. -/
theorem steps_after (m : Machine) (n : ℕ) : ((m.after n).steps : ℕ∞) = m.steps + min (n : ℕ∞) m.stepsToEnd := by
  induction n with
  | zero => simp
  | succ n ih =>
    rw [after_succ, steps_step]
    by_cases hf : (m.after n).finished = true
    · have hend := (stepsToEnd_le_iff n).2 hf
      have hle : (n : ℕ∞) ≤ (n + 1 : ℕ) := by exact_mod_cast Nat.le_succ n
      rw [if_pos hf, ih, min_eq_right hend, min_eq_right (hend.trans hle)]
    · have hlt := (lt_stepsToEnd_iff n).2 (by simpa using hf)
      have hsucc : ((n + 1 : ℕ) : ℕ∞) ≤ m.stepsToEnd := by
        exact_mod_cast Order.add_one_le_of_lt hlt
      rw [if_neg hf, min_eq_left hsucc]
      rw [min_eq_left hlt.le] at ih
      push_cast
      rw [ih, add_assoc]

/-- From the start, a machine is where as many steps lead as it has counted. -/
theorem after_steps (hstart : m.steps = 0) (n : ℕ) : m.after (m.after n).steps = m.after n := by
  have hsteps := steps_after m n
  rw [hstart, Nat.cast_zero, zero_add] at hsteps
  rcases le_total (n : ℕ∞) m.stepsToEnd with hle | hend
  · rw [min_eq_left hle] at hsteps
    rw [show (m.after n).steps = n by exact_mod_cast hsteps]
  · -- all steps behind the end change nothing
    rw [min_eq_right hend] at hsteps
    have hf : (m.after (m.after n).steps).finished = true := (stepsToEnd_le_iff _).1 hsteps.ge
    have hle : (m.after n).steps ≤ n := by exact_mod_cast hsteps.trans_le hend
    obtain ⟨d, hd⟩ := Nat.exists_eq_add_of_le hle
    nth_rewrite 2 [hd]
    rw [after_add, after_of_finished hf]

/-! ## One run -/

/-- **A run step by step**: behind each step the run ends with the program, is cut off at the limit, or goes on. -/
theorem run_eq (m : Machine) (limit : Int) :
    m.run limit =
      match m.step with
      | (.error f, m') => m'.stop f
      | (.ok _, m') =>
        if m'.finished then (.ok (), m')
        else if limit ≤ m'.steps then m'.stop (.limitExceeded limit)
        else m'.run limit := by
  -- also a limit that has been reached allows one step
  obtain ⟨j, hj⟩ : ∃ j, max 1 (limit - m.steps).toNat = j + 1 := ⟨max 1 (limit - m.steps).toNat - 1, by omega⟩
  have hcount := steps_step m
  rw [run, hj, runFor]
  by_cases hf : m.finished = true
  · rw [if_pos hf, step_of_finished (by simpa [finished] using hf)]
    simp [hf]
  · rw [if_neg hf] at hcount ⊢
    rcases hstep : m.step with ⟨result, m'⟩
    rw [hstep] at hcount
    cases result with
    | error f => rfl
    | ok _ =>
      simp only at hcount ⊢
      by_cases hf' : m'.finished = true
      · rw [if_pos hf']
        cases j <;> simp [runFor, hf']
      · rw [if_neg hf']
        by_cases hlimit : limit ≤ m'.steps
        · obtain rfl : j = 0 := by omega
          rw [if_pos hlimit, runFor, if_neg hf']
        · rw [if_neg hlimit, run]
          congr 1
          omega

section

variable (hm : ∀ k, (m.after k).step.1 = .ok ())

include hm

/-- A run makes the steps that the limit leaves, and one at least. -/
theorem run_eq_after (limit : Int) :
    m.run limit =
      (if (m.after (max 1 (limit - m.steps).toNat)).finished then .ok () else .error (.limitExceeded limit),
        m.after (max 1 (limit - m.steps).toNat)) :=
  runFor_eq_after hm limit _

/-- A run from the start makes as many steps as its limit says, unless the program ends before. -/
theorem run_eq_after_limit (hstart : m.steps = 0) {limit : ℕ} (hlimit : 1 ≤ limit) :
    m.run limit = (if (m.after limit).finished then .ok () else .error (.limitExceeded limit), m.after limit) := by
  have hcount : max 1 ((limit : Int) - m.steps).toNat = limit := by
    rw [hstart]
    omega
  rw [run_eq_after hm, hcount]

/-- **A run is cut off exactly at its limit**, if the program takes more steps. -/
theorem run_of_lt_stepsToEnd (hstart : m.steps = 0) {limit : ℕ} (hlimit : 1 ≤ limit) (hlong : limit < m.stepsToEnd) :
    m.run limit = (.error (.limitExceeded limit), m.after limit) ∧ (m.after limit).steps = limit := by
  have hf := (lt_stepsToEnd_iff limit).1 hlong
  have hsteps := steps_after m limit
  rw [hstart, min_eq_left hlong.le, Nat.cast_zero, zero_add] at hsteps
  exact ⟨by rw [run_eq_after_limit hm hstart hlimit, hf]; rfl, by exact_mod_cast hsteps⟩

/-- **A run ends with the program**, if the limit leaves enough steps. -/
theorem run_of_stepsToEnd_le (hstart : m.steps = 0) {limit : ℕ} (hlimit : 1 ≤ limit)
    (hshort : m.stepsToEnd ≤ limit) :
    ∃ n : ℕ, m.stepsToEnd = n ∧ m.run limit = (.ok (), m.after n) ∧ (m.after n).finished = true ∧
      (m.after n).steps = n := by
  have hf := (stepsToEnd_le_iff limit).1 hshort
  have hsteps := steps_after m limit
  rw [hstart, min_eq_right hshort, Nat.cast_zero, zero_add] at hsteps
  refine ⟨(m.after limit).steps, hsteps.symm, ?_, ?_, ?_⟩
  · rw [run_eq_after_limit hm hstart hlimit, if_pos hf, after_steps hstart]
  · rwa [after_steps hstart]
  · rw [after_steps hstart]

end

/-! ## Runs in any order -/

/-- What one can do with a machine that has a program. -/
inductive Call where
  | step
  /-- Runs up to a limit, or without one. -/
  | run (limit : Option Int)
  deriving DecidableEq, Repr, Inhabited

/-- A call comes back, and the machine is then `m'`, also if the run was cut off. -/
def Call.Leaves (m : Machine) : Call → Machine → Prop
  | .step, m' => m' = m.step.2
  | .run (some limit), m' => m' = (m.run limit).2
  | .run none, m' => m.HaltsIn m'

/-- Calls come back one after the other, and the machine is then `m'`. -/
def CallsLeave (m : Machine) : List Call → Machine → Prop
  | [], m' => m' = m
  | c :: cs, m' => ∃ m₁, c.Leaves m m₁ ∧ m₁.CallsLeave cs m'

/-- **One call** makes some steps. -/
theorem Call.Leaves.exists_after {c : Call} (h : c.Leaves m m') (hm : ∀ k, (m.after k).step.1 = .ok ()) :
    ∃ n, m' = m.after n := by
  match c with
  | .step => exact ⟨1, h⟩
  | .run (some limit) => exact ⟨_, by rw [show m' = (m.run limit).2 from h, run_eq_after hm]⟩
  | .run none =>
    obtain ⟨-, hn⟩ := (haltsIn_iff_finished hm m').1 h
    exact hn

theorem CallsLeave.exists_after {cs : List Call} (h : m.CallsLeave cs m') (hm : ∀ k, (m.after k).step.1 = .ok ()) :
    ∃ n, m' = m.after n := by
  induction cs generalizing m with
  | nil => exact ⟨0, h⟩
  | cons c cs ih =>
    obtain ⟨m₁, hc, hcs⟩ := h
    obtain ⟨n, rfl⟩ := hc.exists_after hm
    obtain ⟨k, rfl⟩ := ih hcs fun k => by rw [← after_add]; exact hm _
    exact ⟨n + k, (after_add m n k).symm⟩

/-- **Whatever is called, the machine is where as many single steps lead** as it has counted. -/
theorem CallsLeave.eq_after {cs : List Call} (h : m.CallsLeave cs m') (hm : ∀ k, (m.after k).step.1 = .ok ())
    (hstart : m.steps = 0) : m' = m.after m'.steps := by
  obtain ⟨n, rfl⟩ := h.exists_after hm
  exact (after_steps hstart n).symm

/-- **A run that goes on** up to a limit that is not reached ends as if it had not been interrupted. -/
theorem run_resumed (hm : ∀ k, (m.after k).step.1 = .ok ()) (hstart : m.steps = 0) (hm' : m' = m.after m'.steps)
    (hlimit : m'.steps < limit) : m'.run limit = m.run limit := by
  have hok : ∀ k, (m'.after k).step.1 = .ok () := by
    intro k
    rw [hm', ← after_add]
    exact hm _
  have hafter : m'.after (max 1 (limit - m'.steps).toNat) = m.after (max 1 (limit - m.steps).toNat) := by
    nth_rewrite 1 [hm']
    rw [← after_add, hstart]
    congr 1
    omega
  rw [run_eq_after hok, run_eq_after hm, hafter]

/-- A run without a limit that goes on ends as if it had not been interrupted. -/
theorem haltsIn_resumed (hm : ∀ k, (m.after k).step.1 = .ok ()) {n : ℕ} (m'' : Machine) :
    (m.after n).HaltsIn m'' ↔ m.HaltsIn m'' := by
  have hok : ∀ k, ((m.after n).after k).step.1 = .ok () := by
    intro k
    rw [← after_add]
    exact hm _
  rw [haltsIn_iff_finished hok, haltsIn_iff_finished hm]
  refine and_congr_right fun hf => ⟨?_, ?_⟩
  · rintro ⟨k, rfl⟩
    exact ⟨n + k, (after_add m n k).symm⟩
  · rintro ⟨k, rfl⟩
    rcases Nat.le_total n k with hle | hle
    · obtain ⟨d, rfl⟩ := Nat.exists_eq_add_of_le hle
      exact ⟨d, after_add m n d⟩
    · obtain ⟨d, rfl⟩ := Nat.exists_eq_add_of_le hle
      exact ⟨0, by rw [after_zero, after_add, after_of_finished hf]⟩

/-- A program that was loaded is a tree, and the machine is at its start. -/
theorem exists_starts_of_load {text input : String} (hsize : 1 ≤ m.tape.size)
    (hload : m.load text input = (.ok (), m')) : m'.steps = 0 ∧ ∃ b, m'.Starts b := by
  have hpairs : (pairUp (TapeOp.program text)).1 = .ok () := congrArg Prod.fst hload
  obtain ⟨b, hb⟩ := exists_tree_of_balanced (pairUp_ok_iff.1 hpairs)
  obtain ⟨m₁, hm₁, hstarts, -⟩ := starts_load m.tape.size hsize hb.symm input
  have hreset : m.load text input = (blank m.tape.size).load text input := by
    simp [load, reset, blank]
  obtain rfl : m' = m₁ := by
    rw [hreset, hm₁] at hload
    exact (congrArg Prod.snd hload).symm
  refine ⟨?_, b, hstarts⟩
  rw [show m' = (m.load text input).2 from (congrArg Prod.snd hload).symm]
  rfl

end Machine

/-- **Limits are exact and runs are resumable.** Let a program be loaded on a tape with at least one cell. A run up to
a limit is refused if and only if the program takes more steps than the limit, for this reason only and with as many
steps made as the limit says; any other run ends the program, with all the steps that it takes, as a run without a
limit does. After any steps and runs the machine is where as many single steps lead as it has counted; a run that
goes on from there up to a limit beyond that number, or without a limit, ends as if it had begun at the start. -/
theorem run_limit_exact {m₀ m : Machine} {text input : String} (hsize : 1 ≤ m₀.tape.size)
    (hload : m₀.load text input = (.ok (), m)) :
    (∀ limit : ℕ, 1 ≤ limit →
      ((∃ f, (m.run limit).1 = .error f) ↔ limit < m.stepsToEnd) ∧
      (∀ f, (m.run limit).1 = .error f →
        f = .limitExceeded limit ∧ f.message = s!"Step limit exceeded ({limit})" ∧ (m.run limit).2.steps = limit) ∧
      ((m.run limit).1 = .ok () →
        (m.run limit).2.finished = true ∧ (m.run limit).2.steps = m.stepsToEnd ∧ m.HaltsIn (m.run limit).2)) ∧
    ∀ calls m', m.CallsLeave calls m' →
      m' = m.after m'.steps ∧ (∀ limit : Int, m'.steps < limit → m'.run limit = m.run limit) ∧
        ∀ m'', m'.HaltsIn m'' ↔ m.HaltsIn m'' := by
  obtain ⟨hstart, b, hstarts⟩ := Machine.exists_starts_of_load hsize hload
  have hok := Machine.step_after_ok hstarts
  refine ⟨?_, ?_⟩
  · intro limit hlimit
    rcases lt_or_ge (limit : ℕ∞) m.stepsToEnd with hlong | hshort
    · obtain ⟨hrun, hsteps⟩ := Machine.run_of_lt_stepsToEnd hok hstart hlimit hlong
      rw [hrun]
      refine ⟨⟨fun _ => hlong, fun _ => ⟨_, rfl⟩⟩, ?_, nofun⟩
      intro f hf
      cases hf
      exact ⟨rfl, rfl, hsteps⟩
    · obtain ⟨n, hn, hrun, hf, hsteps⟩ := Machine.run_of_stepsToEnd_le hok hstart hlimit hshort
      have hhalts := (Machine.haltsIn_iff_finished hok (m.after n)).2 ⟨hf, n, rfl⟩
      rw [hrun]
      refine ⟨⟨nofun, fun hlong => absurd hlong (not_lt.2 hshort)⟩, nofun, ?_⟩
      intro _
      exact ⟨hf, by rw [hsteps, hn], hhalts⟩
  · intro calls m' hcalls
    have hafter := hcalls.eq_after hok hstart
    refine ⟨hafter, fun limit hlimit => Machine.run_resumed hok hstart hafter hlimit, ?_⟩
    intro m''
    rw [hafter]
    exact Machine.haltsIn_resumed hok m''

/-- The program takes 32 steps: with 31 it is cut off, and it is cut off twice before it ends with its 32nd. -/
theorem run_limit_exact_countdown :
    1 ≤ (Machine.blank 2).tape.size ∧ ∃ m, (Machine.blank 2).load countdownText "\u0103" = (.ok (), m) ∧
      m.stepsToEnd = 32 ∧ (m.run 31).1 = .error (.limitExceeded 31) ∧ (m.run 31).2.steps = 31 ∧
      ((m.run 5).2.run 5).2.steps = 6 ∧ ((m.run 5).2.run 5).2.run 32 = m.run 32 ∧
      (m.run 32).2.outputText = "\x03\x02\x01" := by
  obtain ⟨m, hload⟩ : ∃ m, (Machine.blank 2).load countdownText "\u0103" = (.ok (), m) :=
    ⟨_, Prod.ext (by decide +kernel) rfl⟩
  have hm : m = ((Machine.blank 2).load countdownText "\u0103").2 := by rw [hload]
  have hruns : ((m.run 32).1, (m.run 32).2.steps, (m.run 32).2.outputText, (m.run 31).1, (m.run 31).2.steps,
      ((m.run 5).2.run 5).2.steps) =
        (.ok (), 32, "\x03\x02\x01", .error (.limitExceeded 31), 31, 6) := by
    rw [hm]
    decide +kernel
  simp only [Prod.mk.injEq] at hruns
  obtain ⟨hended, hall, houtput, hcut, hcount, htwice⟩ := hruns
  obtain ⟨hlimits, hcalls⟩ := run_limit_exact (by decide : 1 ≤ (Machine.blank 2).tape.size) hload
  obtain ⟨-, -, hends⟩ := hlimits 32 (by decide)
  obtain ⟨-, hsteps, -⟩ := hends hended
  -- two runs that are cut off, the second one behind a single step
  obtain ⟨-, hresumed, -⟩ := hcalls [.run (some 5), .run (some 5)] _ ⟨_, rfl, _, rfl, rfl⟩
  refine ⟨by decide, m, hload, ?_, hcut, hcount, htwice, hresumed 32 (by rw [htwice]; decide), houtput⟩
  rw [← hsteps]
  exact congrArg _ hall

end TapeCompiler
