import Mathlib.Tactic.Common
import TapeCompiler.Stream

/-!
# A stage hands on what its producer puts

The queue of a stage does not show in what its consumer gets.

* `takeUpTo_waiting`: a consumer gets the items in order, and behind them the end.
* `Stage.Holds`, `Holds.produce`, `Holds.take`: **the items and the mark keep their order**, whoever takes
  the next turn; `Holds.produce_of_take`: producer and consumer never wait for each other.
* `compile_eq_compileDirect`: **compiling in stages gives what compiling directly gives.**
-/

namespace TapeCompiler

namespace Stage

variable {α ε : Type}

/-- A stage whose queue is empty and whose producer has yet to put some items. -/
def waiting (capacity : Option ℕ) (items : List α) (failure : Option ε) : Stage α ε :=
  ⟨capacity, items, failure, false, [], false, false⟩

/-- What tells a consumer that there are no more items. -/
def haltOf : Option ε → Halt ε
  | some e => .failed e
  | none => .ended

variable {capacity : Option ℕ} (hcap : capacity ≠ some 0) (failure : Option ε)

include hcap

theorem full_waiting (items : List α) : (waiting capacity items failure).full = false := by
  unfold full waiting
  cases capacity with
  | none => rfl
  | some n => simpa [Nat.pos_iff_ne_zero] using hcap

theorem receive_waiting_cons (a : α) (items : List α) :
    (waiting capacity (a :: items) failure).receive =
      some (.item a, waiting capacity items failure) := by
  unfold receive produce?
  rw [full_waiting hcap]
  rfl

theorem receive_waiting_nil :
    (waiting capacity ([] : List α) failure).receive =
      some (.done, { waiting capacity [] failure with complete := true }) := by
  unfold receive produce?
  rw [full_waiting hcap]
  rfl

theorem next_waiting_cons (a : α) (items : List α) :
    (waiting capacity (a :: items) failure).next = (.ok a, waiting capacity items failure) := by
  unfold next
  rw [receive_waiting_cons hcap]
  rfl

theorem next_waiting_nil :
    ∃ s, (waiting capacity ([] : List α) failure).next = (.error (haltOf failure), s) := by
  unfold next
  rw [receive_waiting_nil hcap]
  cases failure <;> exact ⟨_, rfl⟩

/-- **A consumer gets the items in order**, and is told why there are no more. -/
theorem takeUpTo_waiting (n : ℕ) (items : List α) :
    ∃ s, (waiting capacity items failure).takeUpTo n =
      (items.take n, if n ≤ items.length then none else some (haltOf failure), s) := by
  induction n generalizing items with
  | zero => exact ⟨_, by simp [takeUpTo]; rfl⟩
  | succ n ih =>
    cases items with
    | nil =>
      obtain ⟨s, hs⟩ := next_waiting_nil (α := α) hcap failure
      exact ⟨s, by simp [takeUpTo, hs]⟩
    | cons a items =>
      obtain ⟨s, hs⟩ := ih items
      exact ⟨s, by simp [takeUpTo, next_waiting_cons hcap failure a items, hs]⟩

omit hcap

theorem new_eq_waiting (size : Int) (items : List α) :
    ∃ capacity, capacity ≠ some 0 ∧ new size items failure = waiting capacity items failure := by
  refine ⟨_, ?_, rfl⟩
  split
  · rw [ne_eq, Option.some.injEq]; omega
  · simp

theorem takeUpTo_new (size : Int) (n : ℕ) (items : List α) :
    ∃ s, (new size items failure).takeUpTo n =
      (items.take n, if n ≤ items.length then none else some (haltOf failure), s) := by
  obtain ⟨capacity, hcap, hnew⟩ := new_eq_waiting failure size items
  rw [hnew]
  exact takeUpTo_waiting hcap failure n items

theorem left_new (size : Int) (items : List α) : (new size items failure).left = items.length + 1 := rfl

theorem rest_new (size : Int) (items : List α) : (new size items failure).rest.1 = items := by
  unfold rest
  obtain ⟨s, hs⟩ := takeUpTo_new failure size ((new size items failure).left + 1) items
  rw [hs, left_new]
  exact List.take_of_length_le (by omega)

/-! ## Any order of turns -/

section

variable {s s' : Stage α ε} {items : List α}

/-- The consumer has yet to get some items and then the mark: they are in the queue, or still to be put
there. -/
structure Holds (s : Stage α ε) (items : List α) : Prop where
  queue : ∃ queued, s.queue = queued.map .item ++ (if s.complete then [.done] else []) ∧
    items = queued ++ s.pending
  pending : s.complete = true → s.pending = []
  unfinished : s.exhausted = false
  capacity : s.capacity ≠ some 0

/-- The mark has been put and taken, so nothing is left to do. -/
structure Emptied (s : Stage α ε) : Prop where
  exhausted : s.exhausted = true
  complete : s.complete = true
  pending : s.pending = []
  queue : s.queue = []

theorem holds_new (size : Int) (items : List α) : (new size items failure).Holds items := by
  obtain ⟨capacity, hcap, hnew⟩ := new_eq_waiting failure size items
  rw [hnew]
  exact ⟨⟨[], rfl, rfl⟩, Bool.noConfusion, rfl, hcap⟩

/-- What a producer does that need not wait. -/
theorem produce_eq_some (h : s.produce? = some s') :
    (∃ a as, s.pending = a :: as ∧ s' = { s with pending := as, queue := s.queue ++ [.item a] }) ∨
    (s.pending = [] ∧ s.complete = false ∧
      s' = { s with complete := true, queue := s.queue ++ [.done] }) := by
  unfold produce? at h
  split at h
  · cases h
  · split at h
    · rename_i a as hp
      exact .inl ⟨a, as, hp, (Option.some.inj h).symm⟩
    · rename_i hp
      split at h
      · cases h
      · rename_i hc
        exact .inr ⟨hp, by simpa using hc, (Option.some.inj h).symm⟩

/-- **A turn of the producer** changes nothing for the consumer. -/
theorem Holds.produce (h : s.Holds items) (hp : s.produce? = some s') :
    s'.Holds items ∧ s'.failure = s.failure := by
  obtain ⟨queued, hq, hitems⟩ := h.queue
  obtain ⟨a, as, hpend, rfl⟩ | ⟨hpend, hc, rfl⟩ := produce_eq_some hp
  · have hc : s.complete = false := by
      cases hc : s.complete with
      | false => rfl
      | true => rw [h.pending hc] at hpend; cases hpend
    refine ⟨⟨⟨queued ++ [a], ?_, ?_⟩, fun hcomplete => ?_, h.unfinished, h.capacity⟩, rfl⟩
    · simp [hq, hc]
    · simp [hitems, hpend]
    · rw [hc] at hcomplete; cases hcomplete
  · refine ⟨⟨⟨queued, ?_, ?_⟩, fun _ => hpend, h.unfinished, h.capacity⟩, rfl⟩
    · simp [hq, hc]
    · simp [hitems, hpend]

/-- **A turn of the consumer** brings the next item, or the mark behind the last one. -/
theorem Holds.take {e : Entry α} (h : s.Holds items) (ht : s.take? = some (e, s')) :
    (∃ a rest, e = .item a ∧ items = a :: rest ∧ s'.Holds rest ∧ s'.failure = s.failure) ∨
    (e = .done ∧ items = [] ∧ ({ s' with exhausted := true } : Stage α ε).Emptied ∧
      s'.failed? = s.failure) := by
  obtain ⟨queued, hq, hitems⟩ := h.queue
  unfold take? at ht
  cases queued with
  | cons a queued =>
    simp only [hq, List.map_cons, List.cons_append, Option.some.injEq, Prod.mk.injEq] at ht
    obtain ⟨rfl, rfl⟩ := ht
    exact .inl ⟨a, _, rfl, hitems, ⟨⟨queued, rfl, rfl⟩, h.pending, h.unfinished, h.capacity⟩, rfl⟩
  | nil =>
    cases hc : s.complete with
    | false => simp [hq, hc] at ht
    | true =>
      simp only [hq, hc, List.map_nil, List.nil_append, if_true, Option.some.injEq, Prod.mk.injEq] at ht
      obtain ⟨rfl, rfl⟩ := ht
      have hpend := h.pending hc
      exact .inr ⟨rfl, by simp [hitems, hpend], ⟨rfl, rfl, hpend, rfl⟩, by simp [failed?]⟩

/-- **Producer and consumer never wait for each other.** -/
theorem Holds.produce_of_take (h : s.Holds items) (ht : s.take? = none) : ∃ s', s.produce? = some s' := by
  obtain ⟨queued, hq, -⟩ := h.queue
  have hempty : s.queue = [] := by
    unfold take? at ht
    cases hs : s.queue with
    | nil => rfl
    | cons e es => simp [hs] at ht
  have hcomplete : s.complete = false := by
    cases hc : s.complete with
    | false => rfl
    | true => simp [hempty, hc] at hq
  have hfull : s.full = false := by
    unfold full
    have hcap := h.capacity
    cases hs : s.capacity with
    | none => rfl
    | some n => simp [hempty]; rintro rfl; exact hcap hs
  unfold produce?
  rw [hfull]
  cases s.pending <;> simp [hcomplete]

theorem Emptied.not_produce (h : s.Emptied) : s.produce? ≠ some s' := by
  unfold produce?
  rw [h.pending, h.complete]
  simp

/-- How many turns producer and consumer can still take. -/
def work (s : Stage α ε) : ℕ :=
  2 * s.pending.length + s.queue.length + if s.complete then 0 else 2

theorem work_produce (h : s.produce? = some s') : s'.work + 1 = s.work := by
  obtain ⟨a, as, hp, rfl⟩ | ⟨hp, hc, rfl⟩ := produce_eq_some h
  · simp only [work, hp, List.length_append, List.length_cons, List.length_nil]
    omega
  · simp [work, hc]
    omega

theorem work_take {e : Entry α} (h : s.take? = some (e, s')) : s'.work + 1 = s.work := by
  unfold take? at h
  cases hq : s.queue with
  | nil => simp [hq] at h
  | cons e es =>
    simp only [hq, Option.some.injEq, Prod.mk.injEq] at h
    obtain ⟨rfl, rfl⟩ := h
    simp only [work, hq, List.length_cons]
    omega

end

end Stage

/-- What opens a stream. -/
theorem openStream_eq (source : String) (options : Options) :
    openStream source options =
      match parse source (scan source) with
      | .error f => .error (.parsing f)
      | .ok program =>
        let g := generate program options.tapeSize options.comments
        .ok (.new options.queueSize g.1 g.2) := by
  cases h : parse source (scan source) with
  | error f => simp only [openStream, Stage.rest_new, h]
  | ok program => simp only [openStream, Stage.rest_new, h]

/-- What the consumer of a stream gets. -/
theorem stream_eq (source : String) (options : Options) (wanted : Option ℕ) :
    stream source options wanted =
      if wanted = some 0 then ⟨[], true, none⟩
      else
        match parse source (scan source) with
        | .error f => ⟨[], false, some (.parsing f)⟩
        | .ok program =>
          let g := generate program options.tapeSize options.comments
          if wanted.any (· ≤ g.1.length) then ⟨g.1.take (wanted.getD 0), true, none⟩
          else ⟨g.1, false, g.2.map .generation⟩ := by
  unfold stream
  rw [openStream_eq]
  split
  · rfl
  · cases parse source (scan source) with
    | error f => rfl
    | ok program =>
      simp only
      generalize generate program options.tapeSize options.comments = g
      obtain ⟨instructions, fault⟩ := g
      cases wanted with
      | none =>
        obtain ⟨s, hs⟩ := Stage.takeUpTo_new fault options.queueSize (instructions.length + 2) instructions
        rw [List.take_of_length_le (by omega), if_neg (by omega)] at hs
        simp only [Option.getD_none, Stage.left_new, hs]
        cases fault <;> rfl
      | some n =>
        obtain ⟨s, hs⟩ := Stage.takeUpTo_new fault options.queueSize n instructions
        simp only [Option.getD_some, hs, Option.any_some, decide_eq_true_eq]
        by_cases hn : n ≤ instructions.length
        · simp only [if_pos hn]
        · simp only [if_neg hn]
          rw [List.take_of_length_le (by omega)]
          cases fault <;> rfl

/-- **Compiling in stages gives what compiling directly gives.** -/
theorem compile_eq_compileDirect (source : String) (options : Options) :
    compile source options =
      (compileDirect source options.tapeSize options.comments).map Compiled.mk := by
  unfold compile
  split
  · rw [stream_eq, compileDirect]
    cases parse source (scan source) with
    | error f => rfl
    | ok program =>
      simp only
      generalize generate program options.tapeSize options.comments = g
      obtain ⟨instructions, fault⟩ := g
      cases fault <;> rfl
  · rfl

end TapeCompiler
