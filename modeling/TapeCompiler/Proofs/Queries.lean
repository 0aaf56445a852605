import Mathlib.Tactic.Common
import TapeCompiler.Proofs.Stage

/-!
# What a consumer is answered

The consumer of a stage asks for the next item, for all that are left, or to throw away whatever is left. What it is
answered depends on what it has asked for before, and not on the queue: items are handed out once and in order, and
behind the last of them the end, which carries the failure of the producer, is told once.

* `Query`, `Answer`, `Stage.serve`: a query to a stage; `Stage.answers`: one query after the other.
* `Standing`: what a consumer has to expect; `Standing.Answers`: **the rules of answering**.
* `Answers.serve_eq`: a stage keeps to the rules, whatever the size of its queue.
* `Standing.Runs`: a consumer that has been answered some queries.
* `Runs.delivered_isPrefix`, `Runs.left_eq`: **items come once and in order**; `Runs.pulled`, `Runs.countP_raised`:
  **the failure comes behind all of them and once.**
-/

namespace TapeCompiler

/-- What a consumer can ask for. -/
inductive Query where
  /-- The next item. -/
  | next
  /-- All items that are left. -/
  | rest
  /-- Whatever is left is to be thrown away; whether a failure is to be raised. -/
  | drain (reraise : Bool)
  deriving DecidableEq, Repr, Inhabited

/-- What a query is answered. -/
inductive Answer (α ε : Type) where
  | next (result : Except (Halt ε) α)
  | rest (items : List α) (halt : Option (Halt ε))
  | drain (result : Except ε Unit)
  deriving DecidableEq, Repr

variable {α ε : Type}

namespace Answer

/-- The items that come with an answer. -/
def items : Answer α ε → List α
  | next (.ok a) => [a]
  | next (.error _) => []
  | rest as _ => as
  | drain _ => []

/-- The failure that a consumer is told of which asked for items. -/
def pulled? : Answer α ε → Option ε
  | next (.error (.failed e)) => some e
  | rest _ (some (.failed e)) => some e
  | _ => none

/-- The failure that a consumer is told of. -/
def raised? : Answer α ε → Option ε
  | drain (.error e) => some e
  | answer => answer.pulled?

end Answer

namespace Stage

/-- A stage answers a query. -/
def serve (s : Stage α ε) : Query → Answer α ε × Stage α ε
  | .next => (.next s.next.1, s.next.2)
  | .rest => (.rest s.rest.1 s.rest.2.1, s.rest.2.2)
  | .drain reraise => (.drain (s.drain reraise).1, (s.drain reraise).2)

/-- What a stage answers to queries, one after the other. -/
def answers (s : Stage α ε) : List Query → List (Answer α ε)
  | [] => []
  | r :: rs => (s.serve r).1 :: (s.serve r).2.answers rs

/-- A stage whose mark has been taken, and whether the consumer was told. -/
def closed (capacity : Option ℕ) (failure : Option ε) (told : Bool) : Stage α ε :=
  ⟨capacity, [], failure, true, [], true, told⟩

/-- How throwing away ends for a consumer that has not been told of the end. -/
def drainResult (reraise : Bool) : Option ε → Except ε Unit
  | some e => if reraise then .error e else .ok ()
  | none => .ok ()

theorem drainResult_eq_error_iff {reraise : Bool} {failure : Option ε} {e : ε} :
    drainResult reraise failure = .error e ↔ failure = some e ∧ reraise = true := by
  cases failure <;> cases reraise <;> simp [drainResult]

variable {capacity : Option ℕ} {failure : Option ε} (hcap : capacity ≠ some 0)

include hcap

theorem next_waiting_end :
    (waiting capacity ([] : List α) failure).next = (.error (haltOf failure), closed capacity failure true) := by
  unfold next
  rw [receive_waiting_nil hcap]
  cases failure <;> rfl

/-- All items that are left come at once. -/
theorem takeUpTo_waiting_end {n : ℕ} (items : List α) (hn : items.length < n) :
    (waiting capacity items failure).takeUpTo n = (items, some (haltOf failure), closed capacity failure true) := by
  induction items generalizing n with
  | nil =>
    rw [List.length_nil] at hn
    obtain ⟨n, rfl⟩ : ∃ k, n = k + 1 := ⟨n - 1, by omega⟩
    rw [takeUpTo, next_waiting_end hcap]
  | cons a items ih =>
    rw [List.length_cons] at hn
    obtain ⟨n, rfl⟩ : ∃ k, n = k + 1 := ⟨n - 1, by omega⟩
    rw [takeUpTo, next_waiting_cons hcap]
    simp only [ih (show items.length < n by omega)]

theorem discard_waiting (items : List α) :
    discard (items.length + 1) (waiting capacity items failure) =
      { waiting capacity ([] : List α) failure with complete := true } := by
  induction items with
  | nil =>
    rw [List.length_nil, discard, receive_waiting_nil hcap]
    rfl
  | cons a items ih =>
    rw [List.length_cons, discard, receive_waiting_cons hcap]
    exact ih

theorem drain_waiting (items : List α) (reraise : Bool) :
    (waiting capacity items failure).drain reraise = (drainResult reraise failure, closed capacity failure false) := by
  have hopen : (waiting capacity items failure).exhausted = false := rfl
  have hleft : (waiting capacity items failure).left = items.length + 1 := rfl
  rw [drain, hopen, hleft, discard_waiting hcap]
  cases failure <;> rfl

end Stage

/-! ## The standing of a consumer -/

/-- What a consumer has to expect. -/
inductive Standing (α : Type) where
  /-- It is to get some items, and then to be told of the end. -/
  | due (items : List α)
  /-- It has been told of the end. -/
  | told
  /-- It has thrown away what was left. -/
  | dropped
  deriving DecidableEq, Repr

namespace Standing

/-- How a query is answered, and the standing behind it. Only a consumer that has thrown away what was left must not
ask for items. -/
inductive Answers (failure : Option ε) : Standing α → Query → Answer α ε → Standing α → Prop
  | item (a : α) (items : List α) : Answers failure (due (a :: items)) .next (.next (.ok a)) (due items)
  | finish : Answers failure (due []) .next (.next (.error (Stage.haltOf failure))) told
  | rest (items : List α) :
      Answers failure (due items) .rest (.rest items (some (Stage.haltOf failure))) told
  | drop (items : List α) (reraise : Bool) :
      Answers failure (due items) (.drain reraise) (.drain (Stage.drainResult reraise failure)) dropped
  | toldNext : Answers failure told .next (.next (.error .ended)) told
  | toldRest : Answers failure told .rest (.rest [] (some .ended)) told
  | toldDrain (reraise : Bool) : Answers failure told (.drain reraise) (.drain (.ok ())) told
  | droppedDrain (reraise : Bool) : Answers failure dropped (.drain reraise) (.drain (.ok ())) dropped

/-- The items that are due. -/
def left : Standing α → List α
  | due items => items
  | told | dropped => []

/-- Whether the consumer has been told of the end. -/
def isTold : Standing α → Bool
  | told => true
  | due _ | dropped => false

/-- The consumer has been told of the end, or has thrown away what was left. -/
def Over (v : Standing α) : Prop :=
  v = told ∨ v = dropped

/-- A stage whose consumer has a standing. -/
def stage (capacity : Option ℕ) (failure : Option ε) : Standing α → Stage α ε
  | due items => .waiting capacity items failure
  | told => .closed capacity failure true
  | dropped => .closed capacity failure false

variable {failure : Option ε} {u v w : Standing α} {r : Query} {answer : Answer α ε}

theorem not_over_due (items : List α) : ¬ (due items).Over := by
  rintro (h | h) <;> cases h

/-- **A stage keeps to the rules of answering**, whatever the size of its queue. -/
theorem Answers.serve_eq {capacity : Option ℕ} (hcap : capacity ≠ some 0) (h : Answers failure u r answer v) :
    (u.stage capacity failure).serve r = (answer, v.stage capacity failure) := by
  cases h with
  | item a items =>
    rw [stage, Stage.serve, Stage.next_waiting_cons hcap]
    rfl
  | finish =>
    rw [stage, Stage.serve, Stage.next_waiting_end hcap]
    rfl
  | rest items =>
    have hleft : (Stage.waiting capacity items failure).left = items.length + 1 := rfl
    rw [stage, Stage.serve, Stage.rest, hleft, Stage.takeUpTo_waiting_end hcap items (by omega)]
    rfl
  | drop items reraise =>
    rw [stage, Stage.serve, Stage.drain_waiting hcap]
    rfl
  | toldNext | toldRest | toldDrain | droppedDrain => rfl

theorem Answers.unique (h : Answers failure u r answer v) (h' : Answers failure u r answer w) : v = w := by
  cases h <;> cases h' <;> rfl

/-- What was due has been delivered or is still due, or it is thrown away. -/
theorem Answers.left_eq (h : Answers failure u r answer v) :
    u.left = answer.items ++ v.left ∨ v = dropped ∧ answer.items = [] := by
  cases h with
  | item | finish | toldNext | toldRest | toldDrain => exact .inl rfl
  | rest items => exact .inl (List.append_nil items).symm
  | drop | droppedDrain => exact .inr ⟨rfl, rfl⟩

theorem Answers.over_of_over (h : Answers failure u r answer v) (hu : u.Over) : v.Over := by
  cases h with
  | item | finish | rest | drop => exact absurd hu (not_over_due _)
  | toldNext | toldRest | toldDrain | droppedDrain => exact hu

/-- Whoever is told of a failure had not been told of the end before. -/
theorem Answers.raised {e : ε} (h : Answers failure u r answer v) (he : answer.raised? = some e) :
    ¬ u.Over ∧ v.Over := by
  cases h with
  | item | toldNext | toldRest | toldDrain | droppedDrain => cases he
  | finish | rest => exact ⟨not_over_due _, .inl rfl⟩
  | drop => exact ⟨not_over_due _, .inr rfl⟩

/-- Whoever asks for items is told of a failure behind the last one only. -/
theorem Answers.pulled {e : ε} (h : Answers failure u r answer v) (he : answer.pulled? = some e) :
    failure = some e ∧ v = told := by
  cases h with
  | item | toldNext | toldRest | toldDrain | droppedDrain | drop => cases he
  | finish | rest =>
    cases failure with
    | none => cases he
    | some e' =>
      cases he
      exact ⟨rfl, rfl⟩

end Standing

/-! ## Many queries -/

/-- The items that came with answers. -/
def delivered (log : List (Query × Answer α ε)) : List α :=
  log.flatMap fun p => p.2.items

@[simp] theorem delivered_cons (p : Query × Answer α ε) (log : List (Query × Answer α ε)) :
    delivered (p :: log) = p.2.items ++ delivered log :=
  List.flatMap_cons

namespace Standing

/-- A consumer with one standing has been answered some queries, and has another standing then. -/
inductive Runs (failure : Option ε) : Standing α → List (Query × Answer α ε) → Standing α → Prop
  | nil (v : Standing α) : Runs failure v [] v
  | cons {u v w : Standing α} {r : Query} {answer : Answer α ε} {log : List (Query × Answer α ε)}
      (h : Answers failure u r answer v) (hlog : Runs failure v log w) :
      Runs failure u ((r, answer) :: log) w

variable {failure : Option ε} {u v w : Standing α} {r : Query} {answer : Answer α ε}
  {log front back : List (Query × Answer α ε)}

theorem runs_append : Runs failure u (front ++ back) w ↔ ∃ v, Runs failure u front v ∧ Runs failure v back w := by
  constructor
  · intro h
    induction front generalizing u with
    | nil => exact ⟨u, .nil u, h⟩
    | cons p front ih =>
      cases h with
      | cons hfirst hrest =>
        obtain ⟨v, hfront, hback⟩ := ih hrest
        exact ⟨v, .cons hfirst hfront, hback⟩
  · rintro ⟨v, hfront, hback⟩
    induction hfront with
    | nil => exact hback
    | cons hfirst _ ih => exact .cons hfirst (ih hback)

theorem runs_concat :
    Runs failure u (log ++ [(r, answer)]) w ↔ ∃ v, Runs failure u log v ∧ Answers failure v r answer w := by
  rw [runs_append]
  constructor
  · rintro ⟨v, hlog, hlast⟩
    cases hlast with
    | cons hanswer hnil =>
      cases hnil
      exact ⟨v, hlog, hanswer⟩
  · rintro ⟨v, hlog, hanswer⟩
    exact ⟨v, hlog, .cons hanswer (.nil w)⟩

theorem Runs.unique (h : Runs failure u log v) (h' : Runs failure u log w) : v = w := by
  induction h with
  | nil =>
    cases h'
    rfl
  | cons hfirst _ ih =>
    cases h' with
    | cons hfirst' hrest' =>
      obtain rfl := hfirst.unique hfirst'
      exact ih hrest'

/-- **A stage answers many queries by the rules**, whatever the size of its queue. -/
theorem Runs.answers_eq {capacity : Option ℕ} (hcap : capacity ≠ some 0) (h : Runs failure u log v) :
    (u.stage capacity failure).answers (log.map Prod.fst) = log.map Prod.snd := by
  induction h with
  | nil => rfl
  | cons hfirst _ ih => rw [List.map_cons, List.map_cons, Stage.answers, hfirst.serve_eq hcap, ih]

/-- Nothing comes behind what was thrown away. -/
theorem Runs.of_dropped (h : Runs failure u log v) (hu : u = dropped) : v = dropped ∧ delivered log = [] := by
  induction h with
  | nil => exact ⟨hu, rfl⟩
  | cons hfirst _ ih =>
    subst hu
    cases hfirst with
    | droppedDrain => exact ih rfl

/-- Only a query to throw away what is left does so. -/
theorem Runs.exists_drain (h : Runs failure u log v) (hu : u ≠ dropped) (hv : v = dropped) :
    ∃ reraise result, (Query.drain reraise, Answer.drain result) ∈ log := by
  induction h with
  | nil => exact absurd hv hu
  | cons hfirst _ ih =>
    cases hfirst with
    | item | finish | rest | toldNext | toldRest | toldDrain =>
      obtain ⟨reraise, result, hmem⟩ := ih nofun hv
      exact ⟨reraise, result, List.mem_cons_of_mem _ hmem⟩
    | drop => exact ⟨_, _, List.mem_cons_self⟩
    | droppedDrain => exact absurd rfl hu

/-- **Nothing is lost or comes twice**: what was due has been delivered or is still due, unless it was thrown away. -/
theorem Runs.left_eq (h : Runs failure u log v) (hv : v ≠ dropped) : u.left = delivered log ++ v.left := by
  induction h with
  | nil => rfl
  | cons hfirst hrest ih =>
    obtain hleft | ⟨rfl, -⟩ := hfirst.left_eq
    · rw [hleft, ih hv, delivered_cons, List.append_assoc]
    · exact absurd (hrest.of_dropped rfl).1 hv

/-- **Items are delivered in order.** -/
theorem Runs.delivered_isPrefix (h : Runs failure u log v) : delivered log <+: u.left := by
  induction h with
  | nil => exact List.nil_prefix
  | cons hfirst hrest ih =>
    rw [delivered_cons]
    obtain hleft | ⟨rfl, hnone⟩ := hfirst.left_eq
    · rw [hleft]
      exact (List.prefix_append_right_inj _).2 ih
    · rw [hnone, (hrest.of_dropped rfl).2]
      exact List.nil_prefix

theorem Runs.countP_raised_of_over (h : Runs failure u log v) (hu : u.Over) :
    log.countP (fun p => p.2.raised?.isSome) = 0 := by
  induction h with
  | nil => rfl
  | @cons _ _ _ _ answer _ hfirst _ ih =>
    rw [List.countP_cons, ih (hfirst.over_of_over hu)]
    cases he : answer.raised? with
    | none => rfl
    | some e => exact absurd hu (hfirst.raised he).1

/-- **A failure is told of at most once.** -/
theorem Runs.countP_raised (h : Runs failure u log v) : log.countP (fun p => p.2.raised?.isSome) ≤ 1 := by
  induction h with
  | nil => exact Nat.zero_le _
  | @cons _ _ _ _ answer _ hfirst hrest ih =>
    rw [List.countP_cons]
    cases he : answer.raised? with
    | none => exact ih
    | some e =>
      -- whoever has been told is told of nothing more
      rw [hrest.countP_raised_of_over (hfirst.raised he).2]
      exact Nat.le_refl _

/-- **A failure comes behind all items**, if the consumer is told of it because it asks for more. -/
theorem Runs.pulled {e : ε} (h : Runs failure u (front ++ (r, answer) :: back) v) (he : answer.pulled? = some e) :
    failure = some e ∧ delivered (front ++ [(r, answer)]) = u.left := by
  obtain ⟨w, hfront, hback⟩ := runs_append.1 h
  cases hback with
  | cons hfirst _ =>
    obtain ⟨hfailure, rfl⟩ := hfirst.pulled he
    have hthrough := runs_concat.2 ⟨w, hfront, hfirst⟩
    have hleft := hthrough.left_eq nofun
    rw [left, List.append_nil] at hleft
    exact ⟨hfailure, hleft.symm⟩

end Standing

end TapeCompiler
