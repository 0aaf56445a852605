import Mathlib.Logic.Relation
import TapeCompiler.Proofs.Queries

/-!
# A stage between two threads

The producer of a stage runs in a thread of its own. It puts its items into the queue, notes how it failed if it did,
puts its mark and ends. The consumer asks one query after the other: it takes entries out of the queue, and where it
comes upon the mark it waits for the thread of the producer to end before it looks for a failure. In which order the
two take their turns is open, and each of them may have to wait for the other.

* `Exchange.turn?`: what each side does next, unless it waits; `Exchange.ask?`: the consumer asks its next query.
* `Exchange.Reaches`: the states that some order of turns and queries leads to.
* `Exchange.Sound`: **the answers so far keep to the rules of answering**, and what is left in the queue fits them;
  `Sound.turn`, `Sound.ask`: every turn and every query keeps that.
* `turns_log`: a query gets one answer; `Sound.progress`, `rank_run`: it gets it after boundedly many turns.
* `exchange_faithful`: **items come once and in order, and a failure once and behind them**, whatever the order of turns.
-/

namespace TapeCompiler

variable {α ε : Type}

/-- What the thread of a consumer is about. -/
inductive Errand (α : Type) where
  /-- Nothing has been asked for. -/
  | idle
  /-- It takes entries out of the queue to answer a query, and has kept some items for the answer. -/
  | taking (query : Query) (got : List α)
  /-- It waits for the producer to end; whether it has taken the mark for this query. -/
  | joining (query : Query) (got : List α) (fresh : Bool)
  deriving DecidableEq, Repr, Inhabited

namespace Errand

/-- The query that waits for its answer. -/
def query? : Errand α → Option Query
  | idle => none
  | taking q _ | joining q _ _ => some q

/-- The items that are kept for the answer. -/
def got : Errand α → List α
  | idle => []
  | taking _ as | joining _ as _ => as

theorem eq_idle {errand : Errand α} (h : errand.query? = none) : errand = idle := by
  cases errand with
  | idle => rfl
  | taking | joining => cases h

end Errand

/-- The two threads of a stage and what has been asked and answered. -/
structure Exchange (α ε : Type) where
  stage : Stage α ε
  /-- The failure that the producer has noted for the consumer. -/
  noted : Option ε
  /-- Whether the producer has only its mark left to put. -/
  settled : Bool
  /-- Whether the thread of the producer has not ended. -/
  alive : Bool
  errand : Errand α
  log : List (Query × Answer α ε)
  deriving DecidableEq, Repr

/-- Who can take a turn. -/
inductive Side where
  | producer
  | consumer
  deriving DecidableEq, Repr, Inhabited

namespace Exchange

/-- The producer has been started, and nothing has been asked for. -/
def start (size : Int) (items : List α) (failure : Option ε) : Exchange α ε :=
  ⟨.new size items failure, none, false, true, .idle, []⟩

/-- The producer puts its next item; behind the last one it notes how it failed, puts its mark and ends. -/
def producerTurn? (x : Exchange α ε) : Option (Exchange α ε) :=
  if x.alive then
    if x.stage.pending.isEmpty && !x.settled then
      some { x with settled := true, noted := x.stage.failure }
    else if x.stage.complete then some { x with alive := false }
    else x.stage.produce?.map fun s => { x with stage := s }
  else none

/-- A query gets its answer. -/
def reply (x : Exchange α ε) (q : Query) (answer : Answer α ε) : Exchange α ε :=
  { x with errand := .idle, log := x.log ++ [(q, answer)] }

/-- The consumer has taken an entry out of the queue: an item is handed on, kept or thrown away, and behind the mark
nothing more is taken. -/
def taken (x : Exchange α ε) (got : List α) (s : Stage α ε) : Query → Entry α → Exchange α ε
  | q, .done => { x with stage := { s with exhausted := true }, errand := .joining q got true }
  | .next, .item a => reply { x with stage := s } .next (.next (.ok a))
  | .rest, .item a => { x with stage := s, errand := .taking .rest (got ++ [a]) }
  | .drain reraise, .item _ => { x with stage := s, errand := .taking (.drain reraise) got }

/-- The producer has ended, and the consumer looks for a failure. -/
def joined (x : Exchange α ε) (got : List α) (fresh : Bool) : Query → Exchange α ε
  | .next => reply { x with stage := { x.stage with told := true } } .next (.next (.error (Stage.haltOf x.noted)))
  | .rest => reply { x with stage := { x.stage with told := true } } .rest (.rest got (some (Stage.haltOf x.noted)))
  | .drain reraise =>
    x.reply (.drain reraise) (.drain (if fresh then Stage.drainResult reraise x.noted else .ok ()))

/-- The consumer takes an entry, or waits for the producer to end. -/
def consumerTurn? (x : Exchange α ε) : Option (Exchange α ε) :=
  match x.errand with
  | .idle => none
  | .taking q got => x.stage.take?.map fun r => x.taken got r.2 q r.1
  | .joining q got fresh => if x.alive then none else some (x.joined got fresh q)

/-- What a side does next, unless it waits or has nothing to do. -/
def turn? : Side → Exchange α ε → Option (Exchange α ε)
  | .producer, x => x.producerTurn?
  | .consumer, x => x.consumerTurn?

/-- The consumer asks its next query. A consumer that was told of the end is answered at once, and one that has thrown
away what was left must not ask for items. -/
def ask? (x : Exchange α ε) (q : Query) : Option (Exchange α ε) :=
  match x.errand, q with
  | .idle, .next =>
    if x.stage.told then some (x.reply .next (.next (.error .ended)))
    else if x.stage.exhausted then none else some { x with errand := .taking .next [] }
  | .idle, .rest =>
    if x.stage.told then some (x.reply .rest (.rest [] (some .ended)))
    else if x.stage.exhausted then none else some { x with errand := .taking .rest [] }
  | .idle, .drain reraise =>
    if x.stage.exhausted then some { x with errand := .joining (.drain reraise) [] false }
    else some { x with errand := .taking (.drain reraise) [] }
  | .taking _ _, _ | .joining _ _ _, _ => none

/-- Some side takes a turn. -/
def Turn (x y : Exchange α ε) : Prop :=
  ∃ side, turn? side x = some y

/-- Turns one after the other, by whichever side. -/
def Turns : Exchange α ε → Exchange α ε → Prop :=
  Relation.ReflTransGen Turn

/-- Some order of turns and queries leads to a state. -/
def Reaches (size : Int) (items : List α) (failure : Option ε) : Exchange α ε → Prop :=
  Relation.ReflTransGen (fun x y => Turn x y ∨ ∃ q, x.ask? q = some y) (start size items failure)

/-- What the consumer has received. -/
def received (x : Exchange α ε) : List α :=
  delivered x.log ++ x.errand.got

end Exchange

namespace Stage

variable {s s' : Stage α ε} {items : List α}

/-- The items that have not been taken. -/
def inFlight (s : Stage α ε) : List α :=
  s.queue.filterMap (fun | .item a => some a | .done => none) ++ s.pending

theorem Holds.inFlight_eq (h : s.Holds items) : s.inFlight = items := by
  obtain ⟨queued, hqueue, rfl⟩ := h.queue
  have hitems : (queued.map Entry.item).filterMap (fun | .item a => some a | .done => none) = queued := by
    rw [List.filterMap_map]
    exact List.filterMap_some
  rw [inFlight, hqueue, List.filterMap_append, hitems]
  cases s.complete <;> simp

theorem take_eq_some {e : Entry α} (h : s.take? = some (e, s')) : ∃ queue, s' = { s with queue } := by
  unfold take? at h
  cases hq : s.queue with
  | nil =>
    rw [hq] at h
    cases h
  | cons first queue =>
    rw [hq] at h
    obtain ⟨-, rfl⟩ := Prod.mk.inj (Option.some.inj h)
    exact ⟨queue, rfl⟩

theorem Emptied.told (h : s.Emptied) : ({ s with told := true } : Stage α ε).Emptied :=
  ⟨h.exhausted, h.complete, h.pending, h.queue⟩

end Stage

namespace Exchange

variable {size : Int} {items : List α} {failure : Option ε} {x y z : Exchange α ε} {q : Query} {got : List α}
  {fresh : Bool}

/-! ## What a turn does -/

theorem producerTurn_cases (h : x.producerTurn? = some y) :
    x.alive = true ∧
    ((x.settled = false ∧ y = { x with settled := true, noted := x.stage.failure }) ∨
      (x.stage.complete = true ∧ y = { x with alive := false }) ∨
      ∃ s, x.stage.produce? = some s ∧ (x.stage.pending = [] → x.settled = true) ∧ x.stage.complete = false ∧
        y = { x with stage := s }) := by
  unfold producerTurn? at h
  split at h
  · rename_i halive
    refine ⟨halive, ?_⟩
    split at h
    · rename_i hidle
      rw [Bool.and_eq_true, Bool.not_eq_true'] at hidle
      exact .inl ⟨hidle.2, (Option.some.inj h).symm⟩
    · rename_i hidle
      split at h
      · rename_i hcomplete
        exact .inr (.inl ⟨hcomplete, (Option.some.inj h).symm⟩)
      · rename_i hcomplete
        obtain ⟨s, hproduce, rfl⟩ := Option.map_eq_some_iff.1 h
        refine .inr (.inr ⟨s, hproduce, fun hpending => ?_, Bool.not_eq_true _ ▸ hcomplete, rfl⟩)
        simpa [hpending] using hidle
  · cases h

theorem consumerTurn_cases (h : x.consumerTurn? = some y) :
    (∃ q got e s, x.errand = .taking q got ∧ x.stage.take? = some (e, s) ∧ y = x.taken got s q e) ∨
    (∃ q got fresh, x.errand = .joining q got fresh ∧ x.alive = false ∧ y = x.joined got fresh q) := by
  unfold consumerTurn? at h
  split at h
  · cases h
  · rename_i q got he
    obtain ⟨⟨e, s⟩, htake, rfl⟩ := Option.map_eq_some_iff.1 h
    exact .inl ⟨q, got, e, s, he, htake, rfl⟩
  · rename_i q got fresh he
    split at h
    · cases h
    · rename_i halive
      exact .inr ⟨q, got, fresh, he, Bool.not_eq_true _ ▸ halive, (Option.some.inj h).symm⟩

/-- A query gets its answer, or it goes on waiting for it. -/
theorem turn_log (h : Turn x y) :
    y.log = x.log ∧ y.errand.query? = x.errand.query? ∨
    y.errand = .idle ∧ ∃ q answer, x.errand.query? = some q ∧ y.log = x.log ++ [(q, answer)] := by
  obtain ⟨side, h⟩ := h
  cases side with
  | producer =>
    obtain ⟨-, ⟨-, rfl⟩ | ⟨-, rfl⟩ | ⟨s, -, -, -, rfl⟩⟩ := producerTurn_cases h
    all_goals exact .inl ⟨rfl, rfl⟩
  | consumer =>
    obtain ⟨q, got, e, s, he, -, rfl⟩ | ⟨q, got, fresh, he, -, rfl⟩ := consumerTurn_cases h
    · rw [he]
      cases e with
      | done => exact .inl ⟨rfl, rfl⟩
      | item a =>
        cases q with
        | next => exact .inr ⟨rfl, _, _, rfl, rfl⟩
        | rest | drain => exact .inl ⟨rfl, rfl⟩
    · rw [he]
      cases q with
      | next | rest | drain => exact .inr ⟨rfl, _, _, rfl, rfl⟩

/-- **A query gets one answer**, and nothing else is answered before. -/
theorem turns_log (h : Turns x y) (hq : x.errand.query? = some q) :
    y.log = x.log ∧ y.errand.query? = some q ∨ y.errand = .idle ∧ ∃ answer, y.log = x.log ++ [(q, answer)] := by
  induction h with
  | refl => exact .inl ⟨rfl, hq⟩
  | @tail y z _ hturn ih =>
    obtain ⟨hlog, hquery⟩ | ⟨hidle, answer, hlog⟩ := ih
    · obtain ⟨hlog', hquery'⟩ | ⟨hidle, q', answer, hquery', hlog'⟩ := turn_log hturn
      · exact .inl ⟨hlog'.trans hlog, hquery'.trans hquery⟩
      · rw [hquery] at hquery'
        obtain rfl := Option.some.inj hquery'
        exact .inr ⟨hidle, answer, by rw [hlog', hlog]⟩
    · -- behind the answer nothing is asked for, so only the producer can take a turn
      obtain ⟨hlog', hquery'⟩ | ⟨-, q', _, hquery', -⟩ := turn_log hturn
      · rw [hidle] at hquery'
        exact .inr ⟨Errand.eq_idle hquery', answer, hlog'.trans hlog⟩
      · rw [hidle] at hquery'
        cases hquery'

/-! ## No order of turns goes on for ever -/

/-- The turns that an errand takes besides those that take an entry. -/
def errandCost : Errand α → ℕ
  | .idle => 0
  | .taking _ _ => 2
  | .joining _ _ _ => 1

/-- A bound of the turns that can be taken before the next query. -/
def rank (x : Exchange α ε) : ℕ :=
  x.stage.work + (!x.settled).toNat + x.alive.toNat + errandCost x.errand

theorem rank_turn (h : Turn x y) : y.rank < x.rank := by
  obtain ⟨side, h⟩ := h
  cases side with
  | producer =>
    obtain ⟨halive, ⟨hsettled, rfl⟩ | ⟨-, rfl⟩ | ⟨s, hproduce, -, -, rfl⟩⟩ := producerTurn_cases h
    · simp only [rank, hsettled, Bool.not_false, Bool.not_true, Bool.toNat_true, Bool.toNat_false]
      omega
    · simp only [rank, halive, Bool.toNat_true, Bool.toNat_false]
      omega
    · have hwork := Stage.work_produce hproduce
      simp only [rank]
      omega
  | consumer =>
    obtain ⟨q, got, e, s, he, htake, rfl⟩ | ⟨q, got, fresh, he, -, rfl⟩ := consumerTurn_cases h
    · have hwork := Stage.work_take htake
      have hmark : ({ s with exhausted := true } : Stage α ε).work = s.work := rfl
      cases e with
      | done =>
        simp only [rank, taken, he, errandCost, hmark]
        omega
      | item a =>
        cases q with
        | next | rest | drain =>
          simp only [rank, taken, reply, he, errandCost]
          omega
    · have htold : ({ x.stage with told := true } : Stage α ε).work = x.stage.work := rfl
      cases q with
      | next | rest | drain =>
        simp only [rank, joined, reply, he, errandCost, htold]
        omega

/-- **Every order of turns comes to an end**, after no more turns than the rank of the start. -/
theorem rank_run {run : ℕ → Exchange α ε} {n : ℕ} (hrun : run 0 = x) (hturns : ∀ i < n, Turn (run i) (run (i + 1))) :
    (run n).rank + n ≤ x.rank := by
  induction n with
  | zero =>
    rw [hrun]
    omega
  | succ n ih =>
    have hbefore := ih fun i hi => hturns i (by omega)
    have hless := rank_turn (hturns n (by omega))
    omega

/-! ## The answers keep to the rules -/

/-- How far the producer has come: it has noted its failure before it puts its mark, and ends behind the mark. -/
structure Worked (failure noted : Option ε) (complete settled alive : Bool) : Prop where
  noted_eq : noted = if settled then failure else none
  settled_of_complete : complete = true → settled = true
  complete_of_ended : alive = false → complete = true

theorem Worked.noted_of_ended {noted : Option ε} {complete settled alive : Bool}
    (h : Worked failure noted complete settled alive) (halive : alive = false) : noted = failure := by
  rw [h.noted_eq, h.settled_of_complete (h.complete_of_ended halive), if_pos rfl]

/-- What the stage of a consumer holds, by the standing of the consumer and its errand. -/
inductive Serves (s : Stage α ε) (alive : Bool) : Standing α → Errand α → Prop
  | due {rest} (h : s.Holds rest) : Serves s alive (.due rest) .idle
  | past {v} (hv : v.Over) (h : s.Emptied) (halive : alive = false) : Serves s alive v .idle
  | next {rest} (h : s.Holds rest) : Serves s alive (.due rest) (.taking .next [])
  | collect {kept rest} (h : s.Holds rest) : Serves s alive (.due (kept ++ rest)) (.taking .rest kept)
  | drop {left rest reraise} (h : s.Holds rest) : Serves s alive (.due left) (.taking (.drain reraise) [])
  | nextEnd (h : s.Emptied) : Serves s alive (.due []) (.joining .next [] true)
  | collectEnd {kept} (h : s.Emptied) : Serves s alive (.due kept) (.joining .rest kept true)
  | dropEnd {left reraise} (h : s.Emptied) : Serves s alive (.due left) (.joining (.drain reraise) [] true)
  | pastEnd {v reraise} (hv : v.Over) (h : s.Emptied) (halive : alive = false) :
      Serves s alive v (.joining (.drain reraise) [] false)

/-- The answers so far keep to the rules, and have led to a standing that fits the stage. -/
structure Sound (items : List α) (failure : Option ε) (x : Exchange α ε) (v : Standing α) : Prop where
  runs : Standing.Runs failure (.due items) x.log v
  serves : Serves x.stage x.alive v x.errand
  told_eq : x.stage.told = v.isTold
  failure_eq : x.stage.failure = failure
  worked : Worked failure x.noted x.stage.complete x.settled x.alive

variable {v : Standing α}

theorem sound_start (size : Int) (items : List α) (failure : Option ε) :
    Sound items failure (start size items failure) (.due items) where
  runs := .nil _
  serves := .due (Stage.holds_new failure size items)
  told_eq := rfl
  failure_eq := rfl
  worked := ⟨rfl, nofun, nofun⟩

theorem Serves.produce {s s' : Stage α ε} {alive : Bool} {errand : Errand α} (h : Serves s alive v errand)
    (hp : s.produce? = some s') : Serves s' alive v errand := by
  cases h with
  | due h => exact .due (h.produce hp).1
  | next h => exact .next (h.produce hp).1
  | collect h => exact .collect (h.produce hp).1
  | drop h => exact .drop (h.produce hp).1
  | past _ h | nextEnd h | collectEnd h | dropEnd h | pastEnd _ h => exact absurd hp h.not_produce

theorem Serves.ended {s : Stage α ε} {alive : Bool} {errand : Errand α} (h : Serves s alive v errand) :
    Serves s false v errand := by
  cases h with
  | due h => exact .due h
  | past hv h => exact .past hv h rfl
  | next h => exact .next h
  | collect h => exact .collect h
  | drop h => exact .drop h
  | nextEnd h => exact .nextEnd h
  | collectEnd h => exact .collectEnd h
  | dropEnd h => exact .dropEnd h
  | pastEnd hv h => exact .pastEnd hv h rfl

/-- **A turn of the producer** changes nothing for the consumer. -/
theorem Sound.producerTurn (h : Sound items failure x v) (ht : x.producerTurn? = some y) :
    Sound items failure y v := by
  obtain ⟨-, ⟨hsettled, rfl⟩ | ⟨hcomplete, rfl⟩ | ⟨s, hproduce, hsettled, hcomplete, rfl⟩⟩ := producerTurn_cases ht
  · exact ⟨h.runs, h.serves, h.told_eq, h.failure_eq, h.failure_eq, fun _ => rfl, h.worked.complete_of_ended⟩
  · exact ⟨h.runs, h.serves.ended, h.told_eq, h.failure_eq, h.worked.noted_eq, h.worked.settled_of_complete,
      fun _ => hcomplete⟩
  · have hserves := h.serves.produce hproduce
    have hwaits (halive : x.alive = false) : s.complete = true := by
      have := h.worked.complete_of_ended halive
      rw [hcomplete] at this
      cases this
    obtain ⟨a, rest, -, rfl⟩ | ⟨hpending, -, rfl⟩ := Stage.produce_eq_some hproduce
    · exact ⟨h.runs, hserves, h.told_eq, h.failure_eq, h.worked.noted_eq, h.worked.settled_of_complete, hwaits⟩
    · -- the mark is put by a producer that has noted its failure
      exact ⟨h.runs, hserves, h.told_eq, h.failure_eq, h.worked.noted_eq, fun _ => hsettled hpending, hwaits⟩

/-- **The consumer takes an entry** for its query. -/
theorem Sound.taken {e : Entry α} {s : Stage α ε} (h : Sound items failure x v) (he : x.errand = .taking q got)
    (htake : x.stage.take? = some (e, s)) : ∃ w, Sound items failure (x.taken got s q e) w := by
  have hserves := h.serves
  have hruns := h.runs
  rw [he] at hserves
  obtain ⟨queue, hs⟩ := Stage.take_eq_some htake
  cases hserves with
  | next hholds =>
    obtain ⟨a, rest, rfl, rfl, hrest, -⟩ | ⟨rfl, rfl, hempty, -⟩ := hholds.take htake
    · subst hs
      exact ⟨.due rest, Standing.runs_concat.2 ⟨_, hruns, .item a rest⟩, .due hrest, h.told_eq, h.failure_eq, h.worked⟩
    · subst hs
      exact ⟨_, hruns, .nextEnd hempty, h.told_eq, h.failure_eq, h.worked⟩
  | collect hholds =>
    obtain ⟨a, rest, rfl, rfl, hrest, -⟩ | ⟨rfl, rfl, hempty, -⟩ := hholds.take htake
    · subst hs
      rw [List.append_cons] at hruns
      exact ⟨_, hruns, .collect hrest, h.told_eq, h.failure_eq, h.worked⟩
    · subst hs
      rw [List.append_nil] at hruns
      exact ⟨_, hruns, .collectEnd hempty, h.told_eq, h.failure_eq, h.worked⟩
  | drop hholds =>
    -- what is thrown away counts as due until the query is answered
    obtain ⟨a, rest, rfl, rfl, hrest, -⟩ | ⟨rfl, rfl, hempty, -⟩ := hholds.take htake
    · subst hs
      exact ⟨_, hruns, .drop hrest, h.told_eq, h.failure_eq, h.worked⟩
    · subst hs
      exact ⟨_, hruns, .dropEnd hempty, h.told_eq, h.failure_eq, h.worked⟩

/-- **The consumer finds that the producer has ended**, and its query is answered. -/
theorem Sound.joined (h : Sound items failure x v) (he : x.errand = .joining q got fresh) (halive : x.alive = false) :
    ∃ w, Sound items failure (x.joined got fresh q) w := by
  have hserves := h.serves
  rw [he] at hserves
  -- a producer that has ended has put its mark, and before that it noted its failure
  have hnoted : x.noted = failure := h.worked.noted_of_ended halive
  cases hserves with
  | nextEnd hempty =>
    have hanswer : Standing.Answers failure (.due ([] : List α)) .next (.next (.error (Stage.haltOf x.noted))) .told := by
      rw [hnoted]
      exact .finish
    exact ⟨.told, Standing.runs_concat.2 ⟨_, h.runs, hanswer⟩, .past (.inl rfl) hempty.told halive, rfl, h.failure_eq,
      h.worked⟩
  | collectEnd hempty =>
    have hanswer : Standing.Answers failure (.due got) .rest (.rest got (some (Stage.haltOf x.noted))) .told := by
      rw [hnoted]
      exact .rest got
    exact ⟨.told, Standing.runs_concat.2 ⟨_, h.runs, hanswer⟩, .past (.inl rfl) hempty.told halive, rfl, h.failure_eq,
      h.worked⟩
  | @dropEnd left reraise hempty =>
    have hanswer : Standing.Answers failure (.due left) (.drain reraise)
        (.drain (Stage.drainResult reraise x.noted)) .dropped := by
      rw [hnoted]
      exact .drop left reraise
    exact ⟨.dropped, Standing.runs_concat.2 ⟨_, h.runs, hanswer⟩, .past (.inr rfl) hempty halive, h.told_eq,
      h.failure_eq, h.worked⟩
  | @pastEnd _ reraise hv hempty _ =>
    have hanswer : Standing.Answers failure v (.drain reraise) (.drain (.ok ())) v := by
      obtain rfl | rfl := hv
      · exact .toldDrain reraise
      · exact .droppedDrain reraise
    exact ⟨v, Standing.runs_concat.2 ⟨_, h.runs, hanswer⟩, .past hv hempty halive, h.told_eq, h.failure_eq, h.worked⟩

/-- **Whoever takes a turn**, the answers keep to the rules. -/
theorem Sound.turn (h : Sound items failure x v) (ht : Turn x y) : ∃ w, Sound items failure y w := by
  obtain ⟨side, ht⟩ := ht
  cases side with
  | producer => exact ⟨v, h.producerTurn ht⟩
  | consumer =>
    obtain ⟨q, got, e, s, he, htake, rfl⟩ | ⟨q, got, fresh, he, halive, rfl⟩ := consumerTurn_cases ht
    · exact h.taken he htake
    · exact h.joined he halive

/-- **The consumer asks its next query.** -/
theorem Sound.ask (h : Sound items failure x v) (hask : x.ask? q = some y) : ∃ w, Sound items failure y w := by
  have hserves := h.serves
  have htold := h.told_eq
  unfold ask? at hask
  cases he : x.errand with
  | taking | joining =>
    rw [he] at hask
    cases hask
  | idle =>
    rw [he] at hserves hask
    cases hserves with
    | @due rest hholds =>
      rw [htold, hholds.unfinished] at hask
      cases q with
      | next =>
        obtain rfl := Option.some.inj hask
        exact ⟨_, h.runs, .next hholds, htold, h.failure_eq, h.worked⟩
      | rest =>
        obtain rfl := Option.some.inj hask
        have hcollect : Serves x.stage x.alive (.due ([] ++ rest)) (.taking .rest []) := .collect hholds
        exact ⟨_, h.runs, hcollect, htold, h.failure_eq, h.worked⟩
      | drain reraise =>
        obtain rfl := Option.some.inj hask
        exact ⟨_, h.runs, .drop hholds, htold, h.failure_eq, h.worked⟩
    | past hv hempty halive =>
      rw [hempty.exhausted] at hask
      cases q with
      | next =>
        obtain rfl | rfl := hv
        · rw [htold] at hask
          obtain rfl := Option.some.inj hask
          exact ⟨_, Standing.runs_concat.2 ⟨_, h.runs, .toldNext⟩, .past (.inl rfl) hempty halive, htold, h.failure_eq,
            h.worked⟩
        · rw [htold] at hask
          cases hask
      | rest =>
        obtain rfl | rfl := hv
        · rw [htold] at hask
          obtain rfl := Option.some.inj hask
          exact ⟨_, Standing.runs_concat.2 ⟨_, h.runs, .toldRest⟩, .past (.inl rfl) hempty halive, htold, h.failure_eq,
            h.worked⟩
        · rw [htold] at hask
          cases hask
      | drain reraise =>
        obtain rfl := Option.some.inj hask
        exact ⟨_, h.runs, .pastEnd hv hempty halive, htold, h.failure_eq, h.worked⟩

theorem Sound.turns (h : Sound items failure x v) (ht : Turns x y) : ∃ w, Sound items failure y w := by
  induction ht with
  | refl => exact ⟨v, h⟩
  | tail _ hturn ih =>
    obtain ⟨w, hw⟩ := ih
    exact hw.turn hturn

theorem Reaches.sound (h : Reaches size items failure x) : ∃ v, Sound items failure x v := by
  induction h with
  | refl => exact ⟨_, sound_start size items failure⟩
  | tail _ hmove ih =>
    obtain ⟨v, hv⟩ := ih
    obtain hturn | ⟨q, hask⟩ := hmove
    · exact hv.turn hturn
    · exact hv.ask hask

/-! ## Nobody waits for ever -/

/-- While the consumer takes entries there is one to take, or the producer has something to do. -/
theorem Sound.turn_of_holds {rest : List α} (h : Sound items failure x v) (he : x.errand = .taking q got)
    (hholds : x.stage.Holds rest) : ∃ y, Turn x y := by
  cases htake : x.stage.take? with
  | some r =>
    have hturn : x.consumerTurn? = some (x.taken got r.2 q r.1) := by
      rw [consumerTurn?, he, htake]
      rfl
    exact ⟨_, .consumer, hturn⟩
  | none =>
    -- the queue is empty, so the mark has not been put and the producer cannot have ended
    obtain ⟨s, hproduce⟩ := hholds.produce_of_take htake
    have hincomplete : x.stage.complete = false := by
      obtain ⟨a, as, hpending, -⟩ | ⟨-, hincomplete, -⟩ := Stage.produce_eq_some hproduce
      · by_contra hcomplete
        rw [hholds.pending (by simpa using hcomplete)] at hpending
        cases hpending
      · exact hincomplete
    have halive : x.alive = true := by
      by_contra hended
      rw [h.worked.complete_of_ended (by simpa using hended)] at hincomplete
      cases hincomplete
    have hturn : ∃ y, x.producerTurn? = some y := by
      unfold producerTurn?
      rw [halive, hincomplete, hproduce]
      by_cases hsettle : (x.stage.pending.isEmpty && !x.settled) = true
      · exact ⟨_, by rw [if_pos rfl, if_pos hsettle]⟩
      · exact ⟨_, by rw [if_pos rfl, if_neg hsettle]; rfl⟩
    obtain ⟨y, hy⟩ := hturn
    exact ⟨y, .producer, hy⟩

/-- Behind the mark the producer ends, and then the query is answered. -/
theorem Sound.turn_of_emptied (h : Sound items failure x v) (he : x.errand = .joining q got fresh)
    (hempty : x.stage.Emptied) : ∃ y, Turn x y := by
  cases halive : x.alive with
  | false =>
    have hturn : x.consumerTurn? = some (x.joined got fresh q) := by
      rw [consumerTurn?, he, halive]
      rfl
    exact ⟨_, .consumer, hturn⟩
  | true =>
    have hsettled : x.settled = true := h.worked.settled_of_complete hempty.complete
    have hturn : x.producerTurn? = some { x with alive := false } := by
      unfold producerTurn?
      rw [halive, hempty.pending, hsettled, hempty.complete]
      rfl
    exact ⟨_, .producer, hturn⟩

/-- **While a query waits for its answer someone can take a turn.** -/
theorem Sound.progress (h : Sound items failure x v) (he : x.errand ≠ .idle) : ∃ y, Turn x y := by
  have hserves := h.serves
  generalize herrand : x.errand = errand at hserves he
  cases hserves with
  | due | past => exact absurd rfl he
  | next hholds | collect hholds | drop hholds => exact h.turn_of_holds herrand hholds
  | nextEnd hempty | collectEnd hempty | dropEnd hempty | pastEnd _ hempty => exact h.turn_of_emptied herrand hempty

/-! ## What the consumer receives -/

section

variable {s : Stage α ε} {alive : Bool} {errand : Errand α}

theorem Serves.got_isPrefix (h : Serves s alive v errand) : errand.got <+: v.left := by
  cases h with
  | due | past | next | drop | nextEnd | dropEnd | pastEnd => exact List.nil_prefix
  | collect => exact List.prefix_append _ _
  | collectEnd => exact List.prefix_refl _

theorem Serves.left_eq (h : Serves s alive v errand) (hopen : s.exhausted = false)
    (hkeep : ∀ reraise, errand.query? ≠ some (.drain reraise)) :
    v ≠ .dropped ∧ v.left = errand.got ++ s.inFlight := by
  cases h with
  | due hholds | next hholds | collect hholds =>
    rw [hholds.inFlight_eq]
    exact ⟨nofun, rfl⟩
  | drop => exact absurd rfl (hkeep _)
  | past _ hempty | nextEnd hempty | collectEnd hempty | dropEnd hempty | pastEnd _ hempty =>
    rw [hempty.exhausted] at hopen
    cases hopen

theorem Serves.exhausted_eq_false_iff (h : Serves s alive v .idle) : s.exhausted = false ↔ ¬ v.Over := by
  cases h with
  | due hholds => exact ⟨fun _ => Standing.not_over_due _, fun _ => hholds.unfinished⟩
  | past hv hempty =>
    rw [hempty.exhausted]
    exact ⟨nofun, fun hdue => absurd hv hdue⟩

theorem Serves.emptied (h : Serves s alive v .idle) (hv : v.Over) : s.Emptied ∧ alive = false := by
  cases h with
  | due => exact absurd hv (Standing.not_over_due _)
  | past _ hempty halive => exact ⟨hempty, halive⟩

end

/-- **Items are received in order.** -/
theorem Sound.received_isPrefix (h : Sound items failure x v) : x.received <+: items := by
  have hgot := h.serves.got_isPrefix
  -- behind what was thrown away nothing is due, and so nothing is kept for an answer either
  by_cases hv : v = .dropped
  · subst hv
    rw [received, List.prefix_nil.1 hgot, List.append_nil]
    exact h.runs.delivered_isPrefix
  · have hleft : items = delivered x.log ++ v.left := h.runs.left_eq hv
    rw [hleft]
    exact (List.prefix_append_right_inj _).2 hgot

/-- **Nothing is lost**: what has not been received is in the queue, or still to be put there. -/
theorem Sound.received_append (h : Sound items failure x v) (hopen : x.stage.exhausted = false)
    (hkeep : ∀ reraise, x.errand.query? ≠ some (.drain reraise)) : x.received ++ x.stage.inFlight = items := by
  obtain ⟨hv, hleft⟩ := h.serves.left_eq hopen hkeep
  have hitems : items = delivered x.log ++ v.left := h.runs.left_eq hv
  rw [received, List.append_assoc, ← hleft, ← hitems]

/-- Whoever has been told of the end has received all items. -/
theorem Sound.received_of_told (h : Sound items failure x v) (htold : x.stage.told = true) : x.received = items := by
  have hv : v = .told := by
    have heq := h.told_eq
    rw [htold] at heq
    cases v with
    | told => rfl
    | due | dropped => cases heq
  subst hv
  have hgot : x.errand.got = [] := List.prefix_nil.1 h.serves.got_isPrefix
  have hitems : items = delivered x.log ++ [] := h.runs.left_eq nofun
  rw [received, hgot, ← hitems]

/-- A query is refused to a consumer only that has thrown away what was left. -/
theorem Sound.refused (h : Sound items failure x v) (he : x.errand = .idle) (hask : x.ask? q = none) :
    x.stage.told = false ∧ ∃ reraise result, (Query.drain reraise, Answer.drain result) ∈ x.log := by
  have hserves := h.serves
  rw [he] at hserves
  unfold ask? at hask
  rw [he] at hask
  have hflags : x.stage.told = false ∧ x.stage.exhausted = true := by
    cases q with
    | next | rest =>
      cases htold : x.stage.told <;> cases hexhausted : x.stage.exhausted <;> simp [htold, hexhausted] at hask ⊢
    | drain => cases hexhausted : x.stage.exhausted <;> simp [hexhausted] at hask
  have hover : v.Over := by
    by_contra hdue
    rw [hserves.exhausted_eq_false_iff.2 hdue] at hflags
    cases hflags.2
  obtain rfl | rfl := hover
  · rw [h.told_eq] at hflags
    cases hflags.1
  · exact ⟨hflags.1, h.runs.exists_drain nofun rfl⟩

/-- **How a query to throw away what is left is answered.** -/
theorem Sound.drained {reraise : Bool} (h : Sound items failure x v) (hask : x.ask? (.drain reraise) = some y)
    (hturns : Turns y z) (hz : z.errand = .idle) :
    ∃ result, z.log = x.log ++ [(.drain reraise, .drain result)] ∧
      (∀ e, result = .error e ↔ failure = some e ∧ reraise = true ∧ x.stage.exhausted = false) ∧
      z.stage.queue = [] ∧ z.alive = false := by
  have hserves := h.serves
  have hasked : x.errand = .idle ∧ y.log = x.log ∧ y.errand.query? = some (.drain reraise) := by
    unfold ask? at hask
    cases he : x.errand with
    | taking | joining =>
      rw [he] at hask
      cases hask
    | idle =>
      rw [he] at hask
      refine ⟨rfl, ?_⟩
      cases hexhausted : x.stage.exhausted with
      | true | false =>
        rw [hexhausted] at hask
        obtain rfl := Option.some.inj hask
        exact ⟨rfl, rfl⟩
  obtain ⟨hx, hlog, hquery⟩ := hasked
  rw [hx] at hserves
  obtain ⟨-, hwaits⟩ | ⟨-, answer, hanswer⟩ := turns_log hturns hquery
  · rw [hz] at hwaits
    cases hwaits
  · obtain ⟨u, hy⟩ := h.ask hask
    obtain ⟨w, hw⟩ := hy.turns hturns
    have hruns := hw.runs
    have hserves' := hw.serves
    rw [hanswer, hlog] at hruns
    rw [hz] at hserves'
    -- the answer follows from the standing at the time of asking, which the log determines
    obtain ⟨v', hbefore, hrule⟩ := Standing.runs_concat.1 hruns
    obtain rfl : v = v' := h.runs.unique hbefore
    rw [hanswer, hlog, hserves.exhausted_eq_false_iff]
    cases hrule with
    | drop left =>
      obtain ⟨hempty, halive⟩ := hserves'.emptied (.inr rfl)
      refine ⟨_, rfl, fun e => ?_, hempty.queue, halive⟩
      rw [Stage.drainResult_eq_error_iff, and_iff_left (Standing.not_over_due left)]
    | toldDrain =>
      obtain ⟨hempty, halive⟩ := hserves'.emptied (.inl rfl)
      exact ⟨_, rfl, fun e => ⟨nofun, fun hopen => absurd (.inl rfl) hopen.2.2⟩, hempty.queue, halive⟩
    | droppedDrain =>
      obtain ⟨hempty, halive⟩ := hserves'.emptied (.inr rfl)
      exact ⟨_, rfl, fun e => ⟨nofun, fun hopen => absurd (.inr rfl) hopen.2.2⟩, hempty.queue, halive⟩

theorem Sound.answers_eq (h : Sound items failure x v) (size : Int) :
    (Stage.new size items failure).answers (x.log.map Prod.fst) = x.log.map Prod.snd := by
  obtain ⟨capacity, hcap, hnew⟩ := Stage.new_eq_waiting failure size items
  rw [hnew]
  exact h.runs.answers_eq hcap

/-! ## The whole exchange -/

/-- What a consumer can rely on, for the items of the producer and its failure. -/
structure Faithful (items : List α) (failure : Option ε) (x : Exchange α ε) : Prop where
  /-- Items are received once and in order. -/
  inOrder : x.received <+: items
  /-- Unless they are thrown away, the others are still to come. -/
  lossless : x.stage.exhausted = false → (∀ reraise, x.errand.query? ≠ some (.drain reraise)) →
    x.received ++ x.stage.inFlight = items
  /-- The end comes behind all items. -/
  complete : x.stage.told = true → x.received = items
  /-- So does the failure, for whoever asks for more. -/
  late : ∀ front q answer back e, x.log = front ++ (q, answer) :: back → answer.pulled? = some e →
    failure = some e ∧ delivered (front ++ [(q, answer)]) = items
  /-- The failure is raised once. -/
  once : x.log.countP (fun p => p.2.raised?.isSome) ≤ 1
  /-- Throwing away what is left raises it, if the mark had not been taken before and it is to be raised. Nothing is left
  then, and the producer has ended. -/
  drained : ∀ reraise y z, x.ask? (.drain reraise) = some y → Turns y z → z.errand = .idle →
    ∃ result, z.log = x.log ++ [(.drain reraise, .drain result)] ∧
      (∀ e, result = .error e ↔ failure = some e ∧ reraise = true ∧ x.stage.exhausted = false) ∧
      z.stage.queue = [] ∧ z.alive = false
  /-- The answers are those of a stage of any size whose producer works only when the consumer waits. -/
  independent : ∀ size, (Stage.new size items failure).answers (x.log.map Prod.fst) = x.log.map Prod.snd
  /-- Every query can be asked, but not one for items behind what was thrown away. -/
  refused : ∀ q, x.errand = .idle → x.ask? q = none →
    x.stage.told = false ∧ ∃ reraise result, (Query.drain reraise, Answer.drain result) ∈ x.log
  /-- While a query waits for its answer someone can take a turn. -/
  progress : x.errand ≠ .idle → ∃ y, Turn x y
  /-- No order of turns goes on for ever. -/
  bounded : ∀ (run : ℕ → Exchange α ε) n, run 0 = x → (∀ i < n, Turn (run i) (run (i + 1))) → n ≤ x.rank

/-- What somebody does in an exchange. -/
inductive Move where
  | turn (side : Side)
  | ask (q : Query)
  deriving DecidableEq, Repr

def move? : Move → Exchange α ε → Option (Exchange α ε)
  | .turn side, x => turn? side x
  | .ask q, x => x.ask? q

/-- What a list of moves leads to; a move that cannot be made is left out. -/
def play (x : Exchange α ε) (moves : List Move) : Exchange α ε :=
  moves.foldl (fun x m => (move? m x).getD x) x

theorem reaches_play (h : Reaches size items failure x) (moves : List Move) :
    Reaches size items failure (x.play moves) := by
  unfold play
  induction moves generalizing x with
  | nil => exact h
  | cons m moves ih =>
    rw [List.foldl_cons]
    cases hm : move? m x with
    | none => exact ih h
    | some y =>
      cases m with
      | turn side => exact ih (h.tail (.inl ⟨side, hm⟩))
      | ask q => exact ih (h.tail (.inr ⟨q, hm⟩))

end Exchange

open Exchange in
/-- **Items come once and in order, and a failure once and behind them**, whatever is asked for, in whichever order the
threads take their turns, and whatever the size of the queue. -/
theorem exchange_faithful (size : Int) (items : List α) (failure : Option ε) (x : Exchange α ε)
    (h : Reaches size items failure x) : x.Faithful items failure := by
  obtain ⟨v, hsound⟩ := h.sound
  exact {
    inOrder := hsound.received_isPrefix
    lossless := hsound.received_append
    complete := hsound.received_of_told
    late := fun front q answer back e hlog he => by
      have hruns := hsound.runs
      rw [hlog] at hruns
      exact hruns.pulled he
    once := hsound.runs.countP_raised
    drained := fun reraise y z hask hturns hz => hsound.drained hask hturns hz
    independent := hsound.answers_eq
    refused := fun q he hask => hsound.refused he hask
    progress := hsound.progress
    bounded := fun run n hrun hturns => by
      have hrank := rank_run hrun hturns
      omega }

open Exchange in
/-- Of two items the consumer takes one from a queue of one entry, and throws away the other while the producer fails. -/
theorem exchange_faithful_drained :
    ∃ x : Exchange ℕ String, Reaches 1 [1, 2] (some "boom") x ∧
      x.log = [(.next, .next (.ok 1)), (.drain true, .drain (.error "boom"))] ∧
      x.Faithful [1, 2] (some "boom") := by
  let asking : List Move := [.ask .next, .turn .producer, .turn .consumer, .turn .producer, .ask (.drain true)]
  let ending : List Move := (List.replicate 4 [.turn .producer, .turn .consumer]).flatten
  let x := (start 1 [1, 2] (some "boom")).play (asking ++ ending)
  have hx : Reaches 1 [1, 2] (some "boom") x := reaches_play .refl _
  have hlog : x.log = [(.next, .next (.ok 1)), (.drain true, .drain (.error "boom"))] := by decide +kernel
  exact ⟨x, hx, hlog, exchange_faithful 1 [1, 2] (some "boom") x hx⟩

end TapeCompiler
