/-!
# Stages

A stage is a producer that puts items into a queue and a consumer that takes them out. The queue may be
bounded; then the producer waits while it is full. Behind the last item the producer puts a mark, and a
producer that fails does so there: the consumer is told once it has taken all items.

* `Stage.produce?`: what the producer does next, unless it waits or is done.
* `Stage.receive`: what the consumer takes next.
* `Stage.next`, `takeUpTo`, `rest`, `drain`: what the consumer can ask for.

The items arrive in the order in which they were put, however producer and consumer take turns; here
the producer works when the consumer finds the queue empty.

A failure stands for an exception of the producer that is an ordinary error. One that asks the program to
exit is not modelled, and the mark is no item: no item is equal to it.
-/

namespace TapeCompiler

/-- What a queue holds. -/
inductive Entry (α : Type) where
  | item (a : α)
  /-- The mark behind the last item. -/
  | done
  deriving DecidableEq, Repr, Inhabited

/-- Why a consumer gets no item. -/
inductive Halt (ε : Type) where
  /-- There are no more items. -/
  | ended
  /-- There are no more items because the producer failed. -/
  | failed (e : ε)
  /-- Nothing will ever come: the mark has been taken by a consumer that threw everything away. -/
  | blocked
  deriving DecidableEq, Repr, Inhabited

/-- A producer, a queue and a consumer. -/
structure Stage (α ε : Type) where
  /-- The bound of the queue, if it has one. -/
  capacity : Option Nat
  /-- The items that the producer has yet to put. -/
  pending : List α
  /-- How the producer fails behind its last item, if it does. -/
  failure : Option ε
  /-- Whether the producer has put its mark. -/
  complete : Bool
  queue : List (Entry α)
  /-- Whether the mark has been taken out of the queue. -/
  exhausted : Bool
  /-- Whether the consumer has been told of the end. -/
  told : Bool
  deriving DecidableEq, Repr, Inhabited

namespace Stage

variable {α ε : Type}

/-- A stage that has not started. The queue is bounded by a positive size only. -/
def new (size : Int) (items : List α) (failure : Option ε) : Stage α ε where
  capacity := if 0 < size then some size.toNat else none
  pending := items
  failure
  complete := false
  queue := []
  exhausted := false
  told := false

/-- Whether the producer has to wait. -/
def full (s : Stage α ε) : Bool :=
  match s.capacity with
  | some n => n ≤ s.queue.length
  | none => false

/-- The producer puts its next item or its mark, unless it waits or is done. -/
def produce? (s : Stage α ε) : Option (Stage α ε) :=
  if s.full then none
  else
    match s.pending with
    | a :: as => some { s with pending := as, queue := s.queue ++ [.item a] }
    | [] => if s.complete then none else some { s with complete := true, queue := s.queue ++ [.done] }

/-- Takes the oldest entry out of the queue, unless it is empty. -/
def take? (s : Stage α ε) : Option (Entry α × Stage α ε) :=
  match s.queue with
  | e :: es => some (e, { s with queue := es })
  | [] => none

/-- The next entry; if the queue is empty the producer is let in first. -/
def receive (s : Stage α ε) : Option (Entry α × Stage α ε) :=
  match s.take? with
  | some r => some r
  | none => s.produce?.bind take?

/-- The number of entries that are still to be received. -/
def left (s : Stage α ε) : Nat :=
  s.pending.length + s.queue.length + if s.complete then 0 else 1

/-- How the producer ended, once it has. -/
def failed? (s : Stage α ε) : Option ε :=
  if s.complete then s.failure else none

/-- The next item for the consumer. It is told of the end, and of a failure, only once. -/
def next (s : Stage α ε) : Except (Halt ε) α × Stage α ε :=
  if s.told then (.error .ended, s)
  else
    match s.receive with
    | none => (.error .blocked, s)
    | some (.item a, s') => (.ok a, s')
    | some (.done, s') =>
      let s' := { s' with exhausted := true, told := true }
      match s'.failed? with
      | some e => (.error (.failed e), s')
      | none => (.error .ended, s')

/-- At most `n` items; if there are fewer, also why. -/
def takeUpTo : Nat → Stage α ε → List α × Option (Halt ε) × Stage α ε
  | 0, s => ([], none, s)
  | n + 1, s =>
    match s.next with
    | (.ok a, s') =>
      let (as, halt, last) := takeUpTo n s'
      (a :: as, halt, last)
    | (.error h, s') => ([], some h, s')

/-- All items that are left, and why there are no more. -/
def rest (s : Stage α ε) : List α × Option (Halt ε) × Stage α ε :=
  takeUpTo (s.left + 1) s

/-- Takes `n` entries out of the queue. -/
def discard : Nat → Stage α ε → Stage α ε
  | 0, s => s
  | n + 1, s =>
    match s.receive with
    | some (_, s') => discard n s'
    | none => s

/-- Throws away whatever is left, so that the producer can end. A failure that the consumer has not been
told of is raised if `reraise` is set. -/
def drain (s : Stage α ε) (reraise : Bool) : Except ε Unit × Stage α ε :=
  if s.exhausted then (.ok (), s)
  else
    let s' := { discard s.left s with exhausted := true }
    match s'.failed? with
    | some e => (if reraise then .error e else .ok (), s')
    | none => (.ok (), s')

end Stage

end TapeCompiler
