import TapeCompiler.Machine.Basic
import TapeCompiler.Proofs.Repeats

/-!
# Tape programs as trees of loops

A program whose brackets are balanced is a tree: actions one after the other, and loops with a body of
their own. Its meaning is a relation between configurations, with no program counter.

* `LoopTree`, `LoopTree.ops`: trees, and the operations they spell.
* `LoopTree.Run`: a run of a tree from one configuration to another.
* `LoopTree.Visits`: where a run passes by, place by place, also if it never ends.
* `visits_ops_length`: **a run visits the end of a tree in just the configurations it ends in.**
-/

namespace TapeCompiler

/-- The operations that are no brackets. -/
inductive Action where
  | right
  | left
  | increment
  | decrement
  | write
  | read
  deriving DecidableEq, Repr, Inhabited

/-- An action as an operation. -/
def Action.toOp : Action → TapeOp
  | right => .right
  | left => .left
  | increment => .increment
  | decrement => .decrement
  | write => .write
  | read => .read

/-- What a program works on: everything in a machine but the program and its place in it. -/
structure Config where
  tape : Array UInt8
  pointer : ℕ
  input : List Char
  output : Array UInt8
  deriving DecidableEq, Repr, Inhabited

namespace Config

/-- The value under the head. -/
def current (s : Config) : UInt8 :=
  (s.tape[s.pointer]?).getD 0

/-- Changes the value under the head. -/
def alter (s : Config) (f : UInt8 → UInt8) : Config :=
  { s with tape := s.tape.modify s.pointer f }

/-- The byte that is read next. Behind the end of the input it is zero. -/
def nextByte (s : Config) : UInt8 :=
  match s.input with
  | [] => 0
  | c :: _ => UInt8.ofNat c.toNat

end Config

/-- What an action does. Cells count modulo 256, and the head goes round the tape. -/
def Action.apply (s : Config) : Action → Config
  | right => { s with pointer := (s.pointer + 1) % s.tape.size }
  | left => { s with pointer := (s.pointer + s.tape.size - 1) % s.tape.size }
  | increment => s.alter (· + 1)
  | decrement => s.alter (· - 1)
  | write => { s with output := s.output.push s.current }
  | read => { s.alter (fun _ => s.nextByte) with input := s.input.tail }

/-- A program with balanced brackets. -/
inductive LoopTree where
  | empty
  | act (a : Action) (next : LoopTree)
  | loop (body next : LoopTree)
  deriving DecidableEq, Repr, Inhabited

namespace LoopTree

/-- The operations of a tree. -/
def ops : LoopTree → List TapeOp
  | empty => []
  | act a next => a.toOp :: next.ops
  | loop body next => .openLoop :: (body.ops ++ .closeLoop :: next.ops)

/-- One tree behind the other. -/
def append : LoopTree → LoopTree → LoopTree
  | empty, b => b
  | act a next, b => act a (next.append b)
  | loop body next, b => loop body (next.append b)

instance : Append LoopTree := ⟨append⟩

/-- Actions without a loop. -/
def ofActions (as : List Action) : LoopTree :=
  as.foldr act empty

/-- The loop on the cell under the head whose body a relation is. -/
abbrev Loops (body : Config → Config → Prop) : Config → Config → Prop :=
  Repeats (fun s => s.current ≠ 0) body

/-- A run of a tree ends. -/
def Run : LoopTree → Config → Config → Prop
  | empty, s, t => t = s
  | act a next, s, t => next.Run (a.apply s) t
  | loop body next, s, t => ∃ u, Loops body.Run s u ∧ next.Run u t

/-- A run of a tree from `s` comes by place `k` with configuration `t`. Behind an opening bracket it
comes once in every pass, and so it does to a closing bracket. -/
def Visits : LoopTree → Config → ℕ → Config → Prop
  | empty, s, k, t => k = 0 ∧ t = s
  | act a next, s, k, t => (k = 0 ∧ t = s) ∨ ∃ j, k = j + 1 ∧ next.Visits (a.apply s) j t
  | loop body next, s, k, t =>
    (k = 0 ∧ t = s) ∨
    (∃ u j, Passes (fun s => s.current ≠ 0) body.Run s u ∧ u.current ≠ 0 ∧ k = j + 1 ∧
      body.Visits u j t) ∨
    (∃ u j, Loops body.Run s u ∧ k = body.ops.length + 2 + j ∧ next.Visits u j t)

/-! ## Appending -/

@[simp]
theorem empty_append (b : LoopTree) : empty ++ b = b := rfl

@[simp]
theorem act_append (a : Action) (b c : LoopTree) : act a b ++ c = act a (b ++ c) := rfl

@[simp]
theorem loop_append (body b c : LoopTree) : loop body b ++ c = loop body (b ++ c) := rfl

theorem append_assoc (a b c : LoopTree) : a ++ b ++ c = a ++ (b ++ c) := by
  induction a with
  | empty => rfl
  | act a next ih => simp only [act_append, ih]
  | loop body next _ ih => simp only [loop_append, ih]

@[simp]
theorem ops_append (a b : LoopTree) : (a ++ b).ops = a.ops ++ b.ops := by
  induction a with
  | empty => rfl
  | act a next ih => simp [ops, ih]
  | loop body next _ ih => simp [ops, ih]

theorem run_append (a b : LoopTree) (s t : Config) :
    (a ++ b).Run s t ↔ ∃ u, a.Run s u ∧ b.Run u t := by
  induction a generalizing s with
  | empty => simp [Run]
  | act a next ih => simp [Run, ih]
  | loop body next _ ih =>
    simp only [loop_append, Run, ih]
    constructor
    · rintro ⟨u, hu, v, hv, ht⟩
      exact ⟨v, ⟨u, hu, hv⟩, ht⟩
    · rintro ⟨v, ⟨u, hu, hv⟩, ht⟩
      exact ⟨u, hu, v, hv, ht⟩

@[simp]
theorem ops_ofActions (as : List Action) : (ofActions as).ops = as.map Action.toOp := by
  induction as with
  | nil => rfl
  | cons a as ih => simpa [ofActions, ops] using ih

@[simp]
theorem run_ofActions (as : List Action) (s t : Config) :
    (ofActions as).Run s t ↔ t = as.foldl Action.apply s := by
  induction as generalizing s with
  | nil => rfl
  | cons a as ih => exact ih _

/-! ## Visits -/

theorem visits_zero (b : LoopTree) (s t : Config) : b.Visits s 0 t ↔ t = s := by
  cases b with
  | empty => simp [Visits]
  | act a next => simp [Visits]
  | loop body next =>
    simp only [Visits, true_and]
    constructor
    · rintro (h | ⟨u, j, -, -, h, -⟩ | ⟨u, j, -, h, -⟩)
      · exact h
      · omega
      · omega
    · exact Or.inl

theorem Visits.le_length {b : LoopTree} {s t : Config} {k : ℕ} (h : b.Visits s k t) :
    k ≤ b.ops.length := by
  induction b generalizing s k with
  | empty => exact Nat.le_of_eq h.1
  | act a next ih =>
    rcases h with ⟨rfl, -⟩ | ⟨j, rfl, hj⟩
    · exact Nat.zero_le _
    · have := ih hj
      simp only [ops, List.length_cons]; omega
  | loop body next ihb ihn =>
    simp only [ops, List.length_cons, List.length_append]
    rcases h with ⟨rfl, -⟩ | ⟨u, j, -, -, rfl, hj⟩ | ⟨u, j, -, rfl, hj⟩
    · exact Nat.zero_le _
    · have := ihb hj; omega
    · have := ihn hj; omega

/-- **A run visits the end of a tree in just the configurations it ends in.** -/
theorem visits_ops_length (b : LoopTree) (s t : Config) : b.Visits s b.ops.length t ↔ b.Run s t := by
  induction b generalizing s with
  | empty => simp [Visits, Run, ops]
  | act a next ih =>
    simp only [Visits, Run, ops, List.length_cons, Nat.succ_ne_zero, false_and, false_or]
    constructor
    · rintro ⟨j, hj, hv⟩
      obtain rfl : j = next.ops.length := by omega
      exact (ih _).1 hv
    · intro h
      exact ⟨_, rfl, (ih _).2 h⟩
  | loop body next _ ih =>
    simp only [Visits, Run, ops, List.length_cons, List.length_append]
    constructor
    · rintro (⟨h, -⟩ | ⟨u, j, -, -, hj, hv⟩ | ⟨u, j, hu, hj, hv⟩)
      · omega
      · have := hv.le_length; omega
      · obtain rfl : j = next.ops.length := by omega
        exact ⟨u, hu, (ih u).1 hv⟩
    · rintro ⟨u, hu, ht⟩
      exact Or.inr (Or.inr ⟨u, _, hu, by omega, (ih u).2 ht⟩)

/-- What every action keeps, a run keeps. -/
theorem Run.keeps {P : Config → Prop} (hP : ∀ s (a : Action), P s → P (a.apply s)) {b : LoopTree}
    {s t : Config} (h : b.Run s t) (hs : P s) : P t := by
  induction b generalizing s t with
  | empty => exact h ▸ hs
  | act a next ih => exact ih h (hP s a hs)
  | loop body next ihb ihn =>
    obtain ⟨u, hu, ht⟩ := h
    exact ihn ht (hu.1.keeps hs fun v w hv _ hw => ihb hw hv)

/-- What every action keeps holds wherever a run comes by. -/
theorem Visits.keeps {P : Config → Prop} (hP : ∀ s (a : Action), P s → P (a.apply s)) {b : LoopTree}
    {s t : Config} {k : ℕ} (h : b.Visits s k t) (hs : P s) : P t := by
  induction b generalizing s k with
  | empty => exact h.2 ▸ hs
  | act a next ih =>
    rcases h with ⟨-, rfl⟩ | ⟨j, -, hj⟩
    · exact hs
    · exact ih hj (hP s a hs)
  | loop body next ihb ihn =>
    have hpass : ∀ u, Passes (fun s => s.current ≠ 0) body.Run s u → P u := fun u hu =>
      hu.keeps hs fun v w hv _ hw => hw.keeps hP hv
    rcases h with ⟨-, rfl⟩ | ⟨u, j, hp, -, -, hj⟩ | ⟨u, j, hr, -, hj⟩
    · exact hs
    · exact ihb hj (hpass u hp)
    · exact ihn hj (hpass u hr.1)

/-- Beyond its first part a run visits places of the second part. -/
theorem visits_append_right {a b : LoopTree} {s t : Config} {k : ℕ}
    (h : (a ++ b).Visits s (a.ops.length + k) t) : ∃ u, a.Run s u ∧ b.Visits u k t := by
  induction a generalizing s k with
  | empty => exact ⟨s, rfl, by simpa [ops] using h⟩
  | act x next ih =>
    simp only [act_append, Visits, ops, List.length_cons] at h
    rcases h with ⟨h, -⟩ | ⟨j, hj, hv⟩
    · omega
    · obtain rfl : j = next.ops.length + k := by omega
      exact ih hv
  | loop body next _ ih =>
    simp only [loop_append, Visits, ops, List.length_cons, List.length_append] at h
    rcases h with ⟨h, -⟩ | ⟨u, j, -, -, hj, hv⟩ | ⟨u, j, hu, hj, hv⟩
    · omega
    · have := hv.le_length; omega
    · obtain rfl : j = next.ops.length + k := by omega
      obtain ⟨v, hv, ht⟩ := ih hv
      exact ⟨v, ⟨u, hu, hv⟩, ht⟩

/-- Up to the end of its first part a run visits places of that part. -/
theorem visits_append_left {a b : LoopTree} {s t : Config} {k : ℕ} (hk : k ≤ a.ops.length)
    (h : (a ++ b).Visits s k t) : a.Visits s k t := by
  induction a generalizing s k with
  | empty =>
    obtain rfl : k = 0 := Nat.le_zero.1 hk
    exact ⟨rfl, (visits_zero b s t).1 h⟩
  | act x next ih =>
    simp only [ops, List.length_cons] at hk
    rcases h with h | ⟨j, rfl, hv⟩
    · exact .inl h
    · exact .inr ⟨j, rfl, ih (by omega) hv⟩
  | loop body next _ ih =>
    simp only [ops, List.length_cons, List.length_append] at hk
    rcases h with h | h | ⟨u, j, hu, rfl, hv⟩
    · exact .inl h
    · exact .inr (.inl h)
    · exact .inr (.inr ⟨u, j, hu, rfl, ih (by omega) hv⟩)

end LoopTree

end TapeCompiler
