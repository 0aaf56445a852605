import Mathlib.Data.List.Perm.Basic
import TapeCompiler.Proofs.Machine.LoopTree

/-!
# Stores

A store gives a byte to every key, and holds an input and an output. Keys are cells of a tape without
ends, or variables of a program.

* `Store`, with `add`, `print`, `read` and `act`.
* `Store.addAll`, `Store.zeroAll`: several keys at once, in any order.
* `Store.config`: the configuration of a machine that holds the first cells of a store.
-/

namespace TapeCompiler

/-- A byte for every key, what is left of the input, and the bytes that were written. -/
structure Store (κ : Type) where
  value : κ → UInt8
  input : List Char
  output : Array UInt8

namespace Store

variable {κ : Type}

@[ext]
theorem ext {s t : Store κ} (hvalue : ∀ k, s.value k = t.value k) (hinput : s.input = t.input)
    (houtput : s.output = t.output) : s = t := by
  cases s; cases t
  simp only [mk.injEq]
  exact ⟨funext hvalue, hinput, houtput⟩

/-- A store in which everything is zero. -/
def zero (κ : Type) (input : List Char) : Store κ :=
  ⟨fun _ => 0, input, #[]⟩

/-- The byte that is read next. Behind the end of the input it is zero. -/
def nextByte (s : Store κ) : UInt8 :=
  match s.input with
  | [] => 0
  | c :: _ => UInt8.ofNat c.toNat

/-- Writes the value of a key. -/
def print (s : Store κ) (k : κ) : Store κ :=
  { s with output := s.output.push (s.value k) }

variable [DecidableEq κ]

/-- Gives a key another value. -/
def set (s : Store κ) (k : κ) (b : UInt8) : Store κ :=
  { s with value := Function.update s.value k b }

/-- Adds a number to the value of a key, modulo 256. -/
def add (s : Store κ) (k : κ) (n : Int) : Store κ :=
  s.set k (s.value k + UInt8.ofInt n)

/-- Reads a byte into a key. -/
def read (s : Store κ) (k : κ) : Store κ :=
  { s.set k s.nextByte with input := s.input.tail }

/-- What an action of a machine does whose head stays on a key. -/
def act (k : κ) (s : Store κ) : Action → Store κ
  | .right | .left => s
  | .increment => s.add k 1
  | .decrement => s.add k (-1)
  | .write => s.print k
  | .read => s.read k

theorem value_set (s : Store κ) (k j : κ) (b : UInt8) :
    (s.set k b).value j = if j = k then b else s.value j := by
  simp [set, Function.update_apply]

@[simp]
theorem value_set_self (s : Store κ) (k : κ) (b : UInt8) : (s.set k b).value k = b := by
  simp [value_set]

theorem set_set (s : Store κ) (k : κ) (a b : UInt8) : (s.set k a).set k b = s.set k b := by
  refine ext (fun j => ?_) rfl rfl
  simp only [value_set]
  split <;> rfl

theorem set_eq_self {s : Store κ} {k : κ} {b : UInt8} (h : s.value k = b) : s.set k b = s := by
  refine ext (fun j => ?_) rfl rfl
  rw [value_set]
  split
  · rename_i hj
    rw [hj, h]
  · rfl

@[simp]
theorem input_set (s : Store κ) (k : κ) (b : UInt8) : (s.set k b).input = s.input := rfl

@[simp]
theorem output_set (s : Store κ) (k : κ) (b : UInt8) : (s.set k b).output = s.output := rfl

theorem value_add (s : Store κ) (k j : κ) (n : Int) :
    (s.add k n).value j = if j = k then s.value k + UInt8.ofInt n else s.value j :=
  value_set s k j _

theorem value_read (s : Store κ) (k j : κ) :
    (s.read k).value j = if j = k then s.nextByte else s.value j :=
  value_set s k j _

@[simp]
theorem add_zero (s : Store κ) (k : κ) : s.add k 0 = s := by
  refine ext (fun j => ?_) rfl rfl
  rw [value_add]
  split
  · rename_i h; subst h
    simp [show UInt8.ofInt 0 = 0 from rfl]
  · rfl

theorem add_add (s : Store κ) (k : κ) (m n : Int) : (s.add k m).add k n = s.add k (m + n) := by
  refine ext (fun j => ?_) rfl rfl
  simp only [value_add]
  split
  · simp [UInt8.ofInt_add, UInt8.add_assoc]
  · rfl

/-! ## Several keys -/

/-- Adds to several keys, one after the other. -/
def addAll (s : Store κ) (steps : List (κ × Int)) : Store κ :=
  steps.foldl (fun s t => s.add t.1 t.2) s

@[simp]
theorem input_addAll (s : Store κ) (steps : List (κ × Int)) : (s.addAll steps).input = s.input := by
  induction steps generalizing s with
  | nil => rfl
  | cons t ts ih => exact ih _

@[simp]
theorem output_addAll (s : Store κ) (steps : List (κ × Int)) : (s.addAll steps).output = s.output := by
  induction steps generalizing s with
  | nil => rfl
  | cons t ts ih => exact ih _

/-- What a key gains in all. -/
def gainOf (k : κ) : List (κ × Int) → Int
  | [] => 0
  | t :: ts => (if t.1 = k then t.2 else 0) + gainOf k ts

theorem value_addAll (s : Store κ) (steps : List (κ × Int)) (k : κ) :
    (s.addAll steps).value k = s.value k + UInt8.ofInt (gainOf k steps) := by
  induction steps generalizing s with
  | nil => simp [addAll, gainOf, show UInt8.ofInt 0 = 0 from rfl]
  | cons t ts ih =>
    refine (ih (s.add t.1 t.2)).trans ?_
    rw [gainOf, UInt8.ofInt_add, value_add, ← UInt8.add_assoc]
    by_cases h : t.1 = k
    · rw [if_pos h.symm, if_pos h, h]
    · rw [if_neg (Ne.symm h), if_neg h, show UInt8.ofInt 0 = 0 from rfl, UInt8.add_zero]

theorem iterate_addAll (s : Store κ) (steps : List (κ × Int)) (n : ℕ) :
    (∀ k, ((fun s : Store κ => s.addAll steps)^[n] s).value k =
      s.value k + UInt8.ofInt (n * gainOf k steps)) ∧
    ((fun s : Store κ => s.addAll steps)^[n] s).input = s.input ∧
    ((fun s : Store κ => s.addAll steps)^[n] s).output = s.output := by
  induction n generalizing s with
  | zero => simp [show UInt8.ofInt 0 = 0 from rfl]
  | succ n ih =>
    obtain ⟨hvalue, hinput, houtput⟩ := ih (s.addAll steps)
    rw [Function.iterate_succ_apply]
    refine ⟨fun k => ?_, by rw [hinput, input_addAll], by rw [houtput, output_addAll]⟩
    rw [hvalue, value_addAll, UInt8.add_assoc, ← UInt8.ofInt_add, Int.natCast_succ, Int.add_mul,
      Int.one_mul, Int.add_comm]

theorem gainOf_eq_zero {k : κ} {steps : List (κ × Int)} (h : ∀ t ∈ steps, t.1 ≠ k) :
    gainOf k steps = 0 := by
  induction steps with
  | nil => rfl
  | cons t ts ih =>
    rw [gainOf, if_neg (h t List.mem_cons_self), ih fun u hu => h u (List.mem_cons_of_mem _ hu)]
    rfl

theorem add_comm (s : Store κ) (j k : κ) (m n : Int) : (s.add j m).add k n = (s.add k n).add j m := by
  refine ext (fun i => ?_) rfl rfl
  simp only [value_add]
  grind

theorem addAll_perm (s : Store κ) {xs ys : List (κ × Int)} (h : xs.Perm ys) : s.addAll xs = s.addAll ys := by
  unfold addAll
  have : RightCommutative fun (s : Store κ) (t : κ × Int) => s.add t.1 t.2 :=
    ⟨fun s t u => s.add_comm t.1 u.1 t.2 u.2⟩
  exact h.foldl_eq s

omit [DecidableEq κ] in
theorem value_ne_zero_iff (s : Store κ) (k : κ) : s.value k ≠ 0 ↔ (s.value k).toNat ≠ 0 := by
  rw [ne_eq, ne_eq, ← UInt8.toNat_inj]
  rfl

theorem toNat_value_pred {s : Store κ} {k : κ} (h : s.value k ≠ 0) :
    ((s.add k (-1)).value k).toNat + 1 = (s.value k).toNat := by
  rw [value_ne_zero_iff] at h
  have hlt := (s.value k).toNat_lt
  simp only [value_add, if_true, UInt8.toNat_add, show UInt8.ofInt (-1) = 255 from rfl]
  have : (255 : UInt8).toNat = 255 := rfl
  omega

theorem ofInt_toNat (b : UInt8) : UInt8.ofInt (b.toNat : Int) = b := by
  apply UInt8.toNat_inj.1
  have := b.toNat_lt
  simp only [UInt8.ofInt, UInt8.toNat_ofNat']
  omega

theorem add_neg_toNat (s : Store κ) (k : κ) : s.add k (-(s.value k).toNat) = s.set k 0 := by
  refine ext (fun j => ?_) rfl rfl
  rw [value_add, value_set]
  split
  · rw [UInt8.ofInt_neg, ofInt_toNat, UInt8.add_right_neg]
  · rfl

/-- Sets keys to zero, one after the other. -/
def zeroAll (s : Store κ) (ks : List κ) : Store κ :=
  ks.foldl (fun s k => s.set k 0) s

@[simp]
theorem input_zeroAll (s : Store κ) (ks : List κ) : (s.zeroAll ks).input = s.input := by
  induction ks generalizing s with
  | nil => rfl
  | cons k ks ih => exact ih _

@[simp]
theorem output_zeroAll (s : Store κ) (ks : List κ) : (s.zeroAll ks).output = s.output := by
  induction ks generalizing s with
  | nil => rfl
  | cons k ks ih => exact ih _

theorem value_zeroAll (s : Store κ) (ks : List κ) (k : κ) :
    (s.zeroAll ks).value k = if k ∈ ks then 0 else s.value k := by
  induction ks generalizing s with
  | nil => rfl
  | cons j ks ih =>
    refine (ih (s.set j 0)).trans ?_
    rw [value_set]
    by_cases hk : k ∈ ks <;> by_cases hj : k = j <;> simp [hk, hj]

theorem zeroAll_perm (s : Store κ) {xs ys : List κ} (h : xs.Perm ys) : s.zeroAll xs = s.zeroAll ys :=
  ext (fun k => by simp only [value_zeroAll, h.mem_iff]) (by simp) (by simp)

theorem zeroAll_set {k : κ} {ks : List κ} (h : k ∉ ks) (s : Store κ) (b : UInt8) :
    (s.set k b).zeroAll ks = (s.zeroAll ks).set k b := by
  refine ext (fun j => ?_) (by simp) (by simp)
  rw [value_zeroAll, value_set, value_set, value_zeroAll]
  by_cases hj : j = k
  · simp [hj, h]
  · simp [hj]

/-- The value of a key is moved out of it, as so many steps for other keys. -/
def moved (s : Store κ) (source : κ) (steps : List (κ × Int)) : Store κ :=
  { s with value := fun k => if k = source then 0 else
      s.value k + UInt8.ofInt ((s.value source).toNat * gainOf k steps) }

/-! ## The tape -/

/-- The machine that holds the first cells of a store, with its head on a cell. -/
def config (size : ℕ) (head : Int) (s : Store Int) : Config :=
  ⟨Array.ofFn fun i : Fin size => s.value (i.val : Int), head.toNat, s.input, s.output⟩

section

variable {size : ℕ} {head : Int} (s : Store Int)

theorem tape_config (i : ℕ) (hi : i < size) : (s.config size head).tape[i]? = some (s.value i) := by
  simp [config, hi]

theorem current_config (h0 : 0 ≤ head) (hsize : head < size) :
    (s.config size head).current = s.value head := by
  unfold Config.current
  rw [show (s.config size head).pointer = head.toNat from rfl, tape_config _ _ (by omega)]
  simp [Int.toNat_of_nonneg h0]

/-- Changing the cell under the head changes the store at that cell. -/
theorem alter_config (h0 : 0 ≤ head) (f : UInt8 → UInt8) :
    (s.config size head).alter f = (s.set head (f (s.value head))).config size head := by
  unfold Config.alter config
  simp only [input_set, output_set, Config.mk.injEq, and_true]
  apply Array.ext
  · simp
  · intro i hi _
    have hi' : i < size := by simpa using hi
    simp only [Array.getElem_modify, Array.getElem_ofFn, value_set]
    by_cases h : head.toNat = i
    · have : (i : Int) = head := by omega
      simp [this, h]
    · have : (i : Int) ≠ head := by omega
      simp [this, h]

/-- An action that leaves the head where it is acts on the cell under the head. -/
theorem apply_config (h0 : 0 ≤ head) (hsize : head < size) {a : Action} (hr : a ≠ .right)
    (hl : a ≠ .left) : a.apply (s.config size head) = (s.act head a).config size head := by
  cases a with
  | right => exact absurd rfl hr
  | left => exact absurd rfl hl
  | increment => exact alter_config s h0 _
  | decrement =>
    refine (alter_config s h0 _).trans ?_
    simp [act, add, UInt8.sub_eq_add_neg, UInt8.ofInt_neg]
  | write =>
    simp only [Action.apply, current_config s h0 hsize]
    rfl
  | read =>
    simp only [Action.apply, alter_config s h0]
    rfl

theorem right_config (h0 : 0 ≤ head) (hsize : head + 1 < size) :
    Action.right.apply (s.config size head) = s.config size (head + 1) := by
  have hmod : (head.toNat + 1) % size = (head + 1).toNat := by
    rw [Nat.mod_eq_of_lt (by omega)]; omega
  simp [Action.apply, config, hmod]

theorem left_config (h0 : 0 < head) (hsize : head < size) :
    Action.left.apply (s.config size head) = s.config size (head - 1) := by
  have hmod : (head.toNat + size - 1) % size = (head - 1).toNat := by
    rw [show head.toNat + size - 1 = (head - 1).toNat + size by omega, Nat.add_mod_right,
      Nat.mod_eq_of_lt (by omega)]
  simp [Action.apply, config, hmod]

end

end Store

end TapeCompiler
