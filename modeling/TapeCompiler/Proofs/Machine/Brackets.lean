import TapeCompiler.Proofs.Machine.Balanced

/-!
# Brackets and their partners

Which brackets of a program belong together is told by the text between them, which is balanced. The machine finds
them in one pass with a stack of the places of open loops, and jumps by the table that the pass leaves. It never
looks whether the table has an entry for the bracket it jumps from.

* `depthAt`: how many loops are open in front of a place; `Stays`: the depth does not fall below a bound.
* `Paired`: the brackets at two places belong together; `Paired.nested`: **pairs never cross.**
* `Opened`: what the places on the stack have in common; `Passed`: what the pass knows in front of a place.
* `Passed.act`, `push`, `pop`: one operation; `pairFrom_drop`: **how the pass ends.**
* `load_pairs_iff_balanced`: **a program is loaded if and only if it is balanced, and then its table joins just the
  brackets that belong together, and no step of the machine is refused.**
-/

namespace TapeCompiler

/-! ## Depth at a place -/

/-- How many more loops are opened than closed in front of a place. -/
def depthAt (ops : List TapeOp) (k : ℕ) : Int :=
  depthOf (ops.take k)

theorem depthOf_append (ops ops' : List TapeOp) : depthOf (ops ++ ops') = depthOf ops + depthOf ops' := by
  induction ops with
  | nil => simp [depthOf]
  | cons o ops ih =>
    rw [List.cons_append, depthOf, depthOf, ih]
    omega

section

variable {ops : List TapeOp} {i j k : ℕ}

theorem depthAt_succ {o : TapeOp} (ho : ops[k]? = some o) : depthAt ops (k + 1) = depthAt ops k + o.nesting := by
  unfold depthAt
  rw [List.take_add_one, ho, Option.toList_some, depthOf_append]
  simp [depthOf]

theorem depthAt_open (ho : ops[k]? = some .openLoop) : depthAt ops (k + 1) = depthAt ops k + 1 :=
  depthAt_succ ho

theorem depthAt_close (ho : ops[k]? = some .closeLoop) : depthAt ops (k + 1) = depthAt ops k - 1 :=
  depthAt_succ ho

/-- The depth of a part is the difference of the depths at its ends. -/
theorem depthOf_part (hij : i ≤ j) : depthOf ((ops.take j).drop i) = depthAt ops j - depthAt ops i := by
  have hsplit := depthOf_append ((ops.take j).take i) ((ops.take j).drop i)
  rw [List.take_append_drop, List.take_take, Nat.min_eq_left hij] at hsplit
  unfold depthAt
  omega

/-- From one place to another the depth does not fall below `d`. -/
def Stays (ops : List TapeOp) (d : Int) (i k : ℕ) : Prop :=
  ∀ l, i ≤ l → l ≤ k → d ≤ depthAt ops l

theorem Stays.succ {d : Int} (h : Stays ops d i k) (hnext : d ≤ depthAt ops (k + 1)) : Stays ops d i (k + 1) := by
  intro l hil hlk
  by_cases hl : l = k + 1
  · rw [hl]
    exact hnext
  · exact h l hil (by omega)

theorem Stays.trans {d d' : Int} (h : Stays ops d i j) (h' : Stays ops d' (j + 1) k) (hd : d ≤ d') :
    Stays ops d i k := by
  intro l hil hlk
  by_cases hl : l ≤ j
  · exact h l hil hl
  · have hlater := h' l (by omega) hlk
    omega

/-- A part is balanced if the depth at its ends is the same and nowhere less between them. -/
theorem balanced_part_iff (hij : i ≤ j) (hj : j ≤ ops.length) :
    Balanced ((ops.take j).drop i) ↔ depthAt ops j = depthAt ops i ∧ Stays ops (depthAt ops i) i j := by
  have hlength : ((ops.take j).drop i).length = j - i := by
    rw [List.length_drop, List.length_take, Nat.min_eq_left hj]
  have hfirst (l : ℕ) (hl : i + l ≤ j) :
      depthOf (((ops.take j).drop i).take l) = depthAt ops (i + l) - depthAt ops i := by
    rw [List.take_drop, List.take_take, Nat.min_eq_left hl]
    exact depthOf_part (by omega)
  unfold Balanced
  rw [depthOf_part hij, hlength]
  constructor
  · intro h
    refine ⟨by omega, ?_⟩
    intro k hik hkj
    have hk := h.2 (k - i) (by omega)
    rw [hfirst (k - i) (by omega), Nat.add_sub_cancel' hik] at hk
    omega
  · intro h
    refine ⟨by omega, ?_⟩
    intro l hl
    have hk := h.2 (i + l) (by omega) (by omega)
    rw [hfirst l (by omega)]
    omega

end

/-! ## Brackets that belong together -/

/-- The brackets at two places belong together: what stands strictly between them is balanced. -/
structure Paired (ops : List TapeOp) (i j : ℕ) : Prop where
  lt : i < j
  opens : ops[i]? = some .openLoop
  closes : ops[j]? = some .closeLoop
  balanced : Balanced ((ops.take j).drop (i + 1))

section

variable {ops : List TapeOp} {i j i' j' k : ℕ}

/-- The same by depths: between the two brackets the depth is above that in front of them. -/
theorem paired_iff : Paired ops i j ↔ i < j ∧ ops[i]? = some .openLoop ∧ ops[j]? = some .closeLoop ∧
    depthAt ops j = depthAt ops i + 1 ∧ Stays ops (depthAt ops i + 1) (i + 1) j := by
  constructor
  · intro h
    have hlt := h.lt
    obtain ⟨hj, -⟩ := List.getElem?_eq_some_iff.1 h.closes
    have hinside := (balanced_part_iff (by omega) (by omega)).1 h.balanced
    rw [depthAt_open h.opens] at hinside
    exact ⟨hlt, h.opens, h.closes, hinside⟩
  · rintro ⟨hlt, hopens, hcloses, hinside⟩
    obtain ⟨hj, -⟩ := List.getElem?_eq_some_iff.1 hcloses
    rw [← depthAt_open hopens] at hinside
    exact ⟨hlt, hopens, hcloses, (balanced_part_iff (by omega) (by omega)).2 hinside⟩

namespace Paired

theorem depth_lt (h : Paired ops i j) (hik : i < k) (hkj : k ≤ j) : depthAt ops i < depthAt ops k :=
  (paired_iff.1 h).2.2.2.2 k hik hkj

/-- Behind a pair the depth is what it was in front of it. -/
theorem depth_behind (h : Paired ops i j) : depthAt ops (j + 1) = depthAt ops i := by
  have hclose := depthAt_close h.closes
  have hends := (paired_iff.1 h).2.2.2.1
  omega

/-- **Pairs never cross**: one that begins inside of another ends inside of it. -/
theorem nested (h : Paired ops i j) (h' : Paired ops i' j') (hbegins : i < i') (hinside : i' < j) : j' < j := by
  by_contra hge
  have hdepth := h.depth_lt hbegins (by omega)
  have hbehind := h.depth_behind
  have hne : j ≠ j' := by
    rintro rfl
    have hbehind' := h'.depth_behind
    omega
  have hdepth' := h'.depth_lt (show i' < j + 1 by omega) (by omega)
  omega

/-- An opening bracket has one partner. -/
theorem right_unique (h : Paired ops i j) (h' : Paired ops i j') : j = j' := by
  have hlt := h.lt
  have hlt' := h'.lt
  have hbehind := h.depth_behind
  have hbehind' := h'.depth_behind
  rcases Nat.lt_trichotomy j j' with hless | heq | hless
  · have hdepth := h'.depth_lt (show i < j + 1 by omega) hless
    omega
  · exact heq
  · have hdepth := h.depth_lt (show i < j' + 1 by omega) hless
    omega

/-- A closing bracket has one partner. -/
theorem left_unique (h : Paired ops i j) (h' : Paired ops i' j) : i = i' := by
  have hlt := h.lt
  have hlt' := h'.lt
  have hbehind := h.depth_behind
  have hbehind' := h'.depth_behind
  rcases Nat.lt_trichotomy i i' with hless | heq | hless
  · have hdepth := h.depth_lt hless (by omega)
    omega
  · exact heq
  · have hdepth := h'.depth_lt hless (by omega)
    omega

end Paired

end

/-- A closing bracket without a partner, and the first of them. -/
structure FirstUnopened (ops : List TapeOp) (j : ℕ) : Prop where
  closes : ops[j]? = some .closeLoop
  alone : ∀ i, ¬ Paired ops i j
  first : ∀ j' < j, ops[j']? = some .closeLoop → ∃ i, Paired ops i j'

/-- An opening bracket without a partner, and the last of them, where all closing brackets have partners. -/
structure LastUnclosed (ops : List TapeOp) (i : ℕ) : Prop where
  opens : ops[i]? = some .openLoop
  alone : ∀ j, ¬ Paired ops i j
  last : ∀ i', i < i' → ops[i']? = some .openLoop → ∃ j, Paired ops i' j
  closed : ∀ j, ops[j]? = some .closeLoop → ∃ i, Paired ops i j

/-! ## The stack -/

/-- The places of the loops that are open in front of a place, the innermost first. Behind each of them the depth
stays above what it was there. -/
def Opened (ops : List TapeOp) : ℕ → List ℕ → Prop
  | k, [] => depthAt ops k = 0 ∧ Stays ops 0 0 k
  | k, i :: outer => i < k ∧ ops[i]? = some .openLoop ∧ depthAt ops k = depthAt ops i + 1 ∧
      Stays ops (depthAt ops i + 1) (i + 1) k ∧ Opened ops i outer

namespace Opened

variable {ops : List TapeOp} {i k : ℕ} {opened outer : List ℕ}

/-- An operation that is no bracket leaves the stack alone. -/
theorem act {o : TapeOp} (h : Opened ops k opened) (ho : ops[k]? = some o) (hno : o.nesting = 0) :
    Opened ops (k + 1) opened := by
  have hdepth := depthAt_succ ho
  cases opened with
  | nil =>
    obtain ⟨hzero, hlow⟩ := h
    exact ⟨by omega, hlow.succ (by omega)⟩
  | cons i outer =>
    obtain ⟨hik, hopens, hends, habove, houter⟩ := h
    exact ⟨by omega, hopens, by omega, habove.succ (by omega), houter⟩

/-- An opening bracket goes on top. -/
theorem push (h : Opened ops k opened) (ho : ops[k]? = some .openLoop) : Opened ops (k + 1) (k :: opened) := by
  have hdepth := depthAt_open ho
  refine ⟨by omega, ho, hdepth, ?_, h⟩
  intro l hkl hl
  obtain rfl : l = k + 1 := by omega
  omega

/-- **A closing bracket belongs to the place on top.** -/
theorem paired (h : Opened ops k (i :: outer)) (hc : ops[k]? = some .closeLoop) : Paired ops i k := by
  obtain ⟨hik, hopens, hends, habove, -⟩ := h
  exact paired_iff.2 ⟨hik, hopens, hc, hends, habove⟩

/-- Behind a closing bracket the place on top is gone. -/
theorem pop (h : Opened ops k (i :: outer)) (hc : ops[k]? = some .closeLoop) : Opened ops (k + 1) outer := by
  have hbehind := (h.paired hc).depth_behind
  obtain ⟨hik, -, -, habove, houter⟩ := h
  -- what is below the depth of the pair neither comes inside of it nor behind it
  cases outer with
  | nil =>
    obtain ⟨hzero, hlow⟩ := houter
    have hinside := hlow.trans habove (by omega)
    exact ⟨by omega, hinside.succ (by omega)⟩
  | cons i' outer' =>
    obtain ⟨hlt, hopens', hends', habove', houter'⟩ := houter
    have hinside := habove'.trans habove (by omega)
    exact ⟨by omega, hopens', by omega, hinside.succ (by omega), houter'⟩

/-- No place on the stack lies behind the one on top. -/
theorem le_top (h : Opened ops k (i :: outer)) : ∀ l ∈ i :: outer, l ≤ i := by
  obtain ⟨-, -, -, -, houter⟩ := h
  induction outer generalizing i with
  | nil => simp
  | cons i' outer ih =>
    obtain ⟨hi'i, -, -, -, houter'⟩ := houter
    intro l hl
    rcases List.mem_cons.1 hl with rfl | hl
    · exact Nat.le_refl _
    · have hle := ih houter' l hl
      omega

end Opened

/-! ## The pass -/

/-- What the pass knows in front of a place: the stack, and a table of the pairs that have been closed. -/
structure Passed (ops : List TapeOp) (k : ℕ) (opened : List ℕ) (t : Partners) : Prop where
  size : t.size = ops.length
  stack : Opened ops k opened
  table : ∀ p q, t.get? p = some q ↔ q < k ∧ Paired ops p q ∨ p < k ∧ Paired ops q p
  closed : ∀ j < k, ops[j]? = some .closeLoop → ∃ i, Paired ops i j
  opens : ∀ i < k, ops[i]? = some .openLoop → i ∈ opened ∨ ∃ j < k, Paired ops i j

theorem passed_start (ops : List TapeOp) : Passed ops 0 [] (Array.replicate ops.length none) where
  size := Array.size_replicate
  stack := by
    have hzero : depthAt ops 0 = 0 := by simp [depthAt, depthOf]
    refine ⟨hzero, ?_⟩
    intro l _ hl
    obtain rfl : l = 0 := by omega
    omega
  table := by
    intro p q
    have hnone : Partners.get? (Array.replicate ops.length none) p = none := by
      rw [Partners.get?, Array.getElem?_replicate]
      split <;> rfl
    simp [hnone]
  closed := by
    intro j hj
    omega
  opens := by
    intro i hi
    omega

namespace Passed

variable {ops : List TapeOp} {i k : ℕ} {opened outer : List ℕ} {t : Partners}

/-- A place that holds no closing bracket closes no pair. -/
theorem table_succ (h : Passed ops k opened t) (hk : ops[k]? ≠ some .closeLoop) (p q : ℕ) :
    t.get? p = some q ↔ q < k + 1 ∧ Paired ops p q ∨ p < k + 1 ∧ Paired ops q p := by
  have hother (a b : ℕ) : b < k + 1 ∧ Paired ops a b ↔ b < k ∧ Paired ops a b := by
    constructor
    · rintro ⟨hb, hab⟩
      have hne : b ≠ k := by
        rintro rfl
        exact hk hab.closes
      exact ⟨by omega, hab⟩
    · rintro ⟨hb, hab⟩
      exact ⟨by omega, hab⟩
  rw [h.table p q, hother, hother]

/-- **An operation that is no bracket.** -/
theorem act {o : TapeOp} (h : Passed ops k opened t) (ho : ops[k]? = some o) (hno : o.nesting = 0) :
    Passed ops (k + 1) opened t := by
  have hnotClose : ops[k]? ≠ some .closeLoop := by
    rw [ho]
    rintro ⟨⟩
    cases hno
  have hnotOpen : ops[k]? ≠ some .openLoop := by
    rw [ho]
    rintro ⟨⟩
    cases hno
  refine ⟨h.size, h.stack.act ho hno, h.table_succ hnotClose, ?_, ?_⟩
  · intro j hj hc
    have hne : j ≠ k := by
      rintro rfl
      exact hnotClose hc
    exact h.closed j (by omega) hc
  · intro i hi hopens
    have hne : i ≠ k := by
      rintro rfl
      exact hnotOpen hopens
    obtain hin | ⟨j, hj, hpair⟩ := h.opens i (by omega) hopens
    · exact .inl hin
    · exact .inr ⟨j, by omega, hpair⟩

/-- **An opening bracket.** -/
theorem push (h : Passed ops k opened t) (ho : ops[k]? = some .openLoop) : Passed ops (k + 1) (k :: opened) t := by
  have hnotClose : ops[k]? ≠ some .closeLoop := by simp [ho]
  refine ⟨h.size, h.stack.push ho, h.table_succ hnotClose, ?_, ?_⟩
  · intro j hj hc
    have hne : j ≠ k := by
      rintro rfl
      exact hnotClose hc
    exact h.closed j (by omega) hc
  · intro i hi hopens
    by_cases hik : i = k
    · exact .inl (hik ▸ List.mem_cons_self)
    · obtain hin | ⟨j, hj, hpair⟩ := h.opens i (by omega) hopens
      · exact .inl (List.mem_cons_of_mem _ hin)
      · exact .inr ⟨j, by omega, hpair⟩

/-- Joining a pair adds it to the table: before, neither of its places had a partner. -/
theorem table_join (h : Passed ops k opened t) (hpair : Paired ops i k) (p q : ℕ) :
    (t.join i k).get? p = some q ↔ q < k + 1 ∧ Paired ops p q ∨ p < k + 1 ∧ Paired ops q p := by
  have hik := hpair.lt
  obtain ⟨hk, -⟩ := List.getElem?_eq_some_iff.1 hpair.closes
  have hsize := h.size
  by_cases hpk : p = k
  · subst hpk
    rw [Partners.get?_join_right (by omega)]
    constructor
    · intro hq
      obtain rfl := Option.some.inj hq
      exact .inr ⟨by omega, hpair⟩
    · rintro (⟨hq, hpq⟩ | ⟨-, hqp⟩)
      · have hlt := hpq.lt
        omega
      · rw [hpair.left_unique hqp]
  · by_cases hpi : p = i
    · subst hpi
      rw [Partners.get?_join_left (by omega) hpk]
      constructor
      · intro hq
        obtain rfl := Option.some.inj hq
        exact .inl ⟨by omega, hpair⟩
      · rintro (⟨-, hpq⟩ | ⟨-, hqp⟩)
        · rw [hpair.right_unique hpq]
        · -- an opening bracket closes nothing
          have hboth := hpair.opens.symm.trans hqp.closes
          cases hboth
    · rw [Partners.get?_join_of_ne hpi hpk, h.table p q]
      constructor
      · rintro (⟨hq, hpq⟩ | ⟨hp, hqp⟩)
        · exact .inl ⟨by omega, hpq⟩
        · exact .inr ⟨by omega, hqp⟩
      · rintro (⟨hq, hpq⟩ | ⟨hp, hqp⟩)
        · have hne : q ≠ k := by
            rintro rfl
            exact hpi (hpq.left_unique hpair)
          exact .inl ⟨by omega, hpq⟩
        · exact .inr ⟨by omega, hqp⟩

/-- **A closing bracket.** -/
theorem pop (h : Passed ops k (i :: outer) t) (hc : ops[k]? = some .closeLoop) :
    Passed ops (k + 1) outer (t.join i k) := by
  have hpair := h.stack.paired hc
  refine ⟨(Partners.size_join _ _ _).trans h.size, h.stack.pop hc, h.table_join hpair, ?_, ?_⟩
  · intro j hj hclose
    by_cases hjk : j = k
    · exact ⟨i, hjk ▸ hpair⟩
    · exact h.closed j (by omega) hclose
  · intro l hl hopens
    have hne : l ≠ k := by
      rintro rfl
      cases hopens.symm.trans hc
    obtain hin | ⟨j, hj, hlj⟩ := h.opens l (by omega) hopens
    · rcases List.mem_cons.1 hin with rfl | hin
      · exact .inr ⟨k, by omega, hpair⟩
      · exact .inl hin
    · exact .inr ⟨j, by omega, hlj⟩

/-- **A closing bracket that finds the stack empty has no partner**, and is the first one. -/
theorem firstUnopened (h : Passed ops k [] t) (hc : ops[k]? = some .closeLoop) : FirstUnopened ops k := by
  refine ⟨hc, ?_, h.closed⟩
  intro i hpair
  obtain ⟨hzero, hlow⟩ := h.stack
  have hlt := hpair.lt
  have hdepth := hpair.depth_lt hlt (Nat.le_refl _)
  have hbegin := hlow i (Nat.zero_le _) (by omega)
  omega

/-- In the end every closing bracket has a partner. -/
theorem exists_left (h : Passed ops ops.length opened t) (hc : ops[k]? = some .closeLoop) : ∃ i, Paired ops i k := by
  obtain ⟨hlt, -⟩ := List.getElem?_eq_some_iff.1 hc
  exact h.closed k hlt hc

/-- **The place on top at the end has no partner**, and is the last one. -/
theorem lastUnclosed (h : Passed ops ops.length (i :: outer) t) : LastUnclosed ops i := by
  have htop := h.stack.le_top
  obtain ⟨hi, hopens, -, habove, -⟩ := h.stack
  refine ⟨hopens, ?_, ?_, fun j hc => h.exists_left hc⟩
  · intro j hpair
    obtain ⟨hj, -⟩ := List.getElem?_eq_some_iff.1 hpair.closes
    have hlt := hpair.lt
    have hbehind := hpair.depth_behind
    have hdepth := habove (j + 1) (by omega) (by omega)
    omega
  · intro i' hi' hopens'
    obtain ⟨hlt, -⟩ := List.getElem?_eq_some_iff.1 hopens'
    obtain hin | ⟨j, -, hpair⟩ := h.opens i' hlt hopens'
    · have hle := htop i' hin
      omega
    · exact ⟨j, hpair⟩

/-- If the stack is empty in the end, every opening bracket has a partner. -/
theorem exists_right (h : Passed ops ops.length [] t) (ho : ops[i]? = some .openLoop) : ∃ j, Paired ops i j := by
  obtain ⟨hlt, -⟩ := List.getElem?_eq_some_iff.1 ho
  obtain hin | ⟨j, -, hpair⟩ := h.opens i hlt ho
  · cases hin
  · exact ⟨j, hpair⟩

/-- **An empty stack in the end means balance.** -/
theorem balanced (h : Passed ops ops.length [] t) : Balanced ops := by
  obtain ⟨hzero, hlow⟩ := h.stack
  rw [depthAt, List.take_length] at hzero
  exact ⟨hzero, fun k hk => hlow k (Nat.zero_le _) hk⟩

end Passed

/-- How a pass can end. -/
inductive PassEnd (ops : List TapeOp) : Except MachineFault Unit × Partners → Prop
  | complete {t : Partners} (h : Passed ops ops.length [] t) : PassEnd ops (.ok (), t)
  | unopened {t : Partners} {j : ℕ} (h : FirstUnopened ops j) : PassEnd ops (.error (.unmatchedClose j), t)
  | unclosed {t : Partners} {i : ℕ} (h : LastUnclosed ops i) : PassEnd ops (.error (.unmatchedOpen i), t)

/-- **How the pass ends**, by induction along the operations that are left. -/
theorem pairFrom_drop {ops : List TapeOp} {k : ℕ} {opened : List ℕ} {t : Partners} (h : Passed ops k opened t)
    (hk : k ≤ ops.length) : PassEnd ops (pairFrom k opened t (ops.drop k)) := by
  generalize hrest : ops.drop k = rest
  induction rest generalizing k opened t with
  | nil =>
    have hlength := List.drop_eq_nil_iff.1 hrest
    obtain rfl : k = ops.length := by omega
    cases opened with
    | nil => exact .complete h
    | cons i outer => exact .unclosed h.lastUnclosed
  | cons o rest ih =>
    have ho : ops[k]? = some o := by
      rw [← List.head?_drop, hrest]
      rfl
    have hnext : ops.drop (k + 1) = rest := by
      rw [← List.tail_drop, hrest]
      rfl
    obtain ⟨hlt, -⟩ := List.getElem?_eq_some_iff.1 ho
    -- each step keeps what is known of the pass, or ends it
    rcases o.bracket_or_action with rfl | rfl | ⟨a, rfl⟩
    · exact ih (h.push ho) hlt hnext
    · cases opened with
      | nil => exact .unopened (h.firstUnopened ho)
      | cons i outer => exact ih (h.pop ho) hlt hnext
    · rw [pairFrom_toOp]
      exact ih (h.act ho a.nesting_toOp) hlt hnext

theorem pairUp_ends (ops : List TapeOp) : PassEnd ops (pairUp ops) :=
  pairFrom_drop (passed_start ops) (Nat.zero_le _)

/-! ## When the pass is complete -/

section

variable {ops : List TapeOp} {i j : ℕ}

theorem FirstUnopened.unique (h : FirstUnopened ops i) (h' : FirstUnopened ops j) : i = j := by
  rcases Nat.lt_trichotomy i j with hlt | heq | hlt
  · obtain ⟨l, hpair⟩ := h'.first i hlt h.closes
    exact absurd hpair (h.alone l)
  · exact heq
  · obtain ⟨l, hpair⟩ := h.first j hlt h'.closes
    exact absurd hpair (h'.alone l)

theorem LastUnclosed.unique (h : LastUnclosed ops i) (h' : LastUnclosed ops j) : i = j := by
  rcases Nat.lt_trichotomy i j with hlt | heq | hlt
  · obtain ⟨l, hpair⟩ := h.last j hlt h'.opens
    exact absurd hpair (h'.alone l)
  · exact heq
  · obtain ⟨l, hpair⟩ := h'.last i hlt h.opens
    exact absurd hpair (h.alone l)

/-- **The pass is complete just for balanced programs.** -/
theorem pairUp_ok_iff : (pairUp ops).1 = .ok () ↔ Balanced ops := by
  constructor
  · intro hok
    have hends := pairUp_ends ops
    generalize pairUp ops = r at hok hends
    cases hends with
    | complete h => exact h.balanced
    | unopened h | unclosed h => cases hok
  · intro hbalanced
    obtain ⟨b, rfl⟩ := exists_tree_of_balanced hbalanced
    obtain ⟨t, hpair, -⟩ := pairUp_ops b
    rw [hpair]

/-- **A bracket that the pass refuses** is a closing one without a partner, or there is none of these and it is an
opening one. -/
theorem pairUp_error_iff {f : MachineFault} : (pairUp ops).1 = .error f ↔
    (∃ j, f = .unmatchedClose j ∧ FirstUnopened ops j) ∨ ∃ i, f = .unmatchedOpen i ∧ LastUnclosed ops i := by
  have hends := pairUp_ends ops
  generalize pairUp ops = r at hends
  cases hends with
  | complete h =>
    constructor
    · intro hf
      cases hf
    · -- all brackets have partners
      rintro (⟨j, -, hj⟩ | ⟨i, -, hi⟩)
      · obtain ⟨i, hpair⟩ := h.exists_left hj.closes
        exact absurd hpair (hj.alone i)
      · obtain ⟨j, hpair⟩ := h.exists_right hi.opens
        exact absurd hpair (hi.alone j)
  | @unopened _ j h =>
    constructor
    · intro hf
      exact .inl ⟨j, (Except.error.inj hf).symm, h⟩
    · rintro (⟨j', rfl, hj'⟩ | ⟨i, -, hi⟩)
      · rw [h.unique hj']
      · obtain ⟨l, hpair⟩ := hi.closed j h.closes
        exact absurd hpair (h.alone l)
  | @unclosed _ i h =>
    constructor
    · intro hf
      exact .inr ⟨i, (Except.error.inj hf).symm, h⟩
    · rintro (⟨j, -, hj⟩ | ⟨i', rfl, hi'⟩)
      · obtain ⟨l, hpair⟩ := h.closed j hj.closes
        exact absurd hpair (hj.alone l)
      · rw [h.unique hi']

end

/-! ## The table -/

/-- A table joins the brackets that belong together, and nothing else. -/
structure Partners.Pairs (t : Partners) (ops : List TapeOp) : Prop where
  /-- It has an entry for every bracket and for no other place. -/
  domain : ∀ p, (∃ q, t.get? p = some q) ↔ ops[p]? = some .openLoop ∨ ops[p]? = some .closeLoop
  /-- The partner of the partner of a bracket is the bracket. -/
  involutive : ∀ p q, t.get? p = some q → t.get? q = some p
  /-- An opening bracket has its partner behind it, and what stands strictly between them is balanced. -/
  opening : ∀ i, ops[i]? = some .openLoop → ∃ j, t.get? i = some j ∧ Paired ops i j
  /-- A bracket strictly inside of a pair has its partner strictly inside of it. -/
  nested : ∀ i j, t.get? i = some j → i < j → ∀ p q, t.get? p = some q → i < p → p < j → i < q ∧ q < j

/-- A bracket strictly inside of a pair belongs to one strictly inside of it. -/
theorem Paired.inside {ops : List TapeOp} {i j p q : ℕ} (h : Paired ops i j)
    (hpq : Paired ops p q ∨ Paired ops q p) (hip : i < p) (hpj : p < j) : i < q ∧ q < j := by
  rcases hpq with hpq | hqp
  · have hlt := hpq.lt
    exact ⟨by omega, h.nested hpq hip hpj⟩
  · have hlt := hqp.lt
    refine ⟨?_, by omega⟩
    rcases Nat.lt_trichotomy i q with hiq | rfl | hqi
    · exact hiq
    · have heq := h.right_unique hqp
      omega
    · have hjp := hqp.nested h hqi hip
      omega

/-- **The table of a balanced program.** -/
theorem pairUp_pairs {ops : List TapeOp} (hok : (pairUp ops).1 = .ok ()) : (pairUp ops).2.Pairs ops := by
  have hends := pairUp_ends ops
  generalize pairUp ops = r at hok hends
  cases hends with
  | unopened h | unclosed h => cases hok
  | @complete t h =>
    have hget (p q : ℕ) : t.get? p = some q ↔ Paired ops p q ∨ Paired ops q p := by
      rw [h.table p q]
      constructor
      · rintro (⟨-, hpq⟩ | ⟨-, hqp⟩)
        · exact .inl hpq
        · exact .inr hqp
      · rintro (hpq | hqp)
        · obtain ⟨hlt, -⟩ := List.getElem?_eq_some_iff.1 hpq.closes
          exact .inl ⟨hlt, hpq⟩
        · obtain ⟨hlt, -⟩ := List.getElem?_eq_some_iff.1 hqp.closes
          exact .inr ⟨hlt, hqp⟩
    refine ⟨?_, ?_, ?_, ?_⟩
    · intro p
      constructor
      · rintro ⟨q, hq⟩
        rcases (hget p q).1 hq with hpq | hqp
        · exact .inl hpq.opens
        · exact .inr hqp.closes
      · rintro (ho | hc)
        · obtain ⟨q, hpq⟩ := h.exists_right ho
          exact ⟨q, (hget p q).2 (.inl hpq)⟩
        · obtain ⟨q, hqp⟩ := h.exists_left hc
          exact ⟨q, (hget p q).2 (.inr hqp)⟩
    · intro p q hpq
      exact (hget q p).2 ((hget p q).1 hpq).symm
    · intro i ho
      obtain ⟨j, hpair⟩ := h.exists_right ho
      exact ⟨j, (hget i j).2 (.inl hpair), hpair⟩
    · intro i j hij hlt p q hpq
      rcases (hget i j).1 hij with hpair | hpair
      · exact hpair.inside ((hget p q).1 hpq)
      · have hlt' := hpair.lt
        omega

/-! ## Loading and running -/

/-- What a machine can rely on at any time: it is at a place of its program or behind it, the head is on the tape, and
the next step is not refused. -/
structure Machine.Safe (m : Machine) (ops : List TapeOp) (size : ℕ) : Prop where
  program : m.program = ops.toArray
  pc : m.pc ≤ ops.length
  tape : m.tape.size = size
  pointer : m.pointer < size
  cells : ∀ b ∈ m.tape, b.toNat ≤ 255
  step : m.step.1 = .ok ()

theorem Machine.Starts.safe {m : Machine} {b : LoopTree} (h : m.Starts b) (n : ℕ) :
    (m.after n).Safe b.ops m.tape.size := by
  have hstep := step_after_ok h n
  obtain ⟨k, s, j, heq, hvisits⟩ := after_visits h n
  rw [heq] at hstep ⊢
  have hsize : s.tape.size = m.tape.size := by
    refine hvisits.keeps (P := fun s => s.tape.size = m.tape.size) ?_ rfl
    intro s a hs
    rw [Action.size_apply, hs]
  have hhead : s.pointer < s.tape.size := onTape_of_visits hvisits h.onTape
  refine ⟨h.program, hvisits.le_length, hsize, hsize ▸ hhead, ?_, hstep⟩
  intro c _
  have hbyte := c.toNat_lt
  omega

/-- **Brackets are checked once, and the machine is safe.** A program is loaded if and only if it is balanced. The
bracket that is refused is the first closing one without a partner, or the last opening one if there is no such. Once
the program is loaded, the table pairs up its brackets, and on a tape with at least one cell every step is made
inside of the program and on the tape, and none is refused. -/
theorem load_pairs_iff_balanced (m : Machine) (text input : String) :
    ((m.load text input).1 = .ok () ↔ Balanced (TapeOp.program text)) ∧
    (∀ f, (m.load text input).1 = .error f ↔
      (∃ j, f = .unmatchedClose j ∧ f.message = s!"Unmatched ']' at {j}" ∧ FirstUnopened (TapeOp.program text) j) ∨
      ∃ i, f = .unmatchedOpen i ∧ f.message = s!"Unmatched '[' at {i}" ∧ LastUnclosed (TapeOp.program text) i) ∧
    ((m.load text input).1 = .ok () →
      (m.load text input).2.partners.Pairs (TapeOp.program text) ∧
      (0 < m.tape.size → ∀ n, ((m.load text input).2.after n).Safe (TapeOp.program text) m.tape.size)) := by
  have hload : (m.load text input).1 = (pairUp (TapeOp.program text)).1 := rfl
  refine ⟨?_, ?_, ?_⟩
  · rw [hload]
    exact pairUp_ok_iff
  · intro f
    rw [hload, pairUp_error_iff]
    constructor
    · rintro (⟨j, rfl, hj⟩ | ⟨i, rfl, hi⟩)
      · exact .inl ⟨j, rfl, rfl, hj⟩
      · exact .inr ⟨i, rfl, rfl, hi⟩
    · rintro (⟨j, rfl, -, hj⟩ | ⟨i, rfl, -, hi⟩)
      · exact .inl ⟨j, rfl, hj⟩
      · exact .inr ⟨i, rfl, hi⟩
  · intro hok
    refine ⟨pairUp_pairs hok, ?_⟩
    intro hsize n
    obtain ⟨b, hb⟩ := exists_tree_of_balanced (pairUp_ok_iff.1 hok)
    -- a load keeps nothing of the machine but the number of cells
    have hreset : (m.load text input) = (Machine.blank m.tape.size).load text input := by
      simp [Machine.load, Machine.reset, Machine.blank]
    obtain ⟨m', hm', hstarts, hconfig⟩ := Machine.starts_load m.tape.size hsize hb.symm input
    have htape : m'.tape.size = m.tape.size := by
      have h := congrArg (fun s => s.tape.size) hconfig
      simpa [Machine.config] using h
    rw [hreset, hm', ← hb, ← htape]
    exact hstarts.safe n

theorem load_pairs_iff_balanced_countdown :
    ((Machine.blank 2).load countdownText "").1 = .ok () ∧
      ((Machine.blank 2).load countdownText "").2.partners.Pairs (TapeOp.program countdownText) ∧
      (∀ n, (((Machine.blank 2).load countdownText "").2.after n).Safe (TapeOp.program countdownText) 2) ∧
      FirstUnopened (TapeOp.program "[-]] [") 3 ∧ LastUnclosed (TapeOp.program "[ [-] [") 4 := by
  have hok : ((Machine.blank 2).load countdownText "").1 = .ok () := by decide +kernel
  have hclose : ((Machine.blank 2).load "[-]] [" "").1 = .error (.unmatchedClose 3) := by decide +kernel
  have hopen : ((Machine.blank 2).load "[ [-] [" "").1 = .error (.unmatchedOpen 4) := by decide +kernel
  obtain ⟨hpairs, hsafe⟩ := (load_pairs_iff_balanced (.blank 2) countdownText "").2.2 hok
  refine ⟨hok, hpairs, hsafe (by decide), ?_, ?_⟩
  · obtain ⟨j, hj, -, hfirst⟩ | ⟨i, hi, -⟩ := ((load_pairs_iff_balanced (.blank 2) "[-]] [" "").2.1 _).1 hclose
    · cases hj
      exact hfirst
    · cases hi
  · obtain ⟨j, hj, -⟩ | ⟨i, hi, -, hlast⟩ := ((load_pairs_iff_balanced (.blank 2) "[ [-] [" "").2.1 _).1 hopen
    · cases hj
    · cases hi
      exact hlast

end TapeCompiler
