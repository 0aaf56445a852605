import TapeCompiler.Proofs.Machine.LoopTree

/-!
# Brackets of a tree are paired up

* `Linked`: a table of partners joins the two brackets of every loop of a tree.
* `pairUp_ops`: **pairing up the brackets of a tree succeeds and links the tree.**
-/

namespace TapeCompiler

namespace Partners

@[simp]
theorem size_join (t : Partners) (i j : ℕ) : (t.join i j).size = t.size := by
  simp [join]

theorem get?_join_right {t : Partners} {i j : ℕ} (hj : j < t.size) :
    (t.join i j).get? j = some i := by
  simp [join, get?, hj]

theorem get?_join_left {t : Partners} {i j : ℕ} (hi : i < t.size) (hij : i ≠ j) :
    (t.join i j).get? i = some j := by
  simp [join, get?, hi, hij.symm]

theorem get?_join_of_ne {t : Partners} {i j k : ℕ} (hi : k ≠ i) (hj : k ≠ j) :
    (t.join i j).get? k = t.get? k := by
  simp [join, get?, Array.getElem?_setIfInBounds_ne, hi.symm, hj.symm]

end Partners

/-- The table joins the two brackets of every loop of a tree that starts at place `i`. -/
def Linked (t : Partners) (i : ℕ) : LoopTree → Prop
  | .empty => True
  | .act _ next => Linked t (i + 1) next
  | .loop body next =>
    t.get? i = some (i + 1 + body.ops.length) ∧ t.get? (i + 1 + body.ops.length) = some i ∧
      Linked t (i + 1) body ∧ Linked t (i + 1 + body.ops.length + 1) next

/-- Only the places of the tree matter. -/
theorem Linked.congr {t t' : Partners} {i : ℕ} {b : LoopTree} (h : Linked t i b)
    (hsame : ∀ j, i ≤ j → j < i + b.ops.length → t'.get? j = t.get? j) : Linked t' i b := by
  induction b generalizing i with
  | empty => trivial
  | act a next ih =>
    simp only [LoopTree.ops, List.length_cons] at hsame
    exact ih h fun j h1 h2 => hsame j (by omega) (by omega)
  | loop body next ihb ihn =>
    simp only [LoopTree.ops, List.length_cons, List.length_append] at hsame
    obtain ⟨hopen, hclose, hb, hn⟩ := h
    refine ⟨?_, ?_, ?_, ?_⟩
    · rw [hsame i (by omega) (by omega), hopen]
    · rw [hsame _ (by omega) (by omega), hclose]
    · exact ihb hb fun j h1 h2 => hsame j (by omega) (by omega)
    · exact ihn hn fun j h1 h2 => hsame j (by omega) (by omega)

theorem pairFrom_toOp (a : Action) (i : ℕ) (opened : List ℕ) (t : Partners) (ops : List TapeOp) :
    pairFrom i opened t (a.toOp :: ops) = pairFrom (i + 1) opened t ops := by
  cases a <;> rfl

/-- Pairing goes through a tree, links it and touches nothing else. -/
theorem pairFrom_ops (b : LoopTree) (i : ℕ) (t : Partners) (hsize : i + b.ops.length ≤ t.size) :
    ∃ t' : Partners, t'.size = t.size ∧ Linked t' i b ∧
      (∀ j, j < i ∨ i + b.ops.length ≤ j → t'.get? j = t.get? j) ∧
      ∀ opened rest,
        pairFrom i opened t (b.ops ++ rest) = pairFrom (i + b.ops.length) opened t' rest := by
  induction b generalizing i t with
  | empty => exact ⟨t, rfl, trivial, fun _ _ => rfl, fun _ _ => rfl⟩
  | act a next ih =>
    simp only [LoopTree.ops, List.length_cons] at hsize ⊢
    obtain ⟨t', hsz, hlink, hsame, hpair⟩ := ih (i + 1) t (by omega)
    refine ⟨t', hsz, hlink, fun j hj => hsame j (by omega), ?_⟩
    intro opened rest
    rw [List.cons_append, pairFrom_toOp, hpair]
    congr 1; omega
  | loop body next ihb ihn =>
    simp only [LoopTree.ops, List.length_cons, List.length_append] at hsize ⊢
    set j := i + 1 + body.ops.length with hj
    obtain ⟨t₁, hsz₁, hlink₁, hsame₁, hpair₁⟩ := ihb (i + 1) t (by omega)
    obtain ⟨t₂, hsz₂, hlink₂, hsame₂, hpair₂⟩ := ihn (j + 1) (t₁.join i j) (by simp; omega)
    -- what comes behind the loop leaves its brackets and its body alone
    have hbrackets : ∀ k, k ≤ j → t₂.get? k = (t₁.join i j).get? k := fun k hk =>
      hsame₂ k (by omega)
    refine ⟨t₂, by simp [hsz₂, hsz₁], ⟨?_, ?_, ?_, hlink₂⟩, ?_, ?_⟩
    · rw [hbrackets i (by omega), Partners.get?_join_left (by omega) (by omega)]
    · rw [hbrackets _ (by omega), Partners.get?_join_right (by omega)]
    · refine hlink₁.congr fun k hk hk' => ?_
      rw [hbrackets k (by omega), Partners.get?_join_of_ne (by omega) (by omega)]
    · intro k hk
      rw [hsame₂ k (by omega), Partners.get?_join_of_ne (by omega) (by omega), hsame₁ k (by omega)]
    · intro opened rest
      have hstart : pairFrom i opened t
          (.openLoop :: (body.ops ++ .closeLoop :: next.ops) ++ rest) =
          pairFrom (i + 1) (i :: opened) t (body.ops ++ .closeLoop :: (next.ops ++ rest)) := by
        simp [pairFrom]
      rw [hstart, hpair₁, ← hj, pairFrom, hpair₂]
      congr 1; omega

/-- **Pairing up the brackets of a tree succeeds and links the tree.** -/
theorem pairUp_ops (b : LoopTree) : ∃ t, pairUp b.ops = (.ok (), t) ∧ Linked t 0 b := by
  obtain ⟨t, -, hlink, -, hpair⟩ := pairFrom_ops b 0 (Array.replicate b.ops.length none) (by simp)
  have h := hpair [] []
  rw [List.append_nil] at h
  exact ⟨t, h, hlink⟩

end TapeCompiler
