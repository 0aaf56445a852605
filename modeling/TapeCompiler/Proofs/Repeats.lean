import Mathlib.Logic.Function.Iterate
import Mathlib.Logic.Relation
import Mathlib.Tactic.Common

/-!
# Loops as relations

A loop repeats its body as long as a test holds. Bodies are relations between a state before and a
state after, so that a body that never ends relates its state to nothing.

* `Passes`, `Repeats`: some passes of a loop, and all of them.
* `passes_map`, `repeats_map`: **a loop on encoded states is the encoded loop.** Both directions hold,
  so the one loop ends if and only if the other does.
* `repeats_congr`: bodies that do the same make the same loop.
* `repeats_countdown`: a loop that counts down to zero runs its body that many times.
-/

namespace TapeCompiler

variable {σ τ : Type}

/-- Whole passes of a loop: the test holds before each of them. -/
def Passes (test : σ → Prop) (body : σ → σ → Prop) : σ → σ → Prop :=
  Relation.ReflTransGen fun s t => test s ∧ body s t

/-- All passes of a loop: afterwards the test fails. -/
def Repeats (test : σ → Prop) (body : σ → σ → Prop) (s t : σ) : Prop :=
  Passes test body s t ∧ ¬ test t

section

variable {test : σ → Prop} {body : σ → σ → Prop} {s t u : σ}

theorem Passes.refl (s : σ) : Passes test body s s :=
  Relation.ReflTransGen.refl

theorem Passes.next (h : Passes test body s u) (htest : test u) (hbody : body u t) :
    Passes test body s t :=
  h.tail ⟨htest, hbody⟩

/-- What each pass keeps, all passes keep. -/
theorem Passes.keeps {P : σ → Prop} (h : Passes test body s t) (hs : P s)
    (hstep : ∀ u v, P u → test u → body u v → P v) : P t := by
  induction h with
  | refl => exact hs
  | tail _ hlast ih => exact hstep _ _ ih hlast.1 hlast.2

/-- A loop whose first pass makes the test fail starts no second one. -/
theorem Passes.eq_of_once (h : Passes test body s t) (honce : ∀ u, body s u → ¬ test u) (ht : test t) :
    t = s := by
  rcases h.cases_head with rfl | ⟨u, ⟨-, hu⟩, hrest⟩
  · rfl
  · have hstop := honce u hu
    rcases hrest.cases_head with rfl | ⟨v, ⟨hv, -⟩, -⟩
    · exact absurd ht hstop
    · exact absurd hv hstop

theorem Repeats.done (h : ¬ test s) : Repeats test body s s :=
  ⟨Passes.refl s, h⟩

theorem Repeats.again (htest : test s) (hbody : body s u) (h : Repeats test body u t) :
    Repeats test body s t :=
  ⟨h.1.head ⟨htest, hbody⟩, h.2⟩

/-- A loop whose test fails at once does nothing. -/
theorem repeats_of_not (h : ¬ test s) : Repeats test body s t ↔ t = s := by
  constructor
  · rintro ⟨hp, -⟩
    rcases hp.cases_head with rfl | ⟨u, hu, -⟩
    · rfl
    · exact absurd hu.1 h
  · rintro rfl
    exact Repeats.done h

/-- A loop whose test holds makes a pass and starts over. -/
theorem repeats_of_test (h : test s) :
    Repeats test body s t ↔ ∃ u, body s u ∧ Repeats test body u t := by
  constructor
  · rintro ⟨hp, ht⟩
    rcases hp.cases_head with rfl | ⟨u, hu, hrest⟩
    · exact absurd h ht
    · exact ⟨u, hu.2, hrest, ht⟩
  · rintro ⟨u, hu, hr⟩
    exact hr.again h hu

end

section

variable {test : σ → Prop} {body : σ → σ → Prop} {test' : τ → Prop} {body' : τ → τ → Prop}

variable {f : σ → τ} {I : σ → Prop} {s : σ} {t : τ}

/-- Passes on encoded states are encoded passes, for states with an invariant of the passes. -/
theorem passes_map (htest : ∀ s, I s → (test' (f s) ↔ test s))
    (hbody : ∀ s, I s → test s → ∀ t, body' (f s) t ↔ ∃ u, body s u ∧ t = f u)
    (hkeep : ∀ s u, I s → test s → body s u → I u) (hs : I s) :
    Passes test' body' (f s) t ↔ ∃ u, Passes test body s u ∧ I u ∧ t = f u := by
  constructor
  · intro h
    induction h with
    | refl => exact ⟨s, Passes.refl s, hs, rfl⟩
    | tail _ hlast ih =>
      obtain ⟨u, hu, hI, rfl⟩ := ih
      have htu := (htest u hI).1 hlast.1
      obtain ⟨v, hv, rfl⟩ := (hbody u hI htu _).1 hlast.2
      exact ⟨v, hu.next htu hv, hkeep u v hI htu hv, rfl⟩
  · rintro ⟨u, hu, -, rfl⟩
    have key : I u ∧ Passes test' body' (f s) (f u) := by
      refine hu.keeps (P := fun u => I u ∧ Passes test' body' (f s) (f u)) ⟨hs, Passes.refl _⟩ ?_
      rintro u v ⟨hI, hp⟩ htu hv
      exact ⟨hkeep u v hI htu hv,
        hp.next ((htest u hI).2 htu) ((hbody u hI htu _).2 ⟨v, hv, rfl⟩)⟩
    exact key.2

/-- **A loop on encoded states is the encoded loop.** -/
theorem repeats_map (htest : ∀ s, I s → (test' (f s) ↔ test s))
    (hbody : ∀ s, I s → test s → ∀ t, body' (f s) t ↔ ∃ u, body s u ∧ t = f u)
    (hkeep : ∀ s u, I s → test s → body s u → I u) (hs : I s) :
    Repeats test' body' (f s) t ↔ ∃ u, Repeats test body s u ∧ I u ∧ t = f u := by
  unfold Repeats
  rw [passes_map htest hbody hkeep hs]
  constructor
  · rintro ⟨⟨u, hu, hI, rfl⟩, hend⟩
    exact ⟨u, ⟨hu, fun h => hend ((htest u hI).2 h)⟩, hI, rfl⟩
  · rintro ⟨u, ⟨hu, hend⟩, hI, rfl⟩
    exact ⟨⟨u, hu, hI, rfl⟩, fun h => hend ((htest u hI).1 h)⟩

end

/-- Bodies that do the same for states with an invariant make the same loop. -/
theorem repeats_congr {test : σ → Prop} {body body' : σ → σ → Prop} {I : σ → Prop} {s t : σ}
    (hsame : ∀ u v, I u → (body' u v ↔ body u v)) (hkeep : ∀ u v, I u → body u v → I v) (hs : I s) :
    Repeats test body' s t ↔ Repeats test body s t := by
  have hmap : Repeats test body' s t ↔ ∃ u, Repeats test body s u ∧ I u ∧ t = u :=
    repeats_map (f := id) (fun _ _ => Iff.rfl) (fun u hu _ v => by simp [hsame u v hu])
      (fun u v hu _ => hkeep u v hu) hs
  rw [hmap]
  constructor
  · rintro ⟨u, hu, -, rfl⟩
    exact hu
  · intro ht
    exact ⟨t, ht, ht.1.keeps hs fun u v hu _ => hkeep u v hu, rfl⟩

/-- **A loop that counts down to zero** runs its body as often as the count says. -/
theorem repeats_countdown {test : σ → Prop} (step : σ → σ) (count : σ → ℕ)
    (htest : ∀ s, test s ↔ count s ≠ 0) (hstep : ∀ s, test s → count (step s) + 1 = count s)
    (s t : σ) : Repeats test (fun s t => t = step s) s t ↔ t = step^[count s] s := by
  generalize hn : count s = n
  induction n generalizing s with
  | zero =>
    rw [repeats_of_not (by rw [htest, hn]; simp)]
    rfl
  | succ n ih =>
    have hs : test s := by rw [htest, hn]; simp
    have hc := hstep s hs
    rw [repeats_of_test hs, Function.iterate_succ_apply]
    constructor
    · rintro ⟨u, rfl, hu⟩
      exact (ih (step s) (by omega)).1 hu
    · intro h
      exact ⟨step s, rfl, (ih (step s) (by omega)).2 h⟩

end TapeCompiler
