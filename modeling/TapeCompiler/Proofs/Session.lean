import Mathlib.Logic.Relation
import TapeCompiler.Proofs.CellCode.Generated
import TapeCompiler.Proofs.Composition
import TapeCompiler.Proofs.Resolver

/-!
# Sessions

One generator serves many programs, and between them its resolver and its assembler can be worked on from
outside. Whatever is done, and whether it succeeds or not, the resolver only ever goes through operations of
its own, and these never give a cell to two bindings.

* `Resolver.Valid.perform`: **an operation of the resolver leaves every binding a cell of its own,** also when
  it is refused.
* `Resolver.Becomes`: one resolver comes out of another by operations.
* `Generate.statements_operate`: generation works on the resolver by operations only, also where it fails.
* `Generator.Reachable.valid`: **in every state of a session each binding has a cell of its own.**
-/

namespace TapeCompiler

namespace Resolver

variable {r r' : Resolver}

/-! ## Operations -/

/-- A temporary that is given back, whenever it was taken. -/
theorem Valid.release {cell : Int} (h : r.Valid) (hrel : r.release cell = .ok r') : r'.Valid := by
  unfold Resolver.release Scope.undefine at hrel
  by_cases hb : ⟨none, cell⟩ ∈ r.scope.inner
  · simp only [if_pos hb, Except.ok.injEq] at hrel
    have htaken := h.taken ⟨none, cell⟩ (by simp [Scope.frames, hb])
    obtain ⟨-, hclear⟩ := Occupancy.taken_clear htaken
    have hperm : r.scope.frames.flatten.Perm
        (⟨none, cell⟩ :: ((r.scope.inner.erase ⟨none, cell⟩) :: r.scope.outer).flatten) :=
      (List.perm_cons_erase hb).append_right _
    have hnodup := (hperm.map Binding.cell).nodup_iff.1 h.nodup
    rw [List.map_cons, List.nodup_cons] at hnodup
    subst hrel
    refine ⟨fun b hb' => ?_, hnodup.2⟩
    -- a binding that is left is not on the cell that was given back
    have hne : b.cell ≠ cell := fun hc => hnodup.1 (List.mem_map.2 ⟨b, hb', hc⟩)
    exact (hclear b.cell).2 ⟨h.taken b (hperm.mem_iff.2 (List.mem_cons_of_mem _ hb')), hne⟩
  · simp [if_neg hb] at hrel

theorem Valid.exit (h : r.Valid) (hx : r.exit = .ok r') : r'.Valid := by
  unfold Resolver.exit Scope.exit? at hx
  cases houter : r.scope.outer with
  | nil => simp [houter] at hx
  | cons f fs =>
    simp only [houter, Except.ok.injEq] at hx
    have hframes : r.scope.frames.flatten = r.scope.inner ++ (f :: fs).flatten := by
      rw [Scope.frames, houter, List.flatten_cons]
    subst hx
    refine ⟨fun b hb => h.taken b ?_, ?_⟩
    · rw [hframes]
      exact List.mem_append_right _ hb
    · have hnodup := h.nodup
      rw [hframes, List.map_append] at hnodup
      exact (List.nodup_append.1 hnodup).2.1

/-- **An operation leaves every binding a cell of its own**, also when it is refused. -/
theorem Valid.perform (h : r.Valid) (op : Op) : (r.perform op).2.Valid := by
  cases op with
  | enter => exact h.enter
  | exit =>
    cases hx : r.exit with
    | error e => simpa [Resolver.perform, orSame, hx] using h
    | ok r' => simpa [Resolver.perform, orSame, hx] using h.exit hx
  | define name =>
    cases hd : r.define name with
    | error e => simpa [Resolver.perform, hd] using h
    | ok v => simpa [Resolver.perform, hd] using (extends_define h hd).valid
  | lookup name => exact h
  | release cell =>
    cases hr : r.release cell with
    | error e => simpa [Resolver.perform, orSame, hr] using h
    | ok r' => simpa [Resolver.perform, orSame, hr] using h.release hr
  | reset size =>
    cases ho : ofSize (size.getD r.tapeSize) with
    | error e =>
      simp only [Resolver.perform, reset, ho]
      exact ⟨h.taken, h.nodup⟩
    | ok r' => simpa [Resolver.perform, reset, ho] using (valid_ofSize ho).1

/-- One resolver comes out of another by operations. -/
def Becomes : Resolver → Resolver → Prop :=
  Relation.ReflTransGen fun r r' => ∃ op, r' = (r.perform op).2

theorem becomes_perform (r : Resolver) (op : Op) : r.Becomes (r.perform op).2 :=
  .single ⟨op, rfl⟩

theorem Becomes.trans {r₁ r₂ r₃ : Resolver} (h : r₁.Becomes r₂) (h' : r₂.Becomes r₃) : r₁.Becomes r₃ :=
  Relation.ReflTransGen.trans h h'

theorem Becomes.valid (h : r.Becomes r') (hr : r.Valid) : r'.Valid := by
  induction h with
  | refl => exact hr
  | tail _ hstep ih =>
    obtain ⟨op, rfl⟩ := hstep
    exact ih.perform op

theorem becomes_define {name : Option String} {cell : ℕ} (h : r.define name = .ok (cell, r')) :
    r.Becomes r' := by
  have hop := becomes_perform r (.define name)
  rwa [perform, h] at hop

theorem becomes_release {cell : Int} (h : r.release cell = .ok r') : r.Becomes r' := by
  have hop := becomes_perform r (.release cell)
  rwa [perform, h] at hop

theorem becomes_exit (h : r.exit = .ok r') : r.Becomes r' := by
  have hop := becomes_perform r .exit
  rwa [perform, h] at hop

end Resolver

namespace Generate

variable {α β : Type}

/-! ## Generation -/

/-- The state that a step of generation leaves, however it ends. -/
def left : EStateM.Result Fault Generator α → Generator
  | .ok _ g => g
  | .error _ g => g

/-- A step of generation that works on the resolver by operations only, also where it fails. -/
def Operates (x : Generating α) : Prop :=
  ∀ g : Generator, g.resolver.Becomes (left (x g)).resolver

namespace Operates

/-- A step that leaves the resolver alone. -/
theorem of_eq {x : Generating α} (h : ∀ r a, ∃ v a', x ⟨r, a⟩ = .ok v ⟨r, a'⟩) : Operates x := by
  intro g
  obtain ⟨v, a', hx⟩ := h g.resolver g.assembler
  rw [hx]
  exact .refl

theorem bind {x : Generating α} {f : α → Generating β} (hx : Operates x) (hf : ∀ v, Operates (f v)) :
    Operates (x >>= f) := by
  intro g
  have hfirst := hx g
  cases h : x g with
  | ok v g' =>
    rw [h] at hfirst
    rw [bind_of_ok h]
    exact hfirst.trans (hf v g')
  | error e g' =>
    rw [h] at hfirst
    rw [bind_of_error h]
    exact hfirst

theorem emit (f : Assembler → Assembler) : Operates (emit f) :=
  .of_eq fun _ a => ⟨(), f a, rfl⟩

theorem closeLoop : Operates closeLoop := by
  intro g
  unfold Generate.closeLoop
  cases g.assembler.closeLoop with
  | ok a => exact .refl
  | error e => exact .refl

theorem resolve (i : Ident) : Operates (resolve i) :=
  .of_eq fun r a => ⟨_, _, resolve_eq r a i⟩

theorem temporary : Operates temporary := by
  intro g
  unfold Generate.temporary
  cases hd : g.resolver.define none with
  | ok v => exact Resolver.becomes_define hd
  | error e => exact .refl

theorem release (cell : Int) : Operates (release cell) := by
  intro g
  unfold Generate.release
  cases hr : g.resolver.release cell with
  | ok r => exact Resolver.becomes_release hr
  | error e => exact .refl

theorem leave : Operates leave := by
  intro g
  unfold Generate.leave
  cases hx : g.resolver.exit with
  | ok r => exact Resolver.becomes_exit hx
  | error e => exact .refl

theorem declare (i : Ident) : Operates (declare i) := by
  intro g
  unfold Generate.declare
  cases hd : g.resolver.define (some i.name) with
  | ok v => exact Resolver.becomes_define hd
  | error e => cases e <;> exact .refl

/-- The frame of a block is opened and left by operations, whatever its statements come to. -/
theorem block {x : Generating Unit} (hx : Operates x) : Operates (block x) := by
  intro g
  have henter := Resolver.becomes_perform g.resolver .enter
  have hbody := hx { g with resolver := g.resolver.enter }
  unfold Generate.block
  cases h : x { g with resolver := g.resolver.enter } with
  | ok v g' =>
    rw [h] at hbody
    exact (henter.trans hbody).trans (leave g')
  | error e g' =>
    rw [h] at hbody
    have hleave := leave g'
    simp only
    cases hl : Generate.leave g' <;> rw [hl] at hleave <;> exact (henter.trans hbody).trans hleave

end Operates

/-- Composing steps that work by operations gives such steps. -/
theorem closed_operates : Closed Operates where
  pure v := .of_eq fun _ a => ⟨v, a, rfl⟩
  bind := .bind
  emit _ := .emit _
  closeLoop := .closeLoop
  resolve := .resolve
  temporary := .temporary
  release := .release
  declare := .declare
  block := .block

/-- **Generation works on the resolver by operations only**, also where it fails. -/
theorem statements_operate (ss : List Stmt) : Operates (statements ss) :=
  closed_operates.statements ss

end Generate

namespace Generator

/-! ## Reachable states -/

/-- The states of a session: a generator for some tape, and what operations leave, whether they succeed or
not. -/
inductive Reachable : Generator → Prop
  | start {size : Int} {comments : Bool} {g : Generator} (h : ofSize size comments = .ok g) : Reachable g
  | step {g : Generator} (h : Reachable g) (op : Op) : Reachable (g.perform op).2

/-- What operations leave, one after the other. -/
def afterAll (g : Generator) (ops : List Op) : Generator :=
  ops.foldl (fun g op => (g.perform op).2) g

theorem Reachable.afterAll {g : Generator} (h : g.Reachable) (ops : List Op) : (g.afterAll ops).Reachable := by
  induction ops generalizing g with
  | nil => exact h
  | cons op ops ih => exact ih (h.step op)

theorem becomes_perform (g : Generator) (op : Op) : g.resolver.Becomes (g.perform op).2.resolver := by
  cases op with
  | generate program =>
    have hops := Generate.statements_operate program g
    cases h : Generate.statements program g <;> rw [h] at hops <;> simpa [perform, h, Generate.left] using hops
  | assembler op => exact .refl
  | resolver op => exact g.resolver.becomes_perform op

/-- A new generator has a new resolver and a new assembler. -/
theorem ofSize_ok {size : Int} {comments : Bool} {g : Generator} (h : ofSize size comments = .ok g) :
    Resolver.ofSize size = .ok g.resolver ∧ g.assembler = .new comments := by
  unfold ofSize at h
  cases hr : Resolver.ofSize size with
  | error e => simp [hr, Except.map] at h
  | ok r =>
    simp only [hr, Except.map, Except.ok.injEq] at h
    subst h
    exact ⟨rfl, rfl⟩

/-- **In every state of a session each binding has a cell of its own.** -/
theorem Reachable.valid {g : Generator} (h : g.Reachable) : g.resolver.Valid := by
  induction h with
  | start h => exact (Resolver.valid_ofSize (ofSize_ok h).1).1
  | @step g _ op ih => exact (g.becomes_perform op).valid ih

end Generator

end TapeCompiler
