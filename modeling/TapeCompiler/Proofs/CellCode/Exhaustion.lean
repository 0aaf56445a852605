import TapeCompiler.Proofs.CellCode.Placement

/-!
# Why a program has no plan

A plan gives back the temporaries that it took and leaves the blocks that it entered, so neither is ever
refused. What is left to fail is taking a cell.

* `Exhausts`: a computation that fails only where every cell of the tape is taken.
* `Plan.statements_exhausts`: **planning statements fails only by exhaustion.**
* `plan_error`: **a program has no plan only if there is no tape or it is too short.**
-/

namespace TapeCompiler

/-- If it fails, all of the `size` cells of the tape are taken. -/
def Exhausts {α : Type} (size : ℕ) (x : Except Fault α) : Prop :=
  ∀ e, x = .error e → e = .exhausted size

namespace Exhausts

variable {α β : Type} {size : ℕ}

theorem ok (a : α) : Exhausts size (.ok a) := by
  intro e h
  cases h

theorem of_exists {x : Except Fault α} (h : ∃ a, x = .ok a) : Exhausts size x := by
  obtain ⟨a, rfl⟩ := h
  exact ok a

theorem bind {x : Except Fault α} {f : α → Except Fault β} (hx : Exhausts size x)
    (hf : ∀ a, x = .ok a → Exhausts size (f a)) : Exhausts size (x >>= f) := by
  cases x with
  | error e =>
    intro e' h
    cases h
    exact hx e rfl
  | ok a => exact hf a rfl

end Exhausts

namespace Resolver

variable {r r₁ r₂ : Resolver} {bs : List Binding} {new : List Int}

theorem define_error {name : Option String} {e : Fault} (h : r.define name = .error e) :
    r.scope.isTaken name = true ∧ e = .alreadyDefined (name.getD "") ∨ e = .exhausted r.memory.size := by
  unfold define at h
  split at h
  · rename_i htaken
    exact .inl ⟨htaken, (Except.error.inj h).symm⟩
  · cases hfree : r.memory.lowestFree? with
    | some i => simp [Occupancy.allocate, hfree, bind, Except.bind, pure, Except.pure] at h
    | none =>
      simp only [Occupancy.allocate, hfree, bind, Except.bind, Except.error.injEq] at h
      exact .inr h.symm

/-- A temporary has no name that could be taken. -/
theorem exhausts_define_none : Exhausts r.memory.size (r.define none) := by
  intro e h
  rcases define_error h with ⟨htaken, -⟩ | he
  · cases htaken
  · exact he

/-- A temporary can be given back as long as nothing else is bound. -/
theorem exists_release {cell : ℕ} (hr : r.Valid) (hd : r.define none = .ok (cell, r₁))
    (h : r₁.Extends [] new r₂) : ∃ r₃, r₂.release cell = .ok r₃ := by
  have hscope := ((extends_define hr hd).trans h).scope
  have hmem : (⟨none, (cell : Int)⟩ : Binding) ∈ r₂.scope.inner := by simp [hscope]
  unfold release Scope.undefine
  rw [if_pos hmem]
  exact ⟨_, rfl⟩

/-- A block that was entered can be left. -/
theorem exists_exit (h : r.enter.Extends bs new r₁) : ∃ r₂, r₁.exit = .ok r₂ := by
  unfold exit Scope.exit?
  rw [h.scope]
  exact ⟨_, rfl⟩

end Resolver

namespace Plan

variable {r : Resolver}

theorem declare_exhausts (names : List Ident) (hr : r.Valid) : Exhausts r.memory.size (declare names r) := by
  induction names generalizing r with
  | nil => exact .ok _
  | cons i is ih =>
    unfold declare
    cases hd : r.define (some i.name) with
    | ok v =>
      obtain ⟨cell, r₁⟩ := v
      have hdef := Resolver.extends_define hr hd
      exact .bind (hdef.size ▸ ih hdef.valid) fun _ _ => .ok _
    | error e =>
      rcases Resolver.define_error hd with ⟨-, rfl⟩ | rfl
      · exact .bind (ih hr) fun _ _ => .ok _
      · intro e h
        exact (Except.error.inj h).symm

theorem assign_exhausts (ts : List Ident) (value : Operand) (hr : r.Valid) :
    Exhausts r.memory.size (assign ts value r) := by
  cases value with
  | literal n =>
    refine .bind Resolver.exhausts_define_none fun v hd => ?_
    obtain ⟨source, r₁⟩ := v
    have hback := Resolver.exists_release hr hd (.refl (Resolver.extends_define hr hd).valid)
    exact .bind (.of_exists hback) fun _ _ => .ok _
  | ident i => exact .ok _

section

variable {subject : Ident} {body : Resolver → Except Fault (CellCode × Resolver)}
  (hplaced : ∀ {r code r'}, r.Valid → body r = .ok (code, r') → ∃ bs, Placed r bs code r')
  (hbody : ∀ {r : Resolver}, r.Valid → Exhausts r.memory.size (body r))

include hplaced hbody

theorem block_exhausts (hr : r.Valid) : Exhausts r.memory.size (block body r) := by
  refine .bind (hbody hr.enter) fun v hb => ?_
  obtain ⟨bs, hp⟩ := hplaced hr.enter hb
  exact .bind (.of_exists (Resolver.exists_exit hp.toExtends)) fun _ _ => .ok _

/-- A block while a temporary is held, which is given back behind it. -/
theorem held_exhausts {r₁ r₂ : Resolver} {cell : ℕ} (hr : r.Valid) (hd : r.define none = .ok (cell, r₁))
    (hsame : r₁.Extends [] [] r₂) (code : CellCode → CellCode) :
    Exhausts r.memory.size (do
      let (inner, r₃) ← block body r₂
      let r₄ ← r₃.release cell
      return (code inner, r₄)) := by
  have hdef := Resolver.extends_define hr hd
  have hsize : r₂.memory.size = r.memory.size := hsame.size.trans hdef.size
  refine .bind (hsize ▸ block_exhausts hplaced hbody hsame.valid) fun v hb => ?_
  have hp := block_placed hsame.valid hplaced hb
  have hback := Resolver.exists_release hr hd (hsame.trans hp.toExtends)
  exact .bind (.of_exists hback) fun _ _ => .ok _

theorem loop_exhausts (hr : r.Valid) : Exhausts r.memory.size (loop subject body r) := by
  unfold loop
  cases r.lookup? subject.name with
  | some cell => exact .bind (block_exhausts hplaced hbody hr) fun _ _ => .ok _
  | none =>
    refine .bind Resolver.exhausts_define_none fun v hd => ?_
    obtain ⟨guard, r₁⟩ := v
    exact held_exhausts hplaced hbody hr hd (.refl (Resolver.extends_define hr hd).valid)
      fun inner => .ofOps (report r subject) ++ .loop .many guard inner .empty

theorem branch_exhausts (hr : r.Valid) : Exhausts r.memory.size (branch subject body r) := by
  unfold branch
  cases r.lookup? subject.name with
  | some cell =>
    refine .bind Resolver.exhausts_define_none fun v hf => ?_
    obtain ⟨flag, r₁⟩ := v
    have hflag := Resolver.extends_define hr hf
    refine .bind (hflag.size ▸ Resolver.exhausts_define_none) fun v hs => ?_
    obtain ⟨scratch, r₂⟩ := v
    have hback := Resolver.exists_release hflag.valid hs (.refl (Resolver.extends_define hflag.valid hs).valid)
    refine .bind (.of_exists hback) fun r₃ hrs => ?_
    exact held_exhausts hplaced hbody hr hf (Resolver.extends_define_release hflag.valid hs hrs)
      fun inner => copy cell flag scratch ++
        .loop .once flag (clear flag ++ inner ++ applyMark subject cell) .empty
  | none =>
    refine .bind Resolver.exhausts_define_none fun v hd => ?_
    obtain ⟨flag, r₁⟩ := v
    exact held_exhausts hplaced hbody hr hd (.refl (Resolver.extends_define hr hd).valid)
      fun inner => .ofOps (report r subject) ++ .loop .once flag (clear flag ++ inner) .empty

end

mutual

theorem statement_exhausts (s : Stmt) {r : Resolver} (hr : r.Valid) :
    Exhausts r.memory.size (statement s r) := by
  match s with
  | .declare names =>
    rw [statement]
    exact declare_exhausts names hr
  | .assign ts value =>
    rw [statement]
    exact assign_exhausts ts value hr
  | .branch subject body =>
    rw [statement]
    exact branch_exhausts (statements_placed body) (statements_exhausts body) hr
  | .loop subject body =>
    rw [statement]
    exact loop_exhausts (statements_placed body) (statements_exhausts body) hr
  | .wrap inner =>
    rw [statement]
    exact statement_exhausts inner hr
  | .print _ | .read _ | .define _ _ _ | .call _ _ | .bare _ | .invalid _ =>
    rw [statement]
    exact .ok _

/-- **Planning statements fails only by exhaustion**, whatever the statements are. -/
theorem statements_exhausts (ss : List Stmt) {r : Resolver} (hr : r.Valid) :
    Exhausts r.memory.size (statements ss r) := by
  match ss with
  | [] =>
    rw [statements]
    exact .ok _
  | s :: ss =>
    rw [statements]
    refine .bind (statement_exhausts s hr) fun v hs => ?_
    obtain ⟨bs, hp⟩ := statement_placed s hr hs
    exact .bind (hp.size ▸ statements_exhausts ss hp.valid) fun _ _ => .ok _

end

end Plan

/-- **A program has no plan only if there is no tape or it is too short.** -/
theorem plan_error {program : List Stmt} {tapeSize : Int} {e : Fault} (h : plan program tapeSize = .error e) :
    tapeSize ≤ 0 ∧ e = .tapeSize tapeSize ∨ 0 < tapeSize ∧ e = .exhausted tapeSize.toNat := by
  unfold plan at h
  cases hr : Resolver.ofSize tapeSize with
  | error f =>
    rw [hr] at h
    obtain rfl : f = e := Except.error.inj h
    unfold Resolver.ofSize Occupancy.ofSize at hr
    split at hr
    · cases hr
    · exact .inl ⟨by omega, (Except.error.inj hr).symm⟩
  | ok r =>
    rw [hr] at h
    obtain ⟨hvalid, hpos, hsize, -⟩ := Resolver.valid_ofSize hr
    have hplan : Exhausts r.memory.size (Plan.statements program r >>= fun v => pure v.1) :=
      .bind (Plan.statements_exhausts program hvalid) fun _ _ => .ok _
    exact .inr ⟨hpos, hsize ▸ hplan e h⟩

end TapeCompiler
