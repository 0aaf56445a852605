import TapeCompiler.Proofs.CellCode.Exhaustion
import TapeCompiler.Proofs.Head
import TapeCompiler.Proofs.History

/-!
# Tapes of different lengths

Generation takes the lowest free cell, so as long as a tape has one it does not matter how long the tape is. A
longer tape is used like a shorter one, and goes on to be used where the shorter one has come to its end.

* `Resolver.Within`: the same bindings and the same cells taken, on a tape that is no shorter.
* `Generate.statements_assemble`: generation works on the assembler by operations only, also where it fails.
* `Generate.Agree`: what a step comes to on two tapes.
* `Generate.statements_widen`: **if a tape is long enough, nothing changes on a longer one, and if not, what was
  emitted is emitted on a longer one too.**
-/

namespace TapeCompiler

/-! ## Cells and names -/

namespace Occupancy

variable {o o' o₁ : Occupancy}

/-- The same cells are taken on a tape that is no shorter. -/
def Within (o o' : Occupancy) : Prop :=
  ∃ k, o'.cells = o.cells ++ List.replicate k false

theorem within_ofSize {n m : ℕ} (hn : 0 < n) (h : n ≤ m) :
    ∃ o o', ofSize n = .ok o ∧ ofSize m = .ok o' ∧ o.Within o' := by
  refine ⟨⟨List.replicate n false⟩, ⟨List.replicate m false⟩, ?_, ?_, m - n, ?_⟩
  · rw [ofSize, if_pos (by omega), Int.toNat_natCast]
  · rw [ofSize, if_pos (by omega), Int.toNat_natCast]
  · rw [← List.replicate_add, Nat.add_sub_cancel' h]

/-- The lowest free cell of a tape is that of a longer one. -/
theorem Within.allocate {cell : ℕ} (h : o.Within o') (ha : o.allocate = .ok (cell, o₁)) :
    ∃ o₁', o'.allocate = .ok (cell, o₁') ∧ o₁.Within o₁' := by
  obtain ⟨k, hk⟩ := h
  obtain ⟨hlowest, rfl⟩ := allocate_eq_ok_iff.1 ha
  obtain ⟨hfree, hbefore⟩ := lowestFree?_eq_some_iff.1 hlowest
  obtain ⟨hlt, -⟩ := List.getElem?_eq_some_iff.1 hfree
  have hsame (i : ℕ) (hi : i ≤ cell) : o'.cells[i]? = o.cells[i]? := by
    rw [hk, List.getElem?_append_left (hi.trans_lt hlt)]
  have hlowest' : o'.lowestFree? = some cell := by
    refine lowestFree?_eq_some_iff.2 ⟨?_, fun i hi => ?_⟩
    · rw [hsame cell le_rfl, hfree]
    · rw [hsame i hi.le, hbefore i hi]
  refine ⟨⟨o'.cells.set cell true⟩, allocate_eq_ok_iff.2 ⟨hlowest', rfl⟩, k, ?_⟩
  rw [hk, List.set_append_left _ _ hlt]

theorem Within.clear {cell : Int} (h : o.Within o') (ht : o.Taken cell) : (o.clear cell).Within (o'.clear cell) := by
  obtain ⟨k, hk⟩ := h
  obtain ⟨n, rfl, hn⟩ := ht
  obtain ⟨hlt, -⟩ := List.getElem?_eq_some_iff.1 hn
  have hlt' : n < o'.size := by
    rw [size, hk, List.length_append]
    omega
  refine ⟨k, ?_⟩
  simp only [Occupancy.clear, index?_natCast hlt, index?_natCast hlt']
  rw [hk, List.set_append_left _ _ hlt]

end Occupancy

namespace Resolver

variable {r r' r₁ : Resolver}

/-- The same bindings and the same cells taken, on a tape that is no shorter. -/
structure Within (r r' : Resolver) : Prop where
  valid : r.Valid
  scope : r'.scope = r.scope
  memory : r.memory.Within r'.memory

theorem within_ofSize {n m : ℕ} (hn : 0 < n) (h : n ≤ m) :
    ∃ r r', ofSize n = .ok r ∧ ofSize m = .ok r' ∧ r.Within r' := by
  obtain ⟨o, o', ho, ho', hwithin⟩ := Occupancy.within_ofSize hn h
  have hr : ofSize n = .ok ⟨n, o, .empty⟩ := by rw [ofSize, ho]; rfl
  have hr' : ofSize m = .ok ⟨m, o', .empty⟩ := by rw [ofSize, ho']; rfl
  exact ⟨_, _, hr, hr', (valid_ofSize hr).1, rfl, hwithin⟩

namespace Within

theorem lookup? (h : r.Within r') (name : String) : r'.lookup? name = r.lookup? name := by
  rw [Resolver.lookup?, Resolver.lookup?, h.scope]

theorem enter (h : r.Within r') : r.enter.Within r'.enter :=
  ⟨h.valid.enter, congrArg Scope.enter h.scope, h.memory⟩

theorem exit (h : r.Within r') (hx : r.exit = .ok r₁) : ∃ r₁', r'.exit = .ok r₁' ∧ r₁.Within r₁' := by
  obtain ⟨f, fs, houter, rfl⟩ := exit_ok hx
  refine ⟨{ r' with scope := ⟨f, fs⟩ }, ?_, h.valid.exit hx, rfl, h.memory⟩
  rw [Resolver.exit, h.scope, Scope.exit?, houter]

theorem define {name : Option String} {cell : ℕ} (h : r.Within r') (hd : r.define name = .ok (cell, r₁)) :
    ∃ r₁', r'.define name = .ok (cell, r₁') ∧ r₁.Within r₁' := by
  have hvalid := (extends_define h.valid hd).valid
  obtain ⟨hnew, memory, hm, rfl⟩ := define_ok hd
  obtain ⟨memory', hm', hwithin⟩ := h.memory.allocate hm
  refine ⟨{ r' with memory := memory', scope := r'.scope.bind ⟨name, cell⟩ }, ?_, hvalid, ?_, hwithin⟩
  · simp [Resolver.define, h.scope, hnew, hm', bind, Except.bind, pure, Except.pure]
  · rw [h.scope]

/-- A name that is taken is taken on both tapes. -/
theorem define_taken {name : Option String} {other : String} (h : r.Within r')
    (hd : r.define name = .error (.alreadyDefined other)) : r'.define name = .error (.alreadyDefined other) := by
  rcases define_error hd with ⟨htaken, he⟩ | he
  · rw [Resolver.define, h.scope, if_pos htaken, he]
  · cases he

theorem release {cell : Int} (h : r.Within r') (hr : r.release cell = .ok r₁) :
    ∃ r₁', r'.release cell = .ok r₁' ∧ r₁.Within r₁' := by
  have hvalid := h.valid.release hr
  obtain ⟨hmem, rfl⟩ := release_ok hr
  have htaken : r.memory.Taken cell := h.valid.taken ⟨none, cell⟩ (by simp [Scope.frames, hmem])
  refine ⟨⟨r'.tapeSize, r'.memory.clear cell, ⟨r.scope.inner.erase ⟨none, cell⟩, r.scope.outer⟩⟩, ?_, hvalid, rfl,
    h.memory.clear htaken⟩
  simp only [Resolver.release, Scope.undefine, h.scope, if_pos hmem]

end Within

end Resolver

namespace Generate

variable {α β : Type}

/-! ## Steps and the assembler -/

theorem left_temporary (g : Generator) : (left (temporary g)).assembler = g.assembler := by
  unfold temporary
  cases g.resolver.define none <;> rfl

theorem left_release (cell : Int) (g : Generator) : (left (release cell g)).assembler = g.assembler := by
  unfold release
  cases g.resolver.release cell <;> rfl

theorem left_leave (g : Generator) : (left (leave g)).assembler = g.assembler := by
  unfold leave
  cases g.resolver.exit <;> rfl

/-- The code of a block is that of its statements. -/
theorem left_block (x : Generating Unit) (g : Generator) :
    (left (block x g)).assembler = (left (x { g with resolver := g.resolver.enter })).assembler := by
  unfold block
  cases x { g with resolver := g.resolver.enter } with
  | ok v g' => exact left_leave g'
  | error e g' =>
    have hleave := left_leave g'
    simp only
    cases hl : leave g' <;> rw [hl] at hleave <;> exact hleave

/-- A step that works on the assembler by operations only, also where it fails. -/
def Assembles (x : Generating α) : Prop :=
  ∀ g : Generator, g.assembler.Becomes (left (x g)).assembler

namespace Assembles

/-- Nothing is taken back of what was emitted. -/
theorem grows {x : Generating α} (hx : Assembles x) (g : Generator) :
    g.instructions <+: (left (x g)).instructions :=
  (hx g).isPrefix

/-- A step that emits nothing. -/
theorem of_silent {x : Generating α} (h : ∀ g, (left (x g)).assembler = g.assembler) : Assembles x := by
  intro g
  rw [h g]
  exact .refl

theorem bind {x : Generating α} {f : α → Generating β} (hx : Assembles x) (hf : ∀ v, Assembles (f v)) :
    Assembles (x >>= f) := by
  intro g
  have hfirst := hx g
  cases hg : x g with
  | ok v g' =>
    rw [hg] at hfirst
    rw [bind_of_ok hg]
    exact hfirst.trans (hf v g')
  | error e g' =>
    rw [hg] at hfirst
    rw [bind_of_error hg]
    exact hfirst

theorem closeLoop : Assembles closeLoop := by
  intro g
  have hclose := g.assembler.becomes_perform .closeLoop
  unfold Generate.closeLoop
  cases hc : g.assembler.closeLoop with
  | ok a =>
    rw [Assembler.perform, hc] at hclose
    exact hclose
  | error e => exact .refl

theorem resolve (i : Ident) : Assembles (resolve i) := by
  intro g
  unfold Generate.resolve
  cases g.resolver.lookup? i.name with
  | some cell => exact .refl
  | none => exact g.assembler.becomes_perform (.mark _)

theorem temporary : Assembles temporary :=
  .of_silent left_temporary

theorem release (cell : Int) : Assembles (release cell) :=
  .of_silent (left_release cell)

theorem declare (i : Ident) : Assembles (declare i) := by
  intro g
  unfold Generate.declare
  cases g.resolver.define (some i.name) with
  | ok v => exact .refl
  | error e =>
    cases e with
    | alreadyDefined name => exact g.assembler.becomes_perform (.mark _)
    | _ => exact .refl

theorem block {x : Generating Unit} (hx : Assembles x) : Assembles (block x) := by
  intro g
  rw [left_block]
  exact hx { g with resolver := g.resolver.enter }

end Assembles

/-- Composing steps that work by operations of the assembler gives such steps. -/
theorem closed_assembles : Closed Assembles where
  pure _ := .of_silent fun _ => rfl
  bind := .bind
  emit op g := g.assembler.becomes_perform op
  closeLoop := .closeLoop
  resolve := .resolve
  temporary := .temporary
  release := .release
  declare := .declare
  block := .block

/-- **Generation works on the assembler by operations only**, also where it fails. -/
theorem statements_assemble (ss : List Stmt) : Assembles (statements ss) :=
  closed_assembles.statements ss

/-! ## Steps on two tapes -/

/-- What a step comes to on a tape and on one that is no shorter: if it succeeds, it does so on both, with the same
result and the same code; if it fails, what was emitted is emitted on the longer tape too. -/
inductive Agree : EStateM.Result Fault Generator α → EStateM.Result Fault Generator α → Prop
  | ok {v : α} {r r' : Resolver} {a : Assembler} (h : r.Within r') : Agree (.ok v ⟨r, a⟩) (.ok v ⟨r', a⟩)
  | short {e : Fault} {g : Generator} {wide : EStateM.Result Fault Generator α}
      (h : g.instructions <+: (left wide).instructions) : Agree (.error e g) wide

/-- A step that takes nothing back of what was emitted and does not depend on how long the tape is. -/
structure Widens (x : Generating α) : Prop where
  grows : ∀ g : Generator, g.instructions <+: (left (x g)).instructions
  agree : ∀ {r r' : Resolver} (a : Assembler), r.Within r' → Agree (x ⟨r, a⟩) (x ⟨r', a⟩)

namespace Widens

theorem pure (v : α) : Widens (pure v : Generating α) :=
  ⟨fun _ => List.prefix_rfl, fun _ h => .ok h⟩

theorem bind {x : Generating α} {f : α → Generating β} (hx : Widens x) (hf : ∀ v, Widens (f v)) :
    Widens (x >>= f) := by
  refine ⟨fun g => ?_, fun {r r'} a h => ?_⟩
  · have hfirst := hx.grows g
    cases hg : x g with
    | ok v g' =>
      rw [hg] at hfirst
      rw [bind_of_ok hg]
      exact hfirst.trans ((hf v).grows g')
    | error e g' =>
      rw [hg] at hfirst
      rw [bind_of_error hg]
      exact hfirst
  · have hagree := hx.agree a h
    generalize hn : x ⟨r, a⟩ = narrow at hagree
    generalize hw : x ⟨r', a⟩ = wide at hagree
    cases hagree with
    | ok h' =>
      rw [bind_of_ok hn, bind_of_ok hw]
      exact (hf _).agree _ h'
    | short hshort =>
      rw [bind_of_error hn]
      -- on the longer tape the second step may still run, and it only adds to what was emitted
      refine .short (hshort.trans ?_)
      cases wide with
      | ok v g' =>
        rw [bind_of_ok hw]
        exact (hf v).grows g'
      | error e g' =>
        rw [bind_of_error hw]
        exact List.prefix_rfl

theorem emit (op : Assembler.Op) : Widens (emit fun a => (a.perform op).2) :=
  ⟨(closed_assembles.emit op).grows, fun _ h => .ok h⟩

theorem closeLoop : Widens closeLoop := by
  refine ⟨Assembles.closeLoop.grows, fun {r r'} a h => ?_⟩
  unfold Generate.closeLoop
  cases a.closeLoop with
  | ok a => exact .ok h
  | error e => exact .short List.prefix_rfl

theorem resolve (i : Ident) : Widens (resolve i) := by
  refine ⟨(Assembles.resolve i).grows, fun {r r'} a h => ?_⟩
  unfold Generate.resolve
  simp only [h.lookup?]
  cases r.lookup? i.name with
  | some cell => exact .ok h
  | none => exact .ok h

/-- A step that emits nothing. -/
theorem of_silent {x : Generating α} (hsilent : ∀ g, (left (x g)).assembler = g.assembler)
    (hok : ∀ {r r' : Resolver} {a : Assembler} {v : α} {g : Generator}, r.Within r' → x ⟨r, a⟩ = .ok v g →
      ∃ r₁', x ⟨r', a⟩ = .ok v ⟨r₁', a⟩ ∧ g.resolver.Within r₁') : Widens x := by
  have hinstructions (g : Generator) : (left (x g)).instructions = g.instructions :=
    congrArg (fun a : Assembler => a.emitted.toList) (hsilent g)
  refine ⟨(Assembles.of_silent hsilent).grows, fun {r r'} a h => ?_⟩
  cases hn : x ⟨r, a⟩ with
  | ok v g =>
    obtain ⟨r₁', hw, h'⟩ := hok h hn
    have hassembler := hsilent ⟨r, a⟩
    rw [hn] at hassembler
    rw [hw]
    obtain ⟨r₁, a₁⟩ := g
    obtain rfl : a₁ = a := hassembler
    exact .ok h'
  | error e g =>
    have hemitted := hinstructions ⟨r, a⟩
    rw [hn] at hemitted
    refine .short ?_
    rw [hinstructions]
    exact ⟨[], by rw [List.append_nil]; exact hemitted⟩

theorem temporary : Widens temporary := by
  refine .of_silent left_temporary fun {r r' a v g} h hn => ?_
  unfold Generate.temporary at hn ⊢
  cases hd : r.define none with
  | error e => simp [hd] at hn
  | ok w =>
    obtain ⟨cell, r₁⟩ := w
    obtain ⟨r₁', hd', h'⟩ := h.define hd
    simp only [hd, EStateM.Result.ok.injEq] at hn
    obtain ⟨rfl, rfl⟩ := hn
    exact ⟨r₁', by simp only [hd'], h'⟩

theorem release (cell : Int) : Widens (release cell) := by
  refine .of_silent (left_release cell) fun {r r' a v g} h hn => ?_
  unfold Generate.release at hn ⊢
  cases hr : r.release cell with
  | error e => simp [hr] at hn
  | ok r₁ =>
    obtain ⟨r₁', hr', h'⟩ := h.release hr
    simp only [hr, EStateM.Result.ok.injEq] at hn
    obtain ⟨-, rfl⟩ := hn
    exact ⟨r₁', by simp only [hr'], h'⟩

theorem leave : Widens leave := by
  refine .of_silent left_leave fun {r r' a v g} h hn => ?_
  unfold Generate.leave at hn ⊢
  cases hx : r.exit with
  | error e => simp [hx] at hn
  | ok r₁ =>
    obtain ⟨r₁', hx', h'⟩ := h.exit hx
    simp only [hx, EStateM.Result.ok.injEq] at hn
    obtain ⟨-, rfl⟩ := hn
    exact ⟨r₁', by simp only [hx'], h'⟩

theorem declare (i : Ident) : Widens (declare i) := by
  refine ⟨(Assembles.declare i).grows, fun {r r'} a h => ?_⟩
  -- a tape may be too short for a name that a longer one has a cell for; then nothing is known of the longer one
  -- but that it takes nothing back
  have hwide := (Assembles.declare i).grows ⟨r', a⟩
  revert hwide
  generalize hw : Generate.declare i ⟨r', a⟩ = wide
  intro hwide
  unfold Generate.declare at hw ⊢
  cases hd : r.define (some i.name) with
  | ok v =>
    obtain ⟨cell, r₁⟩ := v
    obtain ⟨r₁', hd', h'⟩ := h.define hd
    simp only [hd'] at hw
    rw [← hw]
    exact .ok h'
  | error e =>
    cases e with
    | alreadyDefined name =>
      simp only [h.define_taken hd] at hw
      rw [← hw]
      exact .ok h
    | _ => exact .short hwide

theorem block {x : Generating Unit} (hx : Widens x) : Widens (block x) := by
  have hinstructions (g : Generator) :
      (left (Generate.block x g)).instructions = (left (x { g with resolver := g.resolver.enter })).instructions :=
    congrArg (fun a : Assembler => a.emitted.toList) (left_block x g)
  refine ⟨fun g => ?_, fun {r r'} a h => ?_⟩
  · rw [hinstructions]
    exact hx.grows { g with resolver := g.resolver.enter }
  · have hagree := hx.agree a h.enter
    have hnarrow := hinstructions ⟨r, a⟩
    have hwide := hinstructions ⟨r', a⟩
    simp only at hnarrow hwide
    generalize hn : x ⟨r.enter, a⟩ = narrow at hagree hnarrow
    generalize hw : x ⟨r'.enter, a⟩ = wide at hagree hwide
    cases hagree with
    | ok h' =>
      simp only [Generate.block, hn, hw]
      exact leave.agree _ h'
    | short hshort =>
      -- the block is left as well, and then fails for the one reason or the other
      obtain ⟨e, g, hfails⟩ : ∃ e g, Generate.block x ⟨r, a⟩ = .error e g := by
        simp only [Generate.block, hn]
        cases Generate.leave _ <;> exact ⟨_, _, rfl⟩
      rw [hfails] at hnarrow ⊢
      have hemitted : g.instructions <+: (left wide).instructions := by
        simp only [left] at hnarrow
        rwa [hnarrow]
      exact .short (hwide ▸ hemitted)

end Widens

/-- Composing steps that do not depend on how long the tape is gives such steps. -/
theorem closed_widens : Closed Widens where
  pure := .pure
  bind := .bind
  emit := .emit
  closeLoop := .closeLoop
  resolve := .resolve
  temporary := .temporary
  release := .release
  declare := .declare
  block := .block

/-- **Generation does not depend on how long the tape is**, up to where the tape is too short. -/
theorem statements_widen (ss : List Stmt) : Widens (statements ss) :=
  closed_widens.statements ss

end Generate

end TapeCompiler
