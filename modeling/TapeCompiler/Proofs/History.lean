import Mathlib.Data.List.Induction
import TapeCompiler.Proofs.Session

/-!
# What a resolver has been through

Bindings and occupied cells are kept apart, and an operation changes first the one and then the other. Whatever
is done with a resolver, the two fit together, and an operation that is refused half way has changed neither.

* `Resolver.Sound`: bindings have cells of their own, which are occupied; the names of a frame are distinct.
* `Resolver.Performed`: what one operation can come to.
* `Resolver.log`: the operations of a session with their results.
* `Resolver.afterAll_keeps`: **the occupied cells are counted by the operations since the last reset.**
* `Resolver.performInPlace`: the operations with each change made at once, so that a refusal half way would leave
  the changes before it behind.
* `Resolver.Valid.performInPlace_eq`: **nothing is refused half way.**
* `resolver_history`: all this for every session.
-/

namespace TapeCompiler

/-! ## Occupied cells -/

namespace Occupancy

variable {o o' : Occupancy}

theorem index?_natCast {n : ℕ} (h : n < o.size) : o.index? n = some n := by
  unfold index?
  rw [if_pos ⟨by omega, by exact_mod_cast h⟩, Int.toNat_natCast]

theorem isOccupied_natCast {n : ℕ} {taken : Bool} (h : o.cells[n]? = some taken) : o.isOccupied n = .ok taken := by
  obtain ⟨hlt, -⟩ := List.getElem?_eq_some_iff.1 h
  simp [isOccupied, index?_natCast hlt, h]

theorem Taken.isOccupied {cell : Int} (h : o.Taken cell) : o.isOccupied cell = .ok true := by
  obtain ⟨n, rfl, hn⟩ := h
  exact isOccupied_natCast hn

/-- A cell that is free while all cells before it are occupied. -/
def IsLowestFree (o : Occupancy) (cell : ℕ) : Prop :=
  o.isOccupied cell = .ok false ∧ ∀ i < cell, o.isOccupied (i : ℕ) = .ok true

theorem isLowestFree_of_allocate {cell : ℕ} (h : o.allocate = .ok (cell, o')) : o.IsLowestFree cell := by
  obtain ⟨hfree, hbefore⟩ := lowestFree?_eq_some_iff.1 (allocate_eq_ok_iff.1 h).1
  exact ⟨isOccupied_natCast hfree, fun i hi => isOccupied_natCast (hbefore i hi)⟩

theorem used_allocate {cell : ℕ} (h : o.allocate = .ok (cell, o')) : o'.used = o.used + 1 := by
  obtain ⟨hlowest, rfl⟩ := allocate_eq_ok_iff.1 h
  obtain ⟨hlt, hfalse⟩ := List.getElem?_eq_some_iff.1 (lowestFree?_eq_some_iff.1 hlowest).1
  simp only [used]
  rw [List.count_set hlt, hfalse]
  simp

theorem used_clear {cell : Int} (h : o.Taken cell) : (o.clear cell).used + 1 = o.used := by
  obtain ⟨n, rfl, hn⟩ := h
  obtain ⟨hlt, htrue⟩ := List.getElem?_eq_some_iff.1 hn
  have hpos : 0 < o.cells.count true := List.count_pos_iff.2 (List.mem_of_getElem? hn)
  simp only [clear, index?_natCast hlt, used]
  rw [List.count_set hlt, htrue]
  simp only [beq_self_eq_true, if_true, Bool.false_beq, Bool.not_true, Bool.false_eq_true, if_false]
  omega

theorem used_ofSize {size : Int} (h : ofSize size = .ok o) : o.used = 0 := by
  obtain ⟨-, rfl⟩ := ofSize_ok h
  simp [used, List.count_replicate]

end Occupancy

namespace Resolver

variable {r r' : Resolver} {op : Op} {result : Except Fault (Option Int)}

theorem used_ofSize {size : Int} (h : ofSize size = .ok r) : r.memory.used = 0 := by
  obtain ⟨memory, hm, rfl⟩ := ofSize_ok h
  exact Occupancy.used_ofSize hm

theorem exit_ok (h : r.exit = .ok r') :
    ∃ f fs, r.scope.outer = f :: fs ∧ r' = { r with scope := ⟨f, fs⟩ } := by
  unfold exit Scope.exit? at h
  cases houter : r.scope.outer with
  | nil => simp [houter] at h
  | cons f fs =>
    simp only [houter, Except.ok.injEq] at h
    exact ⟨f, fs, rfl, h.symm⟩

theorem release_ok {cell : Int} (h : r.release cell = .ok r') :
    ⟨none, cell⟩ ∈ r.scope.inner ∧
      r' = { r with
        scope := { r.scope with inner := r.scope.inner.erase ⟨none, cell⟩ }, memory := r.memory.clear cell } := by
  unfold release Scope.undefine at h
  split_ifs at h with hmem
  exact ⟨hmem, (Except.ok.inj h).symm⟩

/-! ## One operation -/

/-- What an operation can come to. One that is refused leaves the occupied cells and the frames alone. -/
inductive Performed (r : Resolver) : Op → Except Fault (Option Int) → Resolver → Prop
  | enter : Performed r .enter (.ok none) r.enter
  | exit {r' : Resolver} (h : r.exit = .ok r') : Performed r .exit (.ok none) r'
  | define {name : Option String} {cell : ℕ} {r' : Resolver} (h : r.define name = .ok (cell, r')) :
      Performed r (.define name) (.ok (some cell)) r'
  | lookup (name : String) : Performed r (.lookup name) (.ok (r.lookup? name)) r
  | release {cell : Int} {r' : Resolver} (h : r.release cell = .ok r') : Performed r (.release cell) (.ok none) r'
  | reset {size : Option Int} {r' : Resolver} (h : ofSize (size.getD r.tapeSize) = .ok r') :
      Performed r (.reset size) (.ok none) r'
  | refused {op : Op} {e : Fault} {r' : Resolver} (hmemory : r'.memory = r.memory) (hscope : r'.scope = r.scope) :
      Performed r op (.error e) r'

theorem performed (r : Resolver) (op : Op) : Performed r op (r.perform op).1 (r.perform op).2 := by
  cases op with
  | enter => exact .enter
  | lookup name => exact .lookup name
  | exit =>
    cases h : r.exit with
    | error e => simpa [perform, orSame, h] using Performed.refused rfl rfl
    | ok r' => simpa [perform, orSame, h] using Performed.exit h
  | define name =>
    cases h : r.define name with
    | error e => simpa [perform, h] using Performed.refused rfl rfl
    | ok v => simpa [perform, h] using Performed.define h
  | release cell =>
    cases h : r.release cell with
    | error e => simpa [perform, orSame, h] using Performed.refused rfl rfl
    | ok r' => simpa [perform, orSame, h] using Performed.release h
  | reset size =>
    cases h : ofSize (size.getD r.tapeSize) with
    | error e =>
      simp only [perform, Resolver.reset, h]
      exact .refused rfl rfl
    | ok r' =>
      simp only [perform, Resolver.reset, h]
      exact .reset h

/-- No frame has a name twice. -/
def NamesDistinct (r : Resolver) : Prop :=
  ∀ f ∈ r.scope.frames, (f.filterMap Binding.name).Nodup

/-- A name is defined only where the innermost frame does not have it. -/
theorem NamesDistinct.define {name : Option String} {cell : ℕ} (h : r.NamesDistinct)
    (hd : r.define name = .ok (cell, r')) : r'.NamesDistinct := by
  obtain ⟨hfree, memory, -, rfl⟩ := define_ok hd
  have hinner := h r.scope.inner List.mem_cons_self
  refine List.forall_mem_cons.2 ⟨?_, fun f hf => h f (List.mem_cons_of_mem _ hf)⟩
  change ((r.scope.inner ++ [(⟨name, cell⟩ : Binding)]).filterMap Binding.name).Nodup
  rw [List.filterMap_append]
  cases name with
  | none => simpa using hinner
  | some name =>
    have hnew : name ∉ r.scope.inner.filterMap Binding.name := by
      intro hmem
      obtain ⟨b, hb, hname⟩ := List.mem_filterMap.1 hmem
      have hnone : r.scope.getLocal? name = none := by simpa [Scope.isTaken] using hfree
      have hne := List.find?_eq_none.1 hnone b hb
      simp [hname] at hne
    exact List.nodup_append.2 ⟨hinner, by simp, by simpa using fun _ h => ne_of_mem_of_not_mem h hnew⟩

/-- An operation leaves no name twice in a frame. -/
theorem NamesDistinct.performed (h : r.NamesDistinct) (hp : Performed r op result r') : r'.NamesDistinct := by
  cases hp with
  | enter => exact List.forall_mem_cons.2 ⟨List.nodup_nil, h⟩
  | exit hx =>
    obtain ⟨f, fs, houter, rfl⟩ := exit_ok hx
    intro f' hf'
    exact h f' (by rw [Scope.frames, houter]; exact List.mem_cons_of_mem _ hf')
  | define hd => exact h.define hd
  | lookup => exact h
  | release hr =>
    obtain ⟨-, rfl⟩ := release_ok hr
    have hinner := h r.scope.inner List.mem_cons_self
    exact List.forall_mem_cons.2
      ⟨hinner.sublist (List.erase_sublist.filterMap _), fun f hf => h f (List.mem_cons_of_mem _ hf)⟩
  | reset ho =>
    obtain ⟨-, -, -, hscope, -⟩ := valid_ofSize ho
    simp [NamesDistinct, hscope, Scope.frames, Scope.empty]
  | refused _ hscope =>
    unfold NamesDistinct
    rw [hscope]
    exact h

/-! ## Sessions -/

/-- An operation with what it came to. -/
abbrev Event := Op × Except Fault (Option Int)

/-- A cell was taken. -/
def Event.defines : Event → Bool
  | (.define _, .ok _) => true
  | _ => false

/-- A cell was given back. -/
def Event.releases : Event → Bool
  | (.release _, .ok _) => true
  | _ => false

/-- The resolver was started again. -/
def Event.resets : Event → Bool
  | (.reset _, .ok _) => true
  | _ => false

/-- What operations leave, one after the other. -/
def afterAll (r : Resolver) (ops : List Op) : Resolver :=
  ops.foldl (fun r op => (r.perform op).2) r

/-- The operations of a session with what they came to. -/
def log (r : Resolver) : List Op → List Event
  | [] => []
  | op :: ops => (op, (r.perform op).1) :: (r.perform op).2.log ops

/-- What was done since the resolver was last started again, the latest first. -/
def sinceReset (events : List Event) : List Event :=
  events.reverse.takeWhile fun e => !Event.resets e

theorem afterAll_concat (r : Resolver) (ops : List Op) (op : Op) :
    r.afterAll (ops ++ [op]) = ((r.afterAll ops).perform op).2 := by
  simp [afterAll]

theorem log_concat (r : Resolver) (ops : List Op) (op : Op) :
    r.log (ops ++ [op]) = r.log ops ++ [(op, ((r.afterAll ops).perform op).1)] := by
  induction ops generalizing r with
  | nil => rfl
  | cons o ops ih => exact congrArg _ (ih _)

theorem sinceReset_concat (events : List Event) (e : Event) :
    sinceReset (events ++ [e]) = if Event.resets e then [] else e :: sinceReset events := by
  rw [sinceReset, List.reverse_append, List.reverse_singleton, List.singleton_append, List.takeWhile_cons]
  cases Event.resets e <;> rfl

/-- **One operation** counts in the number of occupied cells as it counts in the log. -/
theorem Valid.used_performed (h : r.Valid) (hp : Performed r op result r') {events : List Event}
    (hcount : r.memory.used + (sinceReset events).countP Event.releases =
      (sinceReset events).countP Event.defines) :
    r'.memory.used + (sinceReset (events ++ [(op, result)])).countP Event.releases =
      (sinceReset (events ++ [(op, result)])).countP Event.defines := by
  rw [sinceReset_concat]
  cases hp with
  | enter => simpa [Event.resets, Event.releases, Event.defines, Resolver.enter] using hcount
  | exit hx =>
    obtain ⟨f, fs, -, rfl⟩ := exit_ok hx
    simpa [Event.resets, Event.releases, Event.defines] using hcount
  | define hd =>
    obtain ⟨-, memory, hm, rfl⟩ := define_ok hd
    have hused := Occupancy.used_allocate hm
    simp only [Event.resets, Event.releases, Event.defines, List.countP_cons, Bool.false_eq_true, if_false, if_true]
    omega
  | lookup => simpa [Event.resets, Event.releases, Event.defines] using hcount
  | release hr =>
    obtain ⟨hmem, rfl⟩ := release_ok hr
    -- a temporary cell has been taken until now, so the count goes down
    have hused := Occupancy.used_clear (h.taken ⟨none, _⟩ (List.mem_append_left _ hmem))
    simp only [Event.resets, Event.releases, Event.defines, List.countP_cons, Bool.false_eq_true, if_false, if_true]
    simp only at hused
    omega
  | reset ho => simpa [Event.resets] using used_ofSize ho
  | refused hmemory =>
    rw [hmemory]
    cases op <;> simpa [Event.resets, Event.releases, Event.defines] using hcount

/-- **Names and cells fit together.** No two bindings of the open frames share a cell, and the cell of each is
on the tape and occupied. No frame has a name twice. -/
structure Sound (r : Resolver) : Prop where
  distinct : (r.scope.frames.flatten.map Binding.cell).Nodup
  onTape : ∀ b ∈ r.scope.frames.flatten, 0 ≤ b.cell ∧ b.cell < r.memory.size
  occupied : ∀ b ∈ r.scope.frames.flatten, r.memory.isOccupied b.cell = .ok true
  names : r.NamesDistinct

theorem Valid.sound (h : r.Valid) (hnames : r.NamesDistinct) : r.Sound where
  distinct := h.nodup
  onTape b hb := (h.taken b hb).inTape
  occupied b hb := (h.taken b hb).isOccupied
  names := hnames

/-- **What holds of every session**: each binding has a cell of its own, no frame has a name twice, and the
occupied cells are those that were taken since the last start and not given back. -/
theorem afterAll_keeps {size : Int} (h : ofSize size = .ok r) (ops : List Op) :
    (r.afterAll ops).Valid ∧ (r.afterAll ops).NamesDistinct ∧
      (r.afterAll ops).memory.used + (sinceReset (r.log ops)).countP Event.releases =
        (sinceReset (r.log ops)).countP Event.defines := by
  induction ops using List.reverseRecOn with
  | nil =>
    obtain ⟨hvalid, -, -, hscope, -⟩ := valid_ofSize h
    refine ⟨hvalid, ?_, by simpa [afterAll, log, sinceReset] using used_ofSize h⟩
    simp [afterAll, NamesDistinct, hscope, Scope.frames, Scope.empty]
  | append_singleton ops op ih =>
    obtain ⟨hvalid, hnames, hcount⟩ := ih
    have hp := performed (r.afterAll ops) op
    rw [afterAll_concat, log_concat]
    exact ⟨hvalid.perform op, hnames.performed hp, hvalid.used_performed hp hcount⟩

/-! ## Changes in place -/

/-- Takes a cell, and binds the name to it then. -/
def defineInPlace (r : Resolver) (name : Option String) : Except Fault (Option Int) × Resolver :=
  if r.scope.isTaken name then (.error (.alreadyDefined (name.getD "")), r)
  else
    match r.memory.allocate with
    | .error e => (.error e, r)
    | .ok (cell, memory) =>
      let taken := { r with memory }
      match taken.scope.define name cell with
      | .error e => (.error e, taken)
      | .ok (_, scope) => (.ok (some cell), { taken with scope })

/-- Drops the binding of a temporary, and gives its cell back then. -/
def releaseInPlace (r : Resolver) (cell : Int) : Except Fault (Option Int) × Resolver :=
  if ⟨none, cell⟩ ∈ r.scope.inner then
    match r.scope.undefine ⟨none, cell⟩ with
    | .error e => (.error e, r)
    | .ok scope =>
      let dropped := { r with scope }
      match dropped.memory.free cell with
      | .error e => (.error e, dropped)
      | .ok memory => (.ok none, { dropped with memory })
  else (.error (.notTemporary cell), r)

/-- Stores the size, and then makes a tape of that size and a scope. -/
def resetInPlace (r : Resolver) (size : Option Int) : Except Fault (Option Int) × Resolver :=
  let sized := { r with tapeSize := size.getD r.tapeSize }
  match Occupancy.ofSize sized.tapeSize with
  | .error e => (.error e, sized)
  | .ok memory => (.ok none, { sized with memory, scope := .empty })

/-- Performs an operation piece by piece: what has been changed before a refusal stays changed. The operations
that are left make one change at most. -/
def performInPlace (r : Resolver) : Op → Except Fault (Option Int) × Resolver
  | .define name => r.defineInPlace name
  | .release cell => r.releaseInPlace cell
  | .reset size => r.resetInPlace size
  | op => r.perform op

/-- A name that was not taken before the cell was is not taken behind it. -/
theorem defineInPlace_eq (r : Resolver) (name : Option String) :
    r.defineInPlace name = r.perform (.define name) := by
  unfold defineInPlace perform Resolver.define
  by_cases htaken : r.scope.isTaken name = true
  · simp [htaken]
  · cases hm : r.memory.allocate with
    | error e => simp [htaken, bind, Except.bind]
    | ok v => simp [htaken, Scope.define, bind, Except.bind, pure, Except.pure]

/-- The cell of a binding is on the tape, so it can be given back. -/
theorem Valid.releaseInPlace_eq (h : r.Valid) (cell : Int) :
    r.releaseInPlace cell = r.perform (.release cell) := by
  unfold releaseInPlace Resolver.perform Resolver.release Scope.undefine
  by_cases hmem : ⟨none, cell⟩ ∈ r.scope.inner
  · obtain ⟨n, hn, hcell⟩ := h.taken ⟨none, cell⟩ (List.mem_append_left _ hmem)
    obtain ⟨hlt, -⟩ := List.getElem?_eq_some_iff.1 hcell
    have hfree : r.memory.free cell = .ok (r.memory.clear cell) := by
      unfold Occupancy.free
      rw [show cell = (n : Int) from hn, Occupancy.index?_natCast hlt]
      rfl
    simp [hmem, hfree, orSame]
  · simp [hmem, orSame]

theorem resetInPlace_eq (r : Resolver) (size : Option Int) : r.resetInPlace size = r.perform (.reset size) := by
  unfold resetInPlace perform Resolver.reset ofSize
  cases hm : Occupancy.ofSize (size.getD r.tapeSize) <;> simp [hm, Except.map]

/-- **Nothing is refused half way.** -/
theorem Valid.performInPlace_eq (h : r.Valid) (op : Op) : r.performInPlace op = r.perform op := by
  cases op with
  | define name => exact r.defineInPlace_eq name
  | release cell => exact h.releaseInPlace_eq cell
  | reset size => exact r.resetInPlace_eq size
  | enter | exit | lookup => rfl

end Resolver

/-- **In every state of a session names and cells fit together.** The number of occupied cells is the number of
definitions less the number of releases that succeeded since the last reset that did. A definition takes the
lowest free cell. An operation that is refused changes neither the occupied cells nor a frame, although it would
leave behind what it has changed before it is refused. -/
theorem resolver_history {size : Int} (hsize : 1 ≤ size) (ops : List Resolver.Op) :
    ∃ fresh r : Resolver, Resolver.ofSize size = .ok fresh ∧ fresh.afterAll ops = r ∧ r.Sound ∧
      (r.memory.used : Int) = (Resolver.sinceReset (fresh.log ops)).countP Resolver.Event.defines -
        (Resolver.sinceReset (fresh.log ops)).countP Resolver.Event.releases ∧
      (∀ name v, (r.perform (.define name)).1 = .ok v →
        ∃ cell : ℕ, v = some (cell : Int) ∧ r.memory.IsLowestFree cell) ∧
      (∀ op, r.performInPlace op = r.perform op) ∧
      ∀ op e, (r.perform op).1 = .error e →
        (r.perform op).2.memory = r.memory ∧ (r.perform op).2.scope = r.scope := by
  have hfresh : ∃ fresh, Resolver.ofSize size = .ok fresh := by
    unfold Resolver.ofSize Occupancy.ofSize
    rw [if_pos (by omega)]
    exact ⟨_, rfl⟩
  obtain ⟨fresh, hfresh⟩ := hfresh
  obtain ⟨hvalid, hnames, hcount⟩ := Resolver.afterAll_keeps hfresh ops
  refine ⟨fresh, fresh.afterAll ops, hfresh, rfl, hvalid.sound hnames, by omega, ?_, hvalid.performInPlace_eq, ?_⟩
  · intro name v hv
    have hp := (fresh.afterAll ops).performed (.define name)
    rw [hv] at hp
    cases hp with
    | define hd =>
      obtain ⟨-, memory, hm, -⟩ := Resolver.define_ok hd
      exact ⟨_, rfl, Occupancy.isLowestFree_of_allocate hm⟩
  · intro op e he
    have hp := (fresh.afterAll ops).performed op
    rw [he] at hp
    cases hp with
    | refused hmemory hscope => exact ⟨hmemory, hscope⟩

/-- A session with a block that keeps a cell behind it and whose temporary is used again, and with a definition,
a release and a reset that are refused. -/
def leakySession : List Resolver.Op :=
  [.define (some "$x"), .reset (some 4), .define (some "$a"), .enter, .define none, .define (some "$b"), .release 1,
    .exit, .release 2, .define (some "$a"), .reset (some 0), .define none]

theorem resolver_history_leaky :
    (1 : Int) ≤ 2 ∧ ∃ fresh r : Resolver, Resolver.ofSize 2 = .ok fresh ∧ fresh.afterAll leakySession = r ∧ r.Sound ∧
      r.memory.used = 3 ∧ r.scope.inner.map Binding.cell = [0, 1] := by
  -- what is counted and what is bound, found by going through the session
  have hrun : ((Resolver.ofSize 2).map fun fresh =>
      let events := Resolver.sinceReset (fresh.log leakySession)
      (events.countP Resolver.Event.defines, events.countP Resolver.Event.releases,
        (fresh.afterAll leakySession).scope.inner.map Binding.cell)) = .ok (4, 1, [0, 1]) := by
    decide +kernel
  obtain ⟨fresh, r, hfresh, rfl, hsound, hused, -⟩ := resolver_history (by decide : (1 : Int) ≤ 2) leakySession
  simp only [hfresh, Except.map, Except.ok.injEq, Prod.mk.injEq] at hrun
  obtain ⟨hdefines, hreleases, hcells⟩ := hrun
  rw [hdefines, hreleases] at hused
  exact ⟨by decide, fresh, _, hfresh, rfl, hsound, by omega, hcells⟩

end TapeCompiler
