import Mathlib.Data.List.Nodup
import TapeCompiler.Proofs.CellCode.Tree
import TapeCompiler.Resolver

/-!
# Cells and their names

A cell is taken when it gets a name or becomes a temporary. No two bindings that are in scope share a
cell, and a cell that had a name stays taken when its block is left.

* `Occupancy.Taken`: the cells that are taken.
* `Resolver.Valid`: **every binding has a cell of its own.**
* `Resolver.Extends`: what a resolver has taken and bound since another one.
-/

namespace TapeCompiler

namespace Occupancy

variable {o o' : Occupancy}

/-- A cell that is taken. -/
def Taken (o : Occupancy) (cell : Int) : Prop :=
  ∃ n : ℕ, cell = n ∧ o.cells[n]? = some true

theorem taken_natCast (n : ℕ) : o.Taken n ↔ o.cells[n]? = some true := by
  constructor
  · rintro ⟨m, hm, h⟩
    rwa [Int.natCast_inj.1 hm]
  · exact fun h => ⟨n, rfl, h⟩

theorem taken_iff {cell : Int} : o.Taken cell ↔ 0 ≤ cell ∧ o.cells[cell.toNat]? = some true := by
  constructor
  · rintro ⟨n, rfl, hn⟩
    exact ⟨by omega, by simpa using hn⟩
  · rintro ⟨h0, hcell⟩
    exact ⟨cell.toNat, by omega, hcell⟩

instance (o : Occupancy) (cell : Int) : Decidable (o.Taken cell) :=
  decidable_of_iff _ taken_iff.symm

theorem Taken.inTape {cell : Int} (h : o.Taken cell) : InTape o.size cell := by
  obtain ⟨n, rfl, hn⟩ := h
  obtain ⟨hlt, -⟩ := List.getElem?_eq_some_iff.1 hn
  exact ⟨by omega, by exact_mod_cast hlt⟩

/-- On a new tape no cell is taken. -/
theorem ofSize_ok {size : Int} (h : ofSize size = .ok o) : 0 < size ∧ o = ⟨List.replicate size.toNat false⟩ := by
  unfold ofSize at h
  split_ifs at h with hpos
  exact ⟨hpos, (Except.ok.inj h).symm⟩

theorem not_taken_ofSize {size : Int} (h : ofSize size = .ok o) (cell : Int) : ¬ o.Taken cell := by
  obtain ⟨-, rfl⟩ := ofSize_ok h
  rintro ⟨n, rfl, hn⟩
  rw [List.getElem?_replicate] at hn
  split at hn <;> simp at hn

theorem size_ofSize {size : Int} (h : ofSize size = .ok o) : 0 < size ∧ o.size = size.toNat := by
  obtain ⟨hpos, rfl⟩ := ofSize_ok h
  exact ⟨hpos, by simp [Occupancy.size]⟩

/-- The lowest free cell is free, and all cells before it are taken. -/
theorem lowestFree?_eq_some_iff {cell : ℕ} :
    o.lowestFree? = some cell ↔ o.cells[cell]? = some false ∧ ∀ i < cell, o.cells[i]? = some true := by
  rw [lowestFree?, List.findIdx?_eq_some_iff_getElem]
  constructor
  · rintro ⟨hlt, hfree, hbefore⟩
    refine ⟨?_, fun i hi => ?_⟩
    · rw [List.getElem?_eq_getElem hlt]
      simpa using hfree
    · rw [List.getElem?_eq_getElem (Nat.lt_trans hi hlt)]
      simpa using hbefore i hi
  · rintro ⟨hfree, hbefore⟩
    obtain ⟨hlt, hfalse⟩ := List.getElem?_eq_some_iff.1 hfree
    refine ⟨hlt, by simp [hfalse], fun i hi => ?_⟩
    obtain ⟨_, htrue⟩ := List.getElem?_eq_some_iff.1 (hbefore i hi)
    simp [htrue]

/-- Taking a cell is taking the lowest free one. -/
theorem allocate_eq_ok_iff {cell : ℕ} :
    o.allocate = .ok (cell, o') ↔ o.lowestFree? = some cell ∧ o' = ⟨o.cells.set cell true⟩ := by
  unfold allocate
  cases o.lowestFree? with
  | none => simp
  | some i =>
    simp only [Except.ok.injEq, Prod.mk.injEq, Option.some.injEq]
    constructor
    · rintro ⟨rfl, rfl⟩
      exact ⟨rfl, rfl⟩
    · rintro ⟨rfl, rfl⟩
      exact ⟨rfl, rfl⟩

/-- A new cell is a free cell of the tape. -/
theorem allocate_ok {cell : ℕ} (h : o.allocate = .ok (cell, o')) :
    o'.size = o.size ∧ ¬ o.Taken cell ∧ ∀ c, o'.Taken c ↔ o.Taken c ∨ c = cell := by
  obtain ⟨hlowest, rfl⟩ := allocate_eq_ok_iff.1 h
  obtain ⟨hfree, -⟩ := lowestFree?_eq_some_iff.1 hlowest
  obtain ⟨hlt, -⟩ := List.getElem?_eq_some_iff.1 hfree
  refine ⟨by simp [size], by simp [taken_natCast, hfree], fun c => ?_⟩
  simp only [Taken, List.getElem?_set]
  constructor
  · rintro ⟨n, rfl, hn⟩
    by_cases hin : cell = n
    · exact .inr (by rw [hin])
    · rw [if_neg hin] at hn
      exact .inl ⟨n, rfl, hn⟩
  · rintro (⟨n, rfl, hn⟩ | rfl)
    · refine ⟨n, rfl, ?_⟩
      split
      · rfl
      · exact hn
    · exact ⟨cell, rfl, by simp [hlt]⟩

theorem taken_clear {cell : Int} (h : o.Taken cell) :
    (o.clear cell).size = o.size ∧ ∀ c, (o.clear cell).Taken c ↔ o.Taken c ∧ c ≠ cell := by
  obtain ⟨n, rfl, hn⟩ := h
  obtain ⟨hlt, -⟩ := List.getElem?_eq_some_iff.1 hn
  have hindex : o.index? n = some n := by
    unfold index? size
    rw [if_pos ⟨by omega, by exact_mod_cast hlt⟩, Int.toNat_natCast]
  simp only [clear, hindex]
  refine ⟨by simp [size], fun c => ?_⟩
  simp only [Taken, List.getElem?_set]
  constructor
  · rintro ⟨m, rfl, hm⟩
    by_cases hnm : n = m
    · simp [hnm] at hm
    · rw [if_neg hnm] at hm
      exact ⟨⟨m, rfl, hm⟩, by omega⟩
  · rintro ⟨⟨m, rfl, hm⟩, hne⟩
    exact ⟨m, rfl, by rw [if_neg (by omega)]; exact hm⟩

end Occupancy

namespace Resolver

variable {r r' r₁ r₂ r₃ : Resolver} {bs bs' : List Binding} {new new' : List Int}

/-- **Every binding has a cell of its own**, which is taken. -/
structure Valid (r : Resolver) : Prop where
  taken : ∀ b ∈ r.scope.frames.flatten, r.memory.Taken b.cell
  nodup : (r.scope.frames.flatten.map Binding.cell).Nodup

/-- A cell with a name that is in scope. -/
def Named (r : Resolver) (cell : Int) : Prop :=
  ∃ b ∈ r.scope.frames.flatten, b.name ≠ none ∧ b.cell = cell

/-- A resolver that has grown out of another one: the bindings that the innermost frame has got, and
the cells that have been taken and not been given back. -/
structure Extends (r : Resolver) (bs : List Binding) (new : List Int) (r' : Resolver) : Prop where
  valid : r'.Valid
  size : r'.memory.size = r.memory.size
  scope : r'.scope = ⟨r.scope.inner ++ bs, r.scope.outer⟩
  cells : ∀ b ∈ bs, b.cell ∈ new
  taken : ∀ c, r'.memory.Taken c ↔ r.memory.Taken c ∨ c ∈ new
  fresh : ∀ c ∈ new, ¬ r.memory.Taken c
  nodup : new.Nodup

theorem Extends.refl (h : r.Valid) : r.Extends [] [] r :=
  ⟨h, rfl, by simp, by simp, by simp, by simp, List.nodup_nil⟩

theorem Extends.trans (h : r.Extends bs new r₁) (h' : r₁.Extends bs' new' r₂) :
    r.Extends (bs ++ bs') (new ++ new') r₂ where
  valid := h'.valid
  size := h'.size.trans h.size
  scope := by rw [h'.scope, h.scope, List.append_assoc]
  cells b hb := by
    rcases List.mem_append.1 hb with hb | hb
    · exact List.mem_append_left _ (h.cells b hb)
    · exact List.mem_append_right _ (h'.cells b hb)
  taken c := by rw [h'.taken, h.taken, List.mem_append, or_assoc]
  fresh c hc := by
    rcases List.mem_append.1 hc with hc | hc
    · exact h.fresh c hc
    · exact fun ht => h'.fresh c hc ((h.taken c).2 (.inl ht))
  nodup := List.nodup_append.2 ⟨h.nodup, h'.nodup, fun c hc d hd hcd =>
    h'.fresh d hd (hcd ▸ (h.taken c).2 (.inr hc))⟩

/-- A new resolver has bound nothing. -/
theorem ofSize_ok {size : Int} (h : ofSize size = .ok r) :
    ∃ memory, Occupancy.ofSize size = .ok memory ∧ r = ⟨size, memory, .empty⟩ := by
  unfold ofSize at h
  cases hm : Occupancy.ofSize size with
  | error e => simp [hm, Except.map] at h
  | ok memory =>
    simp only [hm, Except.map, Except.ok.injEq] at h
    exact ⟨memory, rfl, h.symm⟩

theorem valid_ofSize {size : Int} (h : ofSize size = .ok r) :
    r.Valid ∧ 0 < size ∧ r.memory.size = size.toNat ∧ r.scope = .empty ∧ ∀ c, ¬ r.memory.Taken c := by
  obtain ⟨memory, hm, rfl⟩ := ofSize_ok h
  obtain ⟨hpos, hsize⟩ := Occupancy.size_ofSize hm
  exact ⟨⟨by simp [Scope.empty, Scope.frames], by simp [Scope.empty, Scope.frames]⟩, hpos, hsize, rfl,
    Occupancy.not_taken_ofSize hm⟩

theorem exists_ofSize {size : Int} (h : 1 ≤ size) : ∃ r, ofSize size = .ok r := by
  unfold ofSize Occupancy.ofSize
  rw [if_pos (by omega)]
  exact ⟨_, rfl⟩

theorem Valid.enter (h : r.Valid) : r.enter.Valid :=
  ⟨by simpa [Resolver.enter, Scope.enter, Scope.frames] using h.taken,
    by simpa [Resolver.enter, Scope.enter, Scope.frames] using h.nodup⟩

theorem named_enter (cell : Int) : r.enter.Named cell ↔ r.Named cell := by
  simp [Named, Resolver.enter, Scope.enter, Scope.frames]

theorem Valid.taken_of_named {cell : Int} (h : r.Valid) (hn : r.Named cell) : r.memory.Taken cell := by
  obtain ⟨b, hb, -, rfl⟩ := hn
  exact h.taken b hb

theorem Valid.not_named_temporary {cell : Int} (h : r.Valid)
    (ht : (⟨none, cell⟩ : Binding) ∈ r.scope.frames.flatten) : ¬ r.Named cell := by
  rintro ⟨b, hb, hname, hcell⟩
  have hsame : b = ⟨none, cell⟩ := List.inj_on_of_nodup_map h.nodup hb ht hcell
  exact hname (by rw [hsame])

/-- A name that is found is bound in some frame. -/
theorem mem_of_lookup {name : String} {cell : Int} (hl : r.lookup? name = some cell) :
    (⟨some name, cell⟩ : Binding) ∈ r.scope.frames.flatten := by
  obtain ⟨b, hb, rfl⟩ := Option.map_eq_some_iff.1 hl
  obtain ⟨f, hf, hfind⟩ := List.exists_of_findSome?_eq_some hb
  unfold Frame.find? at hfind
  have hname := List.find?_some hfind
  rw [← eq_of_beq hname]
  exact List.mem_flatten.2 ⟨f, hf, List.mem_of_find?_eq_some hfind⟩

/-- The cell of a name is a named cell. -/
theorem named_of_lookup {name : String} {cell : Int} (hl : r.lookup? name = some cell) :
    r.Named cell :=
  ⟨_, mem_of_lookup hl, nofun, rfl⟩

/-- Two names that are found never share a cell. -/
theorem Valid.lookup_inj {name name' : String} {cell : Int} (h : r.Valid) (hl : r.lookup? name = some cell)
    (hl' : r.lookup? name' = some cell) : name = name' := by
  have hsame := List.inj_on_of_nodup_map h.nodup (mem_of_lookup hl) (mem_of_lookup hl') rfl
  exact Option.some.inj (congrArg Binding.name hsame)

theorem Extends.named {cell : Int} (h : r.Extends bs new r') (hn : r'.Named cell) :
    r.Named cell ∨ cell ∈ new := by
  obtain ⟨b, hb, hname, rfl⟩ := hn
  rw [h.scope] at hb
  simp only [Scope.frames, List.flatten_cons, List.append_assoc, List.mem_append] at hb
  rcases hb with hb | hb | hb
  · exact .inl ⟨b, by simp [Scope.frames, hb], hname, rfl⟩
  · exact .inr (h.cells b hb)
  · exact .inl ⟨b, List.mem_append_right _ hb, hname, rfl⟩

theorem Extends.named_iff {cell : Int} (h : r.Extends bs new r') (hbs : ∀ b ∈ bs, b.name = none) :
    r'.Named cell ↔ r.Named cell := by
  constructor
  · rintro ⟨b, hb, hname, rfl⟩
    rw [h.scope] at hb
    simp only [Scope.frames, List.flatten_cons, List.append_assoc, List.mem_append] at hb
    rcases hb with hb | hb | hb
    · exact ⟨b, by simp [Scope.frames, hb], hname, rfl⟩
    · exact absurd (hbs b hb) hname
    · exact ⟨b, List.mem_append_right _ hb, hname, rfl⟩
  · rintro ⟨b, hb, hname, rfl⟩
    refine ⟨b, ?_, hname, rfl⟩
    rw [h.scope]
    simp only [Scope.frames, List.flatten_cons, List.append_assoc, List.mem_append] at hb ⊢
    exact hb.imp_right .inr

theorem define_ok {name : Option String} {cell : ℕ} (h : r.define name = .ok (cell, r')) :
    r.scope.isTaken name = false ∧ ∃ memory, r.memory.allocate = .ok (cell, memory) ∧
      r' = { r with memory, scope := r.scope.bind ⟨name, cell⟩ } := by
  unfold define at h
  split at h
  · cases h
  · rename_i hname
    cases hm : r.memory.allocate with
    | error e => simp [hm, bind, Except.bind] at h
    | ok v =>
      simp only [hm, bind, Except.bind, pure, Except.pure, Except.ok.injEq, Prod.mk.injEq] at h
      obtain ⟨rfl, rfl⟩ := h
      exact ⟨by simpa using hname, v.2, rfl, rfl⟩

/-- A name that is defined gets a cell that was free. -/
theorem extends_define {name : Option String} {cell : ℕ} (h : r.Valid)
    (hd : r.define name = .ok (cell, r')) : r.Extends [⟨name, cell⟩] [(cell : Int)] r' := by
  obtain ⟨-, memory, hm, rfl⟩ := define_ok hd
  obtain ⟨hsize, hfree, htaken⟩ := Occupancy.allocate_ok hm
  have hcell : ∀ b ∈ r.scope.frames.flatten, b.cell ≠ cell := fun b hb hbc =>
    hfree (hbc ▸ h.taken b hb)
  refine ⟨⟨?_, ?_⟩, hsize, rfl, by simp, by simpa using htaken, by simpa using hfree, by simp⟩
  · intro b hb
    rw [htaken]
    simp only [Scope.bind, Scope.frames, List.flatten_cons, List.append_assoc, List.mem_append,
      List.mem_singleton] at hb
    rcases hb with hb | rfl | hb
    · exact .inl (h.taken b (by simp [Scope.frames, hb]))
    · exact .inr rfl
    · exact .inl (h.taken b (by simp [Scope.frames, hb]))
  · have hperm : ((r.scope.bind ⟨name, cell⟩).frames.flatten).Perm
        (⟨name, cell⟩ :: r.scope.frames.flatten) := by
      simp only [Scope.bind, Scope.frames, List.flatten_cons, List.append_assoc,
        List.singleton_append]
      exact List.perm_middle
    rw [(hperm.map Binding.cell).nodup_iff, List.map_cons, List.nodup_cons]
    refine ⟨fun hmem => ?_, h.nodup⟩
    obtain ⟨b, hb, hbc⟩ := List.mem_map.1 hmem
    exact hcell b hb hbc

/-- A block that is left forgets its names and keeps its cells. -/
theorem Extends.exit (h : r.enter.Extends bs new r₁) (hx : r₁.exit = .ok r₂) (hr : r.Valid) :
    r.Extends [] new r₂ := by
  have hr₂ : r₂ = { r₁ with scope := r.scope } := by
    unfold Resolver.exit Scope.exit? at hx
    rw [h.scope] at hx
    simpa [enter, Scope.enter, Scope.frames] using hx.symm
  subst hr₂
  have htaken : ∀ c, r₁.memory.Taken c ↔ r.memory.Taken c ∨ c ∈ new := h.taken
  exact ⟨⟨fun b hb => (htaken _).2 (.inl (hr.taken b hb)), hr.nodup⟩, h.size, by simp, by simp, htaken,
    h.fresh, h.nodup⟩

/-- Giving back the last temporary takes its binding out of the scope and clears its cell. -/
theorem eq_of_release {cell : ℕ} (hnot : (⟨none, (cell : Int)⟩ : Binding) ∉ r.scope.inner)
    (hscope : r₂.scope = ⟨r.scope.inner ++ [⟨none, cell⟩], r.scope.outer⟩) (hrel : r₂.release cell = .ok r₃) :
    r₃ = { r₂ with scope := r.scope, memory := r₂.memory.clear cell } := by
  have hmem : (⟨none, (cell : Int)⟩ : Binding) ∈ r₂.scope.inner := by simp [hscope]
  unfold Resolver.release Scope.undefine at hrel
  rw [if_pos hmem] at hrel
  simp only [Except.ok.injEq] at hrel
  rw [← hrel, hscope]
  simp [List.erase_append_right _ hnot]

/-- A temporary that is given back leaves no trace. -/
theorem Extends.release {cell : ℕ} (hr : r.Valid) (hd : r.define none = .ok (cell, r₁))
    (h : r₁.Extends [] new r₂) (hrel : r₂.release cell = .ok r₃) : r.Extends [] new r₃ := by
  have hdef := extends_define hr hd
  have hcell : ¬ r.memory.Taken cell := hdef.fresh _ (by simp)
  -- with the temporary still held, its cell stands in front of the new ones
  have hboth := hdef.trans h
  have hscope : r₂.scope = ⟨r.scope.inner ++ [⟨none, cell⟩], r.scope.outer⟩ := by
    simpa using hboth.scope
  obtain ⟨hnew, hnodup⟩ : (cell : Int) ∉ new ∧ new.Nodup := by
    simpa only [List.singleton_append, List.nodup_cons] using hboth.nodup
  have hr₃ := eq_of_release (fun hb => hcell (hr.taken ⟨none, cell⟩ (by simp [Scope.frames, hb]))) hscope hrel
  have hclear := Occupancy.taken_clear ((hboth.taken cell).2 (.inr (by simp)))
  have hall : ∀ c, r₃.memory.Taken c ↔ r.memory.Taken c ∨ c ∈ new := by
    intro c
    rw [hr₃]
    simp only
    rw [hclear.2, hboth.taken]
    simp only [List.singleton_append, List.mem_cons]
    constructor
    · rintro ⟨h1 | rfl | h1, hne⟩
      · exact .inl h1
      · exact absurd rfl hne
      · exact .inr h1
    · rintro (h1 | h1)
      · exact ⟨.inl h1, fun hc => hcell (hc ▸ h1)⟩
      · exact ⟨.inr (.inr h1), fun hc => hnew (hc ▸ h1)⟩
  have hs : r₃.scope = r.scope := by rw [hr₃]
  refine ⟨⟨fun b hb => ?_, by rw [hs]; exact hr.nodup⟩, ?_, by rw [hs]; simp, by simp, hall, ?_, hnodup⟩
  · rw [hs] at hb
    exact (hall _).2 (.inl (hr.taken b hb))
  · rw [hr₃]
    exact hclear.1.trans hboth.size
  · exact fun c hc => hboth.fresh c (by simp [hc])

theorem extends_define_release {cell : ℕ} (hr : r.Valid) (hd : r.define none = .ok (cell, r₁))
    (hrel : r₁.release cell = .ok r₂) : r.Extends [] [] r₂ :=
  .release hr hd (.refl (extends_define hr hd).valid) hrel

end Resolver

end TapeCompiler
