import Mathlib.Data.List.Forall2
import TapeCompiler.Proofs.Meaning
import TapeCompiler.Proofs.Resolver

/-!
# Variables on cells

Every variable has a cell of its own, and the cells that no variable owns are zero.

* `Store.encode`: the cells that hold some variables.
* `encode_add`, `encode_set`, and so on: **what happens to a variable happens to its cell.**
* `Agrees`: the resolver knows the names that are in scope, with the cells of their declarations.
-/

namespace TapeCompiler

/-- The cell of a variable; no other cell is. -/
def Owns (owner : Int → Option Var) (cell : Int) (x : Var) : Prop :=
  ∀ c, owner c = some x ↔ c = cell

namespace Store

/-- The cells that hold variables. -/
def encode (owner : Int → Option Var) (w : Store Var) : Store Int :=
  ⟨fun c => ((owner c).map w.value).getD 0, w.input, w.output⟩

variable {owner : Int → Option Var} {cell : Int} {x : Var}

theorem value_encode (h : Owns owner cell x) (w : Store Var) :
    (w.encode owner).value cell = w.value x := by
  simp [encode, (h cell).2 rfl]

theorem value_encode_of_none (h : owner cell = none) (w : Store Var) :
    (w.encode owner).value cell = 0 := by
  simp [encode, h]

/-- Setting a variable sets its cell. -/
theorem encode_set (h : Owns owner cell x) (w : Store Var) (b : UInt8) :
    (w.set x b).encode owner = (w.encode owner).set cell b := by
  refine ext (fun c => ?_) rfl rfl
  rw [value_set]
  by_cases hc : c = cell
  · rw [if_pos hc, hc, value_encode h, value_set_self]
  · rw [if_neg hc]
    have hx : owner c ≠ some x := fun ho => hc ((h c).1 ho)
    cases ho : owner c with
    | none => rw [value_encode_of_none ho, value_encode_of_none ho]
    | some y =>
      have hy : y ≠ x := fun hy => hx (ho.trans (congrArg some hy))
      simp [encode, ho, value_set, hy]

theorem encode_add (h : Owns owner cell x) (w : Store Var) (n : Int) :
    (w.add x n).encode owner = (w.encode owner).add cell n := by
  rw [add, encode_set h, add, value_encode h]

theorem encode_print (h : Owns owner cell x) (w : Store Var) :
    (w.print x).encode owner = (w.encode owner).print cell := by
  refine ext (fun _ => rfl) rfl ?_
  change w.output.push (w.value x) = w.output.push ((w.encode owner).value cell)
  rw [value_encode h]

theorem encode_read (h : Owns owner cell x) (w : Store Var) :
    (w.read x).encode owner = (w.encode owner).read cell := by
  have hset := encode_set h w w.nextByte
  exact ext (fun c => congrFun (congrArg value hset) c) rfl rfl

theorem encode_zeroAll {cells : List Int} {xs : List Var} (h : List.Forall₂ (Owns owner) cells xs)
    (w : Store Var) : (w.zeroAll xs).encode owner = (w.encode owner).zeroAll cells := by
  induction h generalizing w with
  | nil => rfl
  | cons hx _ ih =>
    refine (ih _).trans ?_
    rw [encode_set hx]
    rfl

theorem encode_addAll {steps : List (Int × Int)} {gains : List (Var × Int)}
    (h : List.Forall₂ (fun t u => Owns owner t.1 u.1 ∧ t.2 = u.2) steps gains) (w : Store Var) :
    (w.addAll gains).encode owner = (w.encode owner).addAll steps := by
  induction h generalizing w with
  | nil => rfl
  | cons hx _ ih =>
    refine (ih _).trans ?_
    rw [encode_add hx.1, ← hx.2]
    rfl

theorem encode_foldl_print {cells : List Int} {xs : List Var} (h : List.Forall₂ (Owns owner) cells xs)
    (w : Store Var) : (xs.foldl .print w).encode owner = cells.foldl .print (w.encode owner) := by
  induction h generalizing w with
  | nil => rfl
  | cons hx _ ih =>
    refine (ih _).trans ?_
    rw [encode_print hx]
    rfl

theorem encode_foldl_read {cells : List Int} {xs : List Var} (h : List.Forall₂ (Owns owner) cells xs)
    (w : Store Var) : (xs.foldl .read w).encode owner = cells.foldl .read (w.encode owner) := by
  induction h generalizing w with
  | nil => rfl
  | cons hx _ ih =>
    refine (ih _).trans ?_
    rw [encode_read hx]
    rfl

end Store

/-- The variables of declared cells. -/
def ownerOf (cells : List Int) (c : Int) : Option Var :=
  if c ∈ cells then some (.declared (cells.idxOf c)) else none

theorem owns_ownerOf {cells : List Int} (hnodup : cells.Nodup) {i : ℕ} {cell : Int}
    (h : cells[i]? = some cell) : Owns (ownerOf cells) cell (.declared i) := by
  obtain ⟨hi, rfl⟩ := List.getElem?_eq_some_iff.1 h
  intro c
  unfold ownerOf
  constructor
  · split
    · rename_i hc
      intro hidx
      obtain rfl := Var.declared.inj (Option.some.inj hidx)
      exact (List.getElem_idxOf hi).symm
    · simp
  · rintro rfl
    rw [if_pos (List.getElem_mem hi), hnodup.idxOf_getElem]

theorem ownerOf_eq_none {cells : List Int} {c : Int} (h : c ∉ cells) : ownerOf cells c = none :=
  if_neg h

theorem ownerOf_ne_hidden (cells : List Int) (c : Int) : ownerOf cells c ≠ some .hidden := by
  unfold ownerOf
  split <;> simp

/-- The declared variables with a cell for literals beside them. -/
def ownerWith (cells : List Int) (source : Int) : Int → Option Var :=
  Function.update (ownerOf cells) source (some .hidden)

theorem owns_hidden (cells : List Int) (source : Int) : Owns (ownerWith cells source) source .hidden := by
  intro c
  unfold ownerWith
  by_cases hc : c = source
  · simp [hc]
  · simp only [Function.update_of_ne hc, hc, iff_false]
    exact ownerOf_ne_hidden cells c

theorem Owns.ownerWith {cells : List Int} {cell source : Int} {x : Var} (h : Owns (ownerOf cells) cell x)
    (hne : cell ≠ source) : Owns (ownerWith cells source) cell x := by
  have hx : x ≠ .hidden := fun hx => ownerOf_ne_hidden cells cell ((h cell).2 rfl |>.trans (by rw [hx]))
  intro c
  unfold TapeCompiler.ownerWith
  by_cases hc : c = source
  · simp [hc, hne.symm, hx.symm]
  · rw [Function.update_of_ne hc]
    exact h c

theorem encode_set_hidden (cells : List Int) (w : Store Var) (b : UInt8) :
    (w.set .hidden b).encode (ownerOf cells) = w.encode (ownerOf cells) := by
  refine Store.ext (fun c => ?_) rfl rfl
  cases hc : ownerOf cells c with
  | none => rw [Store.value_encode_of_none hc, Store.value_encode_of_none hc]
  | some x =>
    have hx : x ≠ .hidden := fun hx => ownerOf_ne_hidden cells c (hc.trans (by rw [hx]))
    simp [Store.encode, hc, Store.value_set, hx]

theorem encode_ownerWith (cells : List Int) (source : Int) (w : Store Var) :
    w.encode (ownerWith cells source) = (w.encode (ownerOf cells)).set source (w.value .hidden) := by
  refine Store.ext (fun c => ?_) rfl rfl
  rw [Store.value_set]
  by_cases hc : c = source
  · rw [if_pos hc, hc, Store.value_encode (owns_hidden cells source)]
  · rw [if_neg hc]
    simp [Store.encode, ownerWith, hc]

/-! ## Names and the resolver -/

theorem rel_imp {α β : Type} {R S : α → β → Prop} {a : Option α} {b : Option β} (h : Option.Rel R a b)
    (himp : ∀ x y, R x y → S x y) : Option.Rel S a b := by
  cases h with
  | none => exact .none
  | some hxy => exact .some (himp _ _ hxy)

/-- The resolver knows the names that are in scope: each stands for the cell of its declaration. `cells`
are the cells of all declarations so far. -/
structure Agrees (n : Names) (r : Resolver) (cells : List Int) : Prop where
  lookup : ∀ name, Option.Rel (fun i c => cells[i]? = some c) (n.find name) (r.lookup? name)
  count : n.count = cells.length
  taken : ∀ c ∈ cells, r.memory.Taken c
  nodup : cells.Nodup

namespace Resolver

variable {r r' : Resolver}

theorem lookup_of_scope (h : r'.scope = r.scope) (name : String) : r'.lookup? name = r.lookup? name := by
  rw [lookup?, lookup?, h]

/-- A new binding is found in the innermost frame, behind those that are there. -/
theorem get?_bind (s : Scope) (b : Binding) (name : String) :
    (s.bind b).get? name = ((s.getLocal? name).or (if b.name = some name then some b else none)).or
      (s.outer.findSome? fun f => f.find? name) := by
  have hfind : Frame.find? (s.inner ++ [b]) name =
      (s.getLocal? name).or (if b.name = some name then some b else none) := by
    unfold Scope.getLocal? Frame.find?
    rw [List.find?_append, List.find?_singleton]
    simp
  rw [← hfind]
  simp only [Scope.get?, Scope.bind, Scope.frames, List.findSome?_cons]
  cases Frame.find? (s.inner ++ [b]) name <;> rfl

theorem get?_eq (s : Scope) (name : String) :
    s.get? name = (s.getLocal? name).or (s.outer.findSome? fun f => f.find? name) := by
  simp only [Scope.get?, Scope.frames, List.findSome?_cons, Scope.getLocal?]
  cases Frame.find? s.inner name <;> rfl

/-- A binding without a name is never found. -/
theorem lookup_define_none {cell : ℕ} (h : r.define none = .ok (cell, r')) (name : String) :
    r'.lookup? name = r.lookup? name := by
  obtain ⟨-, memory, -, rfl⟩ := define_ok h
  simp only [lookup?]
  rw [get?_bind, get?_eq]
  simp

/-- A name that has been defined is found, and hides only itself. -/
theorem lookup_define_some {cell : ℕ} {name : String} (h : r.define (some name) = .ok (cell, r'))
    (other : String) : r'.lookup? other = if other = name then some (cell : Int) else r.lookup? other := by
  obtain ⟨hfree, memory, -, rfl⟩ := define_ok h
  have hnone : r.scope.getLocal? name = none := by
    simpa [Scope.isTaken] using hfree
  simp only [lookup?]
  rw [get?_bind, get?_eq]
  by_cases hname : other = name
  · simp [hname, hnone]
  · simp [hname, Ne.symm hname]

end Resolver

namespace Agrees

variable {n : Names} {r r' : Resolver} {cells new : List Int}

/-- What a name stands for, in the program and on the tape. -/
theorem rel_owns (h : Agrees n r cells) (i : Ident) :
    Option.Rel (fun x c => Owns (ownerOf cells) c x ∧ c ∈ cells) (n.var? i) (r.lookup? i.name) := by
  unfold Names.var?
  have hl := h.lookup i.name
  generalize n.find i.name = a at hl
  generalize r.lookup? i.name = b at hl
  cases hl with
  | none => exact .none
  | some hi => exact .some ⟨owns_ownerOf h.nodup hi, List.mem_of_getElem? hi⟩

theorem enter (h : Agrees n r cells) : Agrees n r.enter cells :=
  ⟨h.lookup, h.count, h.taken, h.nodup⟩

/-- More cells do not change what a name stands for. -/
theorem rel_append {a b} (h : Option.Rel (fun (i : ℕ) c => cells[i]? = some c) a b) (new : List Int) :
    Option.Rel (fun (i : ℕ) c => (cells ++ new)[i]? = some c) a b := by
  refine rel_imp h fun i c hi => ?_
  obtain ⟨hlt, -⟩ := List.getElem?_eq_some_iff.1 hi
  rw [List.getElem?_append_left hlt]
  exact hi

theorem taken_append {bs : List Binding} (h : Agrees n r cells) (hr : r.Extends bs new r') :
    ∀ c ∈ cells ++ new, r'.memory.Taken c := by
  intro c hc
  rw [hr.taken]
  exact (List.mem_append.1 hc).imp_left (h.taken c)

theorem nodup_append {bs : List Binding} (h : Agrees n r cells) (hr : r.Extends bs new r') :
    (cells ++ new).Nodup :=
  List.nodup_append.2 ⟨h.nodup, hr.nodup, fun c hc d hd hcd => hr.fresh d hd (hcd ▸ h.taken c hc)⟩

/-- A block that is left brings back the names before it. -/
theorem leave (h : Agrees n r cells) (inner : Names) (hinner : inner.count = (cells ++ new).length)
    (hr : r.Extends [] new r') : Agrees (n.leave inner) r' (cells ++ new) where
  lookup name := by
    have hscope : r'.scope = r.scope := by rw [hr.scope, List.append_nil]
    rw [Resolver.lookup_of_scope hscope]
    exact rel_append (h.lookup name) new
  count := hinner
  taken := h.taken_append hr
  nodup := h.nodup_append hr

/-- A temporary changes no name. -/
theorem define_none {cell : ℕ} (h : Agrees n r cells) (hr : r.Valid)
    (hd : r.define none = .ok (cell, r')) : Agrees n r' cells where
  lookup name := by
    rw [Resolver.lookup_define_none hd]
    exact h.lookup name
  count := h.count
  taken c hc := ((Resolver.extends_define hr hd).taken c).2 (.inl (h.taken c hc))
  nodup := h.nodup

theorem declare {cell : ℕ} {name : String} (h : Agrees n r cells) (hr : r.Valid)
    (hd : r.define (some name) = .ok (cell, r')) :
    Agrees (n.declare name) r' (cells ++ [(cell : Int)]) where
  lookup other := by
    rw [Resolver.lookup_define_some hd]
    simp only [Names.declare]
    by_cases hname : other = name
    · rw [if_pos hname, hname, Function.update_self]
      exact .some (by rw [h.count, List.getElem?_concat_length])
    · rw [if_neg hname, Function.update_of_ne hname]
      exact rel_append (h.lookup other) _
  count := by simp [Names.declare, h.count]
  taken := h.taken_append (Resolver.extends_define hr hd)
  nodup := h.nodup_append (Resolver.extends_define hr hd)

end Agrees

end TapeCompiler
