import TapeCompiler.Proofs.History

/-!
# Blocks and the names in them

What is done inside of a block is gone with it, but for the cells that it has taken. It does not matter how the
block is nested, which operations in it are refused, or which temporaries are given back: a release reaches the
innermost frame only, and so it cannot touch what stands around the block.

* `Scope.Binds`: the innermost frame that has a name binds it to a cell.
* `Resolver.lookup?_eq_some_iff`: **a name is found where the innermost frame that has it binds it.**
* `Resolver.Nested`: operations that leave every block that they enter, and no other.
* `Resolver.Kept`: bindings that were defined and not released.
* `Resolver.Inside`: what holds of a resolver in the middle of a block; `Inside.perform` is one operation, and
  `Inside.afterAll` are all of them.
* `block_restores_names`: **behind a block all names are what they were before it, and just the cells of the
  bindings kept in it are new.**
-/

namespace TapeCompiler

/-! ## The innermost binding -/

namespace Frame

variable {f : Frame} {name : String} {b : Binding}

theorem find?_eq_none : f.find? name = none ↔ ∀ b ∈ f, b.name ≠ some name := by
  simp [find?, List.find?_eq_none]

/-- A frame that has no name twice finds each of its bindings. -/
theorem find?_eq_some (hnames : (f.filterMap Binding.name).Nodup) :
    f.find? name = some b ↔ b ∈ f ∧ b.name = some name := by
  constructor
  · intro h
    exact ⟨List.mem_of_find?_eq_some h, by simpa using List.find?_some h⟩
  · rintro ⟨hb, hname⟩
    induction f with
    | nil => simp at hb
    | cons x f ih =>
      by_cases hx : x.name = some name
      · -- no other binding of the frame has the name of the first one
        rw [List.filterMap_cons_some hx, List.nodup_cons] at hnames
        have hlater : b ∉ f := fun hmem => hnames.1 (List.mem_filterMap.2 ⟨b, hmem, hname⟩)
        obtain rfl : b = x := (List.mem_cons.1 hb).resolve_right hlater
        exact List.find?_cons_of_pos (by simp [hx])
      · have hne : b ≠ x := by
          rintro rfl
          exact hx hname
        have hrest : (f.filterMap Binding.name).Nodup :=
          hnames.sublist ((List.sublist_cons_self x f).filterMap _)
        have hfound := ih hrest ((List.mem_cons.1 hb).resolve_left hne)
        rw [find?, List.find?_cons_of_neg (by simpa using hx)]
        exact hfound

end Frame

/-- The innermost frame that has a name binds it to the cell. -/
def Scope.Binds (s : Scope) (name : String) (cell : Int) : Prop :=
  ∃ inner f outer, s.frames = inner ++ f :: outer ∧ (∀ g ∈ inner, ∀ b ∈ g, b.name ≠ some name) ∧
    ⟨some name, cell⟩ ∈ f

namespace Resolver

variable {r s s' : Resolver}

/-- **A name is found where the innermost frame that has it binds it.** -/
theorem lookup?_eq_some_iff (hnames : r.NamesDistinct) (name : String) (cell : Int) :
    r.lookup? name = some cell ↔ r.scope.Binds name cell := by
  have hfinds (f : Frame) (hf : f ∈ r.scope.frames) (b : Binding) :
      f.find? name = some b ↔ b ∈ f ∧ b.name = some name := Frame.find?_eq_some (hnames f hf)
  unfold lookup? Scope.get?
  rw [Option.map_eq_some_iff]
  constructor
  · rintro ⟨b, hb, rfl⟩
    obtain ⟨inner, f, outer, hframes, hf, hinner⟩ := List.findSome?_eq_some_iff.1 hb
    obtain ⟨hmem, hname⟩ := (hfinds f (by simp [hframes]) b).1 hf
    refine ⟨inner, f, outer, hframes, fun g hg => Frame.find?_eq_none.1 (hinner g hg), ?_⟩
    rwa [← hname]
  · rintro ⟨inner, f, outer, hframes, hinner, hmem⟩
    refine ⟨⟨some name, cell⟩, List.findSome?_eq_some_iff.2 ⟨inner, f, outer, hframes, ?_, ?_⟩, rfl⟩
    · exact (hfinds f (by simp [hframes]) _).2 ⟨hmem, rfl⟩
    · exact fun g hg => Frame.find?_eq_none.2 (hinner g hg)

/-- A name is never found on the cell of a temporary. -/
theorem Valid.lookup?_ne_temporary (h : r.Valid) {b : Binding} (hb : b ∈ r.scope.frames.flatten)
    (hname : b.name = none) (name : String) : r.lookup? name ≠ some b.cell := by
  intro hl
  have htemporary : (⟨none, b.cell⟩ : Binding) ∈ r.scope.frames.flatten := by rwa [← hname]
  exact h.not_named_temporary htemporary (named_of_lookup hl)

/-! ## Nested operations -/

/-- How many blocks an operation opens. -/
def Op.nesting : Op → Int
  | .enter => 1
  | .exit => -1
  | .define _ | .lookup _ | .release _ | .reset _ => 0

/-- How many blocks operations open and do not leave. -/
def depth : List Op → Int
  | [] => 0
  | op :: ops => op.nesting + depth ops

/-- Operations that leave no block but those that they enter, and do not start the resolver again. -/
structure Stays (ops : List Op) : Prop where
  depth_nonneg : ∀ k ≤ ops.length, 0 ≤ depth (ops.take k)
  noReset : ∀ size, .reset size ∉ ops

/-- Operations that leave every block that they enter, and no other. -/
structure Nested (ops : List Op) : Prop extends Stays ops where
  depth_eq : depth ops = 0

theorem depth_concat (ops : List Op) (op : Op) : depth (ops ++ [op]) = depth ops + op.nesting := by
  induction ops with
  | nil => simp [depth]
  | cons o ops ih =>
    rw [List.cons_append, depth, ih, depth]
    omega

theorem Stays.of_concat {ops : List Op} {op : Op} (h : Stays (ops ++ [op])) : Stays ops := by
  refine ⟨fun k hk => ?_, fun size hmem => h.noReset size (List.mem_append_left _ hmem)⟩
  have hfirst := h.depth_nonneg k (by rw [List.length_append]; omega)
  rwa [List.take_append_of_le_length hk] at hfirst

theorem Stays.depth_concat_nonneg {ops : List Op} {op : Op} (h : Stays (ops ++ [op])) :
    0 ≤ depth ops + op.nesting := by
  have hall := h.depth_nonneg (ops ++ [op]).length (Nat.le_refl _)
  rwa [List.take_length, depth_concat] at hall

/-! ## Bindings that are kept -/

/-- A binding was defined, and its cell was not released after that. -/
def Kept (events : List Event) (b : Binding) : Prop :=
  ∃ before after, events = before ++ (.define b.name, .ok (some b.cell)) :: after ∧ (.release b.cell, .ok none) ∉ after

theorem not_kept_nil (b : Binding) : ¬ Kept [] b := by
  rintro ⟨before, after, h, -⟩
  simp at h

theorem kept_concat (events : List Event) (e : Event) (b : Binding) :
    Kept (events ++ [e]) b ↔
      e = (.define b.name, .ok (some b.cell)) ∨ Kept events b ∧ e ≠ (.release b.cell, .ok none) := by
  constructor
  · rintro ⟨before, after, hevents, hafter⟩
    rcases List.eq_nil_or_concat' after with rfl | ⟨after, last, rfl⟩
    · exact .inl (List.head_eq_of_cons_eq (List.append_inj' hevents rfl).2)
    · rw [← List.cons_append, ← List.append_assoc] at hevents
      obtain ⟨hfirst, hlast⟩ := List.append_inj' hevents rfl
      obtain rfl : e = last := List.head_eq_of_cons_eq hlast
      rw [List.mem_append, not_or, List.mem_singleton] at hafter
      exact .inr ⟨⟨before, after, hfirst, hafter.1⟩, fun he => hafter.2 he.symm⟩
  · rintro (rfl | ⟨⟨before, after, rfl, hafter⟩, he⟩)
    · exact ⟨events, [], rfl, List.not_mem_nil⟩
    · refine ⟨before, after ++ [e], by simp, ?_⟩
      rw [List.mem_append, not_or, List.mem_singleton]
      exact ⟨hafter, fun h => he h.symm⟩

/-! ## In the middle of a block -/

/-- The resolver `s` is in the middle of blocks that were opened on `r`. `frames` are the frames of these blocks, and
`events` is what was done in them. -/
structure Inside (r : Resolver) (events : List Event) (frames : List Frame) (s : Resolver) : Prop where
  valid : s.Valid
  frames_eq : s.scope.frames = frames ++ r.scope.frames
  kept : ∀ b ∈ frames.flatten, Kept events b
  fresh : ∀ b, Kept events b → ¬ r.memory.Taken b.cell
  taken : ∀ c, s.memory.Taken c ↔ r.memory.Taken c ∨ ∃ b, Kept events b ∧ b.cell = c

namespace Inside

variable {events : List Event} {frames : List Frame} {f : Frame} {fs : List Frame}

theorem start (h : r.Valid) : Inside r [] [[]] r.enter where
  valid := h.enter
  frames_eq := rfl
  kept b hb := by simp at hb
  fresh b hb := absurd hb (not_kept_nil b)
  taken c := by simp [Resolver.enter, not_kept_nil]

/-- An event that neither takes a cell nor gives one back. -/
theorem idle (h : Inside r events frames s) {e : Event} (hdefines : e.defines = false)
    (hreleases : e.releases = false) : Inside r (events ++ [e]) frames s := by
  have hsame (b : Binding) : Kept (events ++ [e]) b ↔ Kept events b := by
    rw [kept_concat]
    constructor
    · rintro (rfl | ⟨hb, -⟩)
      · cases hdefines
      · exact hb
    · intro hb
      refine .inr ⟨hb, ?_⟩
      rintro rfl
      cases hreleases
  refine ⟨h.valid, h.frames_eq, ?_, ?_, ?_⟩ <;> simp only [hsame]
  · exact h.kept
  · exact h.fresh
  · exact h.taken

theorem enter (h : Inside r events frames s) : Inside r (events ++ [(.enter, .ok none)]) ([] :: frames) s.enter := by
  have hidle := h.idle (e := (.enter, .ok none)) rfl rfl
  refine ⟨h.valid.enter, ?_, hidle.kept, hidle.fresh, hidle.taken⟩
  rw [List.cons_append, ← h.frames_eq]
  rfl

theorem inner_outer (h : Inside r events (f :: fs) s) :
    s.scope.inner = f ∧ s.scope.outer = fs ++ r.scope.frames :=
  List.cons.inj h.frames_eq

theorem exit {g : Frame} (h : Inside r events (f :: g :: fs) s) :
    ∃ s', s.perform .exit = (.ok none, s') ∧ Inside r (events ++ [(.exit, .ok none)]) (g :: fs) s' := by
  obtain ⟨-, houter⟩ := h.inner_outer
  have hexit : s.exit = .ok { s with scope := ⟨g, fs ++ r.scope.frames⟩ } := by
    unfold Resolver.exit Scope.exit?
    rw [houter]
    rfl
  have hidle := h.idle (e := (.exit, .ok none)) rfl rfl
  refine ⟨_, by rw [perform, hexit]; rfl, ⟨h.valid.exit hexit, rfl, ?_, hidle.fresh, hidle.taken⟩⟩
  exact fun b hb => hidle.kept b (List.mem_append_right _ hb)

/-- A definition takes a cell that was free before the block too. -/
theorem define (h : Inside r events (f :: fs) s) {name : Option String} {cell : ℕ}
    (hd : s.define name = .ok (cell, s')) :
    Inside r (events ++ [(.define name, .ok (some cell))]) ((f ++ [⟨name, cell⟩]) :: fs) s' := by
  have hextends := extends_define h.valid hd
  obtain ⟨-, memory, hm, rfl⟩ := define_ok hd
  obtain ⟨-, hfree, htaken⟩ := Occupancy.allocate_ok hm
  -- a definition takes nothing back
  have hkept (b : Binding) : Kept (events ++ [(.define name, .ok (some (cell : Int)))]) b ↔
      b = ⟨name, cell⟩ ∨ Kept events b := by
    rw [kept_concat]
    obtain ⟨name', cell'⟩ := b
    simp only [Prod.mk.injEq, Op.define.injEq, Except.ok.injEq, Option.some.injEq, Binding.mk.injEq, ne_eq,
      reduceCtorEq, false_and, not_false_eq_true, and_true]
    rw [eq_comm, @eq_comm _ (cell : Int)]
  obtain ⟨hinner, houter⟩ := h.inner_outer
  refine ⟨hextends.valid, ?_, ?_, ?_, ?_⟩
  · show (s.scope.inner ++ [⟨name, cell⟩]) :: s.scope.outer = _
    rw [hinner, houter]
    rfl
  · intro b hb
    rw [hkept]
    simp only [List.flatten_cons, List.append_assoc, List.mem_append, List.mem_singleton] at hb
    rcases hb with hb | rfl | hb
    · exact .inr (h.kept b (List.mem_append_left _ hb))
    · exact .inl rfl
    · exact .inr (h.kept b (List.mem_append_right _ hb))
  · intro b hb
    rcases (hkept b).1 hb with rfl | hb
    · exact fun ht => hfree ((h.taken cell).2 (.inl ht))
    · exact h.fresh b hb
  · intro c
    simp only [htaken, h.taken, hkept, or_and_right, exists_or, exists_eq_left, or_assoc]
    rw [or_comm (a := ∃ _, _), @eq_comm _ c]

/-- A release gives back a cell of the block. -/
theorem release (h : Inside r events (f :: fs) s) {cell : Int} (hr : s.release cell = .ok s') :
    Inside r (events ++ [(.release cell, .ok none)]) (f.erase ⟨none, cell⟩ :: fs) s' := by
  have hvalid := h.valid.release hr
  obtain ⟨hmem, rfl⟩ := release_ok hr
  obtain ⟨hinner, houter⟩ := h.inner_outer
  have hcell : Kept events ⟨none, cell⟩ := h.kept _ (by rw [← hinner]; exact List.mem_append_left _ hmem)
  have hbefore : ¬ r.memory.Taken cell := h.fresh _ hcell
  obtain ⟨-, hclear⟩ := Occupancy.taken_clear ((h.taken cell).2 (.inr ⟨_, hcell, rfl⟩))
  have hkept (b : Binding) : Kept (events ++ [(.release cell, .ok none)]) b ↔ Kept events b ∧ b.cell ≠ cell := by
    rw [kept_concat]
    simp [eq_comm]
  refine ⟨hvalid, ?_, ?_, ?_, ?_⟩
  · show s.scope.inner.erase ⟨none, cell⟩ :: s.scope.outer = _
    rw [hinner, houter]
    rfl
  · intro b hb
    have hold : b ∈ (f :: fs).flatten := by
      rcases List.mem_append.1 hb with hb | hb
      · exact List.mem_append_left _ (List.mem_of_mem_erase hb)
      · exact List.mem_append_right _ hb
    -- what is still bound is occupied, and the cell is not
    have hbound : b ∈ (s.scope.inner.erase ⟨none, cell⟩ :: s.scope.outer).flatten := by
      rw [hinner, houter]
      simp only [List.flatten_cons, List.flatten_append, List.mem_append] at hb ⊢
      exact hb.imp_right .inl
    have hoccupied := hvalid.taken b hbound
    exact (hkept b).2 ⟨h.kept b hold, ((hclear b.cell).1 hoccupied).2⟩
  · exact fun b hb => h.fresh b ((hkept b).1 hb).1
  · intro c
    show (s.memory.clear cell).Taken c ↔ _
    rw [hclear, h.taken]
    constructor
    · rintro ⟨ht | ⟨b, hb, rfl⟩, hne⟩
      · exact .inl ht
      · exact .inr ⟨b, (hkept b).2 ⟨hb, hne⟩, rfl⟩
    · rintro (ht | ⟨b, hb, rfl⟩)
      · exact ⟨.inl ht, fun hc => hbefore (hc ▸ ht)⟩
      · obtain ⟨hb, hne⟩ := (hkept b).1 hb
        exact ⟨.inr ⟨b, hb, rfl⟩, hne⟩

/-- **One operation** that does not leave the outermost of the blocks. -/
theorem perform (h : Inside r events (f :: fs) s) {op : Op} (hreset : ∀ size, op ≠ .reset size)
    (hstays : 0 ≤ fs.length + op.nesting) :
    ∃ f' fs', (List.length fs' : Int) = fs.length + op.nesting ∧
      Inside r (events ++ [(op, (s.perform op).1)]) (f' :: fs') (s.perform op).2 := by
  cases op with
  | reset size => exact absurd rfl (hreset size)
  | lookup name => exact ⟨f, fs, by simp [Op.nesting], h.idle rfl rfl⟩
  | enter => exact ⟨[], f :: fs, by simp [Op.nesting], h.enter⟩
  | exit =>
    -- the operations stay inside: there is a block around the innermost one
    have hpos : 0 < fs.length := by
      simp only [Op.nesting] at hstays
      omega
    obtain ⟨g, gs, rfl⟩ := List.exists_cons_of_length_pos hpos
    obtain ⟨s', hs', hinside⟩ := h.exit
    rw [hs']
    refine ⟨g, gs, ?_, hinside⟩
    simp only [Op.nesting, List.length_cons]
    omega
  | define name =>
    cases hd : s.define name with
    | error e =>
      simp only [Resolver.perform, hd]
      exact ⟨f, fs, by simp [Op.nesting], h.idle rfl rfl⟩
    | ok v =>
      simp only [Resolver.perform, hd]
      exact ⟨_, fs, by simp [Op.nesting], h.define hd⟩
  | release cell =>
    cases hr : s.release cell with
    | error e =>
      simp only [Resolver.perform, orSame, hr]
      exact ⟨f, fs, by simp [Op.nesting], h.idle rfl rfl⟩
    | ok s' =>
      simp only [Resolver.perform, orSame, hr]
      exact ⟨_, fs, by simp [Op.nesting], h.release hr⟩

/-- **All operations in a block.** -/
theorem afterAll (h : r.Valid) {ops : List Op} (hops : Stays ops) :
    ∃ f fs, (List.length fs : Int) = depth ops ∧ Inside r (r.enter.log ops) (f :: fs) (r.enter.afterAll ops) := by
  induction ops using List.reverseRecOn with
  | nil => exact ⟨[], [], rfl, start h⟩
  | append_singleton ops op ih =>
    obtain ⟨f, fs, hlength, hinside⟩ := ih hops.of_concat
    have hdepth := hops.depth_concat_nonneg
    have hreset : ∀ size, op ≠ .reset size := by
      rintro size rfl
      exact hops.noReset size (by simp)
    obtain ⟨f', fs', hlength', hinside'⟩ := hinside.perform hreset (by omega)
    rw [afterAll_concat, log_concat, depth_concat]
    exact ⟨f', fs', by omega, hinside'⟩

end Inside

/-- **A block is left as it was entered**, but for the cells that are kept in it. -/
theorem Nested.exists_exit (h : r.Valid) {ops : List Op} (hops : Nested ops) :
    ∃ r', (r.enter.afterAll ops).exit = .ok r' ∧ r'.scope = r.scope ∧
      (∀ b, Kept (r.enter.log ops) b → ¬ r.memory.Taken b.cell) ∧
      ∀ c, r'.memory.Taken c ↔ r.memory.Taken c ∨ ∃ b, Kept (r.enter.log ops) b ∧ b.cell = c := by
  obtain ⟨f, fs, hlength, hinside⟩ := Inside.afterAll h hops.toStays
  obtain rfl : fs = [] := by
    rw [hops.depth_eq] at hlength
    exact List.length_eq_zero_iff.1 (by exact_mod_cast hlength)
  obtain ⟨-, houter⟩ := hinside.inner_outer
  refine ⟨{ r.enter.afterAll ops with scope := r.scope }, ?_, rfl, hinside.fresh, hinside.taken⟩
  unfold Resolver.exit Scope.exit?
  rw [houter]
  rfl

end Resolver

theorem Occupancy.isOccupied_iff_taken (o : Occupancy) (n : ℕ) : o.isOccupied n = .ok true ↔ o.Taken n := by
  constructor
  · intro h
    rcases Nat.lt_or_ge n o.size with hlt | hge
    · rw [isOccupied, index?_natCast hlt] at h
      have hlt' : n < o.cells.length := hlt
      simp only [Option.bind_some, List.getElem?_eq_getElem hlt', Except.ok.injEq] at h
      exact (taken_natCast n).2 (by rw [List.getElem?_eq_getElem hlt', h])
    · have hnone : o.index? n = none := by
        unfold index?
        rw [if_neg (by omega), if_neg (by omega)]
      simp [isOccupied, hnone] at h
  · exact Taken.isOccupied

/-- **Names are lexical.** In every state of a session a name is found in the innermost frame that has it, and never
on the cell of a temporary. Let a block be opened there, and any operations be performed in it that leave all
blocks they enter and no others, whether they succeed or not. Then the block can be left; all frames are then what
they were, and every name is found where it was. All cells that were occupied are so still, and those that are newly
occupied are just the cells of the bindings that were defined in the block and not released in it. -/
theorem block_restores_names {size : Int} (hsize : 1 ≤ size) (history : List Resolver.Op) :
    ∃ fresh r : Resolver, Resolver.ofSize size = .ok fresh ∧ fresh.afterAll history = r ∧
      (∀ ops, Resolver.Nested ops → ∃ r', (r.enter.afterAll ops).exit = .ok r' ∧
        r'.scope.frames = r.scope.frames ∧ (∀ name, r'.lookup? name = r.lookup? name) ∧
        (∀ cell : ℕ, r.memory.isOccupied cell = .ok true → r'.memory.isOccupied cell = .ok true) ∧
        ∀ cell : ℕ, (r'.memory.isOccupied cell = .ok true ∧ r.memory.isOccupied cell ≠ .ok true ↔
          ∃ b, Resolver.Kept (r.enter.log ops) b ∧ b.cell = cell)) ∧
      (∀ name cell, r.lookup? name = some cell ↔ r.scope.Binds name cell) ∧
      ∀ name, ∀ b ∈ r.scope.frames.flatten, b.name = none → r.lookup? name ≠ some b.cell := by
  obtain ⟨fresh, hfresh⟩ := Resolver.exists_ofSize hsize
  obtain ⟨hvalid, hnames, -⟩ := Resolver.afterAll_keeps hfresh history
  refine ⟨fresh, _, hfresh, rfl, ?_, Resolver.lookup?_eq_some_iff hnames, fun name b hb hname =>
    hvalid.lookup?_ne_temporary hb hname name⟩
  intro ops hops
  obtain ⟨r', hexit, hscope, hnew, htaken⟩ := hops.exists_exit hvalid
  refine ⟨r', hexit, by rw [hscope], fun name => ?_, fun cell => ?_, fun cell => ?_⟩
  · simp only [Resolver.lookup?, hscope]
  · simp only [Occupancy.isOccupied_iff_taken, htaken]
    exact .inl
  · simp only [ne_eq, Occupancy.isOccupied_iff_taken, htaken]
    constructor
    · rintro ⟨hold | hkept, hfree⟩
      · exact absurd hold hfree
      · exact hkept
    · rintro ⟨b, hb, hcell⟩
      exact ⟨.inr ⟨b, hb, hcell⟩, hcell ▸ hnew b hb⟩

/-- A variable and a temporary before the block. -/
def outerOps : List Resolver.Op :=
  [.define (some "$a"), .define none]

/-- In the block the variable is shadowed; a second definition and the release of the temporary around it are refused.
A block inside of it keeps one of its cells. -/
def innerOps : List Resolver.Op :=
  [.define (some "$a"), .define (some "$a"), .release 1, .enter, .define none, .define (some "$b"), .release 3, .exit,
    .lookup "$b", .define none]

theorem block_restores_names_shadowed :
    (1 : Int) ≤ 6 ∧ Resolver.Nested innerOps ∧
      ∃ fresh r r' : Resolver, Resolver.ofSize 6 = .ok fresh ∧ fresh.afterAll outerOps = r ∧
        (r.enter.afterAll innerOps).exit = .ok r' ∧ (r.enter.afterAll innerOps).lookup? "$a" = some 2 ∧
        r'.lookup? "$a" = some 0 ∧ r'.memory.isOccupied (1 : ℕ) = .ok true ∧
        r.memory.isOccupied (4 : ℕ) ≠ .ok true ∧ r'.memory.isOccupied (4 : ℕ) = .ok true := by
  have hnested : Resolver.Nested innerOps := ⟨⟨by decide, by simp [innerOps]⟩, by decide⟩
  have hrun : ((Resolver.ofSize 6).map fun fresh =>
      let r := fresh.afterAll outerOps
      ((r.enter.afterAll innerOps).lookup? "$a", r.lookup? "$a", r.memory.isOccupied (1 : ℕ))) =
        .ok (some 2, some 0, .ok true) := by
    decide +kernel
  have hlog : ((Resolver.ofSize 6).map fun fresh => ((fresh.afterAll outerOps).enter.log innerOps).drop 5) =
      .ok ((.define (some "$b"), .ok (some 4)) :: [(.release 3, .ok none), (.exit, .ok none),
        (.lookup "$b", .ok none), (.define none, .ok (some 3))]) := by
    decide +kernel
  obtain ⟨fresh, r, hfresh, rfl, hblock, -⟩ := block_restores_names (by decide : (1 : Int) ≤ 6) outerOps
  obtain ⟨r', hexit, -, hnames, hstill, hnew⟩ := hblock innerOps hnested
  simp only [hfresh, Except.map, Except.ok.injEq, Prod.mk.injEq] at hrun hlog
  obtain ⟨hinside, houtside, htemporary⟩ := hrun
  -- the cell of `$b` was taken in the inner block, and nothing after that gives it back
  have hkept : Resolver.Kept ((fresh.afterAll outerOps).enter.log innerOps) ⟨some "$b", 4⟩ :=
    ⟨_, _, (List.take_append_drop 5 _).symm.trans (by rw [hlog]), by decide⟩
  obtain ⟨hoccupied, hfree⟩ := (hnew 4).2 ⟨_, hkept, rfl⟩
  exact ⟨by decide, hnested, fresh, _, r', hfresh, rfl, hexit, hinside, (hnames "$a").trans houtside,
    hstill 1 htemporary, hfree, hoccupied⟩

end TapeCompiler
