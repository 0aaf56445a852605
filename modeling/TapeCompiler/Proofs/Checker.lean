import Mathlib.Data.Finset.Dedup
import Mathlib.Data.Finset.Insert
import TapeCompiler.Proofs.CellCode.Exhaustion
import TapeCompiler.Proofs.CellCode.Quiet
import TapeCompiler.Proofs.Compiled
import TapeCompiler.Proofs.Syntax.Writable

/-!
# Diagnostics are what a checker finds

What is wrong with a program that was parsed can be told without laying it out on cells, from the names that are
declared in the open blocks alone.

* `Checker.statement`, `Checker.check`: the checker.
* `Scope.names`: what a scope knows to the checker. Temporaries do not show.
* `Plan.statements_checked`: **a plan reports what the checker finds**, and leaves the names that it leaves.
* `compiled_diagnostics_eq_check`: **so does compiling a source.**
-/

namespace TapeCompiler

/-! ## The checker -/

namespace Checker

/-- The names that are declared in the open blocks, those of the innermost block apart. -/
structure Names where
  inner : Finset String
  outer : List (Finset String)
  deriving DecidableEq

namespace Names

/-- No block but the outermost one, and nothing declared. -/
def empty : Names :=
  ⟨∅, []⟩

/-- The name is declared in some block. -/
def Visible (n : Names) (name : String) : Prop :=
  ∃ names ∈ n.inner :: n.outer, name ∈ names

instance (n : Names) (name : String) : Decidable (n.Visible name) :=
  inferInstanceAs (Decidable (∃ names ∈ n.inner :: n.outer, name ∈ names))

/-- Declares a name in the innermost block. -/
def add (n : Names) (name : String) : Names :=
  { n with inner := insert name n.inner }

/-- Opens a block. -/
def enter (n : Names) : Names :=
  ⟨∅, n.inner :: n.outer⟩

end Names

/-- A name that is declared nowhere. -/
def invisible (n : Names) (i : Ident) : List Diagnostic :=
  if n.Visible i.name then [] else [⟨.undefined i.name, .ident i⟩]

/-- A mark where none may be. -/
def marked (reason : Reason) (i : Ident) : List Diagnostic :=
  if i.mark = .none then [] else [⟨reason, .ident i⟩]

/-- A value that is declared nowhere. -/
def operand (n : Names) : Operand → List Diagnostic
  | .literal _ => []
  | .ident i => invisible n i

/-- Declares names; one that the innermost block has already is wrong. -/
def declare : List Ident → Names → List Diagnostic × Names
  | [], n => ([], n)
  | i :: is, n =>
    if i.name ∈ n.inner then
      let (ds, n') := declare is n
      (⟨.redefined, .ident i⟩ :: ds, n')
    else declare is (n.add i.name)

mutual

/-- What is wrong with a statement, and the names behind it. -/
def statement : Stmt → Names → List Diagnostic × Names
  | .declare names, n => declare names n
  | .assign targets value, n => (operand n value ++ targets.flatMap (invisible n), n)
  | .print names, n => (names.flatMap fun i => marked .markInPrint i ++ invisible n i, n)
  | .read names, n => (names.flatMap fun i => marked .markInRead i ++ invisible n i, n)
  | .branch subject body, n => (invisible n subject ++ (statements body n.enter).1, n)
  | .loop subject body, n => (invisible n subject ++ (statements body n.enter).1, n)
  | .define name parameters body, n => ([⟨.functions, .stmt (.define name parameters body)⟩], n)
  | .call name arguments, n => ([⟨.functions, .stmt (.call name arguments)⟩], n)
  | .wrap inner, n => statement inner n
  | .bare value, n => ([⟨.notCompilable value, .stmt (.bare value)⟩], n)
  | .invalid error, n => ([⟨.syntaxError error, .stmt (.invalid error)⟩], n)

/-- What is wrong with statements, and the names behind them. -/
def statements : List Stmt → Names → List Diagnostic × Names
  | [], n => ([], n)
  | s :: ss, n =>
    let (ds, n₁) := statement s n
    let (rest, n₂) := statements ss n₁
    (ds ++ rest, n₂)

end

/-- What is wrong with a program. -/
def check (program : List Stmt) : List Diagnostic :=
  (statements program .empty).1

theorem outer_declare (is : List Ident) (n : Names) : (declare is n).2.outer = n.outer := by
  induction is generalizing n with
  | nil => rfl
  | cons i is ih =>
    rw [declare]
    split_ifs
    · exact ih n
    · exact ih (n.add i.name)

mutual

/-- A statement declares nothing in the blocks around. -/
theorem outer_statement : ∀ (s : Stmt) (n : Names), (statement s n).2.outer = n.outer
  | .declare names, n => outer_declare names n
  | .wrap inner, n => outer_statement inner n
  | .assign _ _, _ | .print _, _ | .read _, _ | .branch _ _, _ | .loop _ _, _ | .define _ _ _, _ | .call _ _, _
  | .bare _, _ | .invalid _, _ => rfl

theorem outer_statements : ∀ (ss : List Stmt) (n : Names), (statements ss n).2.outer = n.outer
  | [], _ => rfl
  | s :: ss, n => (outer_statements ss _).trans (outer_statement s n)

end

end Checker

/-! ## What a scope knows to the checker -/

/-- The names that a frame binds. -/
def Frame.names (f : Frame) : Finset String :=
  (f.filterMap Binding.name).toFinset

/-- The names that a scope binds. -/
def Scope.names (s : Scope) : Checker.Names :=
  ⟨s.inner.names, s.outer.map Frame.names⟩

theorem Frame.mem_names {f : Frame} {name : String} : name ∈ f.names ↔ ∃ b ∈ f, b.name = some name := by
  simp [Frame.names]

theorem Frame.isSome_find? {f : Frame} {name : String} : (f.find? name).isSome ↔ name ∈ f.names := by
  rw [Frame.mem_names, Frame.find?, List.find?_isSome]
  simp

namespace Scope

variable {s : Scope} {name : String}

theorem isSome_get? : (s.get? name).isSome ↔ s.names.Visible name := by
  rw [get?, List.findSome?_isSome_iff]
  simp [Frame.isSome_find?, frames, names, Checker.Names.Visible]

theorem isTaken_some : s.isTaken (some name) = true ↔ name ∈ s.names.inner :=
  Frame.isSome_find?

/-- A name that is bound is declared. -/
theorem names_bind_some (cell : Int) : (s.bind ⟨some name, cell⟩).names = s.names.add name := by
  simp only [names, bind, Checker.Names.add, Checker.Names.mk.injEq, and_true]
  ext other
  simp [Frame.mem_names, or_comm, eq_comm]

/-- A temporary is not. -/
theorem names_bind_none (cell : Int) : (s.bind ⟨none, cell⟩).names = s.names := by
  simp only [names, bind, Checker.Names.mk.injEq, and_true]
  ext other
  simp [Frame.mem_names]

theorem names_erase (cell : Int) : ({ s with inner := s.inner.erase ⟨none, cell⟩ } : Scope).names = s.names := by
  simp only [names, Checker.Names.mk.injEq, and_true]
  ext other
  rw [Frame.mem_names, Frame.mem_names]
  constructor
  · rintro ⟨b, hb, hname⟩
    exact ⟨b, List.mem_of_mem_erase hb, hname⟩
  · rintro ⟨b, hb, hname⟩
    have hne : b ≠ ⟨none, cell⟩ := by
      rintro rfl
      cases hname
    exact ⟨b, (List.mem_erase_of_ne hne).2 hb, hname⟩

end Scope

namespace Resolver

variable {r r' : Resolver} {name : String} {cell : ℕ}

theorem isSome_lookup? : (r.lookup? name).isSome ↔ r.scope.names.Visible name := by
  rw [lookup?, Option.isSome_map, Scope.isSome_get?]

theorem names_define_some (h : r.define (some name) = .ok (cell, r')) :
    name ∉ r.scope.names.inner ∧ r'.scope.names = r.scope.names.add name := by
  obtain ⟨htaken, memory, -, rfl⟩ := define_ok h
  refine ⟨fun hmem => ?_, Scope.names_bind_some _⟩
  rw [Scope.isTaken_some.2 hmem] at htaken
  cases htaken

theorem names_define_none (h : r.define none = .ok (cell, r')) : r'.scope.names = r.scope.names := by
  obtain ⟨-, memory, -, rfl⟩ := define_ok h
  exact Scope.names_bind_none _

theorem mem_names_of_define {other : String} (h : r.define (some name) = .error (.alreadyDefined other)) :
    name ∈ r.scope.names.inner := by
  by_contra hmem
  have htaken : r.scope.isTaken (some name) = false := by
    rw [← Bool.not_eq_true, Scope.isTaken_some]
    exact hmem
  -- a name that is not taken is refused only for want of a cell
  simp only [define, htaken, Occupancy.allocate] at h
  cases hfree : r.memory.lowestFree? <;> simp [hfree, Bind.bind, Except.bind, pure, Except.pure] at h

theorem names_release {cell : Int} (h : r.release cell = .ok r') : r'.scope.names = r.scope.names := by
  unfold release Scope.undefine at h
  split_ifs at h with hmem
  cases h
  exact Scope.names_erase cell

/-- Leaving a block restores the names around it. -/
theorem names_exit {n : Checker.Names} (h : r.exit = .ok r') (houter : r.scope.names.outer = n.inner :: n.outer) :
    r'.scope.names = n := by
  cases hframes : r.scope.outer with
  | nil => simp [exit, Scope.exit?, hframes] at h
  | cons f fs =>
    simp only [exit, Scope.exit?, hframes, Except.ok.injEq] at h
    subst h
    simp only [Scope.names, hframes, List.map_cons, List.cons.injEq] at houter
    exact congrArg₂ Checker.Names.mk houter.1 houter.2

end Resolver

/-! ## Diagnostics of code -/

/-- The diagnostic of an operation that is one. -/
def CellOp.diagnostic? : CellOp → Option Diagnostic
  | mark d => some d
  | _ => none

theorem CellCode.diagnostics_ofOps (os : List CellOp) : (ofOps os).diagnostics = os.filterMap CellOp.diagnostic? := by
  induction os with
  | nil => rfl
  | cons o os ih =>
    have hcons : ofOps (o :: os) = op o (ofOps os) := rfl
    rw [hcons, List.filterMap_cons, ← ih]
    cases o <;> rfl

namespace Plan

variable {r r' : Resolver} {code : CellCode} {i : Ident} {is : List Ident}

theorem diagnostics_report : (report r i).filterMap CellOp.diagnostic? = Checker.invisible r.scope.names i := by
  have hvisible : (r.lookup? i.name).isSome ↔ r.scope.names.Visible i.name := Resolver.isSome_lookup?
  unfold report Checker.invisible
  cases hl : r.lookup? i.name with
  | none =>
    rw [if_neg fun h => by simp [hl] at hvisible; exact hvisible h]
    rfl
  | some cell =>
    rw [if_pos (hvisible.1 (by simp [hl]))]
    rfl

/-- A name that is found is visible. -/
theorem invisible_eq_nil {cell : Int} (h : r.lookup? i.name = some cell) :
    Checker.invisible r.scope.names i = [] := by
  rw [← diagnostics_report, report, h]
  rfl

theorem diagnostics_reports :
    (is.flatMap (report r)).filterMap CellOp.diagnostic? = is.flatMap (Checker.invisible r.scope.names) := by
  rw [List.filterMap_flatMap]
  exact congrArg is.flatMap (funext fun _ => diagnostics_report)

theorem diagnostics_pass {reason : Reason} {o : Int → CellOp} (ho : ∀ cell, (o cell).diagnostic? = none) :
    (CellCode.ofOps (is.flatMap (pass r reason o))).diagnostics =
      is.flatMap fun i => Checker.marked reason i ++ Checker.invisible r.scope.names i := by
  rw [CellCode.diagnostics_ofOps, List.filterMap_flatMap]
  refine congrArg is.flatMap (funext fun i => ?_)
  have hmark : (if i.mark ≠ .none then [CellOp.mark ⟨reason, .ident i⟩] else []).filterMap CellOp.diagnostic? =
      Checker.marked reason i := by
    unfold Checker.marked
    by_cases h : i.mark = .none <;> simp [h, CellOp.diagnostic?]
  have hcell : (((r.lookup? i.name).map o).toList).filterMap CellOp.diagnostic? = [] := by
    cases r.lookup? i.name <;> simp [ho]
  rw [pass, List.filterMap_append, List.filterMap_append, hmark, hcell, diagnostics_report, List.append_nil]

/-- Moving a value into targets without a floor reports nothing. -/
theorem diagnostics_moveInto (source : Int) (his : ∀ i ∈ is, i.mark ≠ .floor) :
    (moveInto source (Generate.sortTargets (targets r is))).diagnostics = [] := by
  have hnone : misplaced (Generate.sortTargets (targets r is)) = [] := by
    rw [misplaced, List.map_eq_nil_iff, List.filter_eq_nil_iff]
    intro t ht
    obtain ⟨i, hi, hit⟩ := List.mem_filterMap.1 ((sortTargets_perm _).subset ht)
    obtain ⟨cell, -, rfl⟩ := Option.map_eq_some_iff.1 hit
    simpa using his i hi
  rw [moveInto, hnone, CellCode.diagnostics_append, CellCode.diagnostics_append, diagnostics_clearAll,
    diagnostics_transfer]
  rfl

theorem declare_checked (h : declare is r = .ok (code, r')) :
    Checker.declare is r.scope.names = (code.diagnostics, r'.scope.names) := by
  induction is generalizing r code with
  | nil =>
    obtain ⟨rfl, rfl⟩ := Prod.mk.inj (Except.ok.inj h)
    rfl
  | cons i is ih =>
    rw [Checker.declare]
    obtain ⟨cell, r₁, rest, hd, hrest, rfl⟩ | ⟨name, rest, hd, hrest, rfl⟩ := declare_cons_ok h
    · obtain ⟨hnew, hnames⟩ := Resolver.names_define_some hd
      rw [if_neg hnew, ← hnames, ih hrest]
      rfl
    · rw [if_pos (Resolver.mem_names_of_define hd), ih hrest]
      rfl

theorem assign_checked {value : Operand} (his : ∀ i ∈ is, i.mark ≠ .floor) (h : assign is value r = .ok (code, r')) :
    Checker.statement (.assign is value) r.scope.names = (code.diagnostics, r'.scope.names) := by
  cases value with
  | literal n =>
    obtain ⟨source, r₁, hd, hr, rfl⟩ := assignLiteral_ok h
    have hnames := Resolver.names_define_none hd
    rw [Resolver.names_release hr, CellCode.diagnostics_append, CellCode.diagnostics_ofOps,
      diagnostics_moveInto _ his, List.append_nil, List.filterMap_append, diagnostics_reports, hnames]
    rfl
  | ident i =>
    obtain ⟨rfl, rfl⟩ := Prod.mk.inj (Except.ok.inj h)
    have hreports : (CellOp.comment (Stmt.assign is (.ident i)).text :: (report r i ++ is.flatMap (report r))).filterMap
        CellOp.diagnostic? = (Checker.statement (.assign is (.ident i)) r.scope.names).1 := by
      rw [List.filterMap_cons_none rfl, List.filterMap_append, diagnostics_report, diagnostics_reports]
      rfl
    rw [CellCode.diagnostics_append, CellCode.diagnostics_ofOps, hreports]
    split
    · rw [diagnostics_moveInto _ his, List.append_nil]
      rfl
    · rw [CellCode.diagnostics, List.append_nil]
      rfl

section Block

variable {body : Resolver → Except Fault (CellCode × Resolver)} {ss : List Stmt} {subject : Ident}
  (hbody : ∀ r inner r', body r = .ok (inner, r') →
    Checker.statements ss r.scope.names = (inner.diagnostics, r'.scope.names))

include hbody

theorem block_checked (h : block body r = .ok (code, r')) :
    (Checker.statements ss r.scope.names.enter).1 = code.diagnostics ∧ r'.scope.names = r.scope.names := by
  obtain ⟨r₁, hb, hexit⟩ := block_ok h
  have hchecked := hbody _ _ _ hb
  have houter := Checker.outer_statements ss r.scope.names.enter
  have hchecked' : Checker.statements ss r.scope.names.enter = (code.diagnostics, r₁.scope.names) := hchecked
  rw [hchecked'] at houter ⊢
  exact ⟨rfl, Resolver.names_exit hexit houter⟩

theorem loop_checked (h : loop subject body r = .ok (code, r')) :
    Checker.invisible r.scope.names subject ++ (Checker.statements ss r.scope.names.enter).1 = code.diagnostics ∧
      r'.scope.names = r.scope.names := by
  obtain ⟨cell, inner, hl, hb, rfl⟩ | ⟨guard, r₁, inner, r₂, hl, hd, hb, hr, rfl⟩ := loop_ok h
  · obtain ⟨hinner, hnames⟩ := block_checked hbody hb
    refine ⟨?_, hnames⟩
    rw [invisible_eq_nil hl, hinner]
    simp [CellCode.diagnostics, diagnostics_applyMark]
  · have hdefine := Resolver.names_define_none hd
    obtain ⟨hinner, hnames⟩ := block_checked hbody hb
    rw [hdefine] at hinner hnames
    refine ⟨?_, (Resolver.names_release hr).trans hnames⟩
    rw [hinner, CellCode.diagnostics_append, CellCode.diagnostics_ofOps, diagnostics_report]
    simp [CellCode.diagnostics]

theorem branch_checked (h : branch subject body r = .ok (code, r')) :
    Checker.invisible r.scope.names subject ++ (Checker.statements ss r.scope.names.enter).1 = code.diagnostics ∧
      r'.scope.names = r.scope.names := by
  obtain ⟨cell, flag, r₁, scratch, r₂, r₃, inner, r₄, hl, hf, hs, hrs, hb, hrf, rfl⟩ |
    ⟨flag, r₁, inner, r₂, hl, hf, hb, hr, rfl⟩ := branch_ok h
  · have hbefore : r₃.scope.names = r.scope.names :=
      (Resolver.names_release hrs).trans ((Resolver.names_define_none hs).trans (Resolver.names_define_none hf))
    obtain ⟨hinner, hnames⟩ := block_checked hbody hb
    rw [hbefore] at hinner hnames
    refine ⟨?_, (Resolver.names_release hrf).trans hnames⟩
    rw [invisible_eq_nil hl, hinner]
    simp [copy, clear, CellCode.diagnostics, diagnostics_applyMark, diagnostics_transfer]
  · have hbefore := Resolver.names_define_none hf
    obtain ⟨hinner, hnames⟩ := block_checked hbody hb
    rw [hbefore] at hinner hnames
    refine ⟨?_, (Resolver.names_release hr).trans hnames⟩
    rw [hinner, CellCode.diagnostics_append, CellCode.diagnostics_ofOps, diagnostics_report]
    simp [clear, CellCode.diagnostics]

end Block

mutual

/-- The plan of a statement reports what the checker finds. -/
theorem statement_checked : ∀ (s : Stmt), s.Unfloored → ∀ {r r' : Resolver} {code : CellCode},
    statement s r = .ok (code, r') → Checker.statement s r.scope.names = (code.diagnostics, r'.scope.names)
  | .declare _, _, _, _, _, h => declare_checked h
  | .assign _ _, hs, _, _, _, h => assign_checked hs h
  | .print _, _, r, _, _, h => by
    obtain ⟨rfl, rfl⟩ := Prod.mk.inj (Except.ok.inj h)
    rw [diagnostics_pass fun _ => rfl]
    rfl
  | .read _, _, r, _, _, h => by
    obtain ⟨rfl, rfl⟩ := Prod.mk.inj (Except.ok.inj h)
    rw [diagnostics_pass fun _ => rfl]
    rfl
  | .branch _ body, hs, _, _, _, h => by
    rw [statement] at h
    obtain ⟨hdiagnostics, hnames⟩ := branch_checked (fun _ _ _ hb => statements_checked body hs hb) h
    rw [Checker.statement, hdiagnostics, hnames]
  | .loop _ body, hs, _, _, _, h => by
    rw [statement] at h
    obtain ⟨hdiagnostics, hnames⟩ := loop_checked (fun _ _ _ hb => statements_checked body hs hb) h
    rw [Checker.statement, hdiagnostics, hnames]
  | .define _ _ _, _, _, _, _, h | .call _ _, _, _, _, _, h | .bare _, _, _, _, _, h | .invalid _, _, _, _, _, h => by
    obtain ⟨rfl, rfl⟩ := Prod.mk.inj (Except.ok.inj h)
    rfl
  | .wrap inner, hs, _, _, _, h => by
    rw [statement] at h
    exact statement_checked inner hs h

/-- The plan of statements reports what the checker finds. -/
theorem statements_checked : ∀ (ss : List Stmt), Stmt.AllUnfloored ss → ∀ {r r' : Resolver} {code : CellCode},
    statements ss r = .ok (code, r') → Checker.statements ss r.scope.names = (code.diagnostics, r'.scope.names)
  | [], _, _, _, _, h => by
    obtain ⟨rfl, rfl⟩ := Prod.mk.inj (Except.ok.inj h)
    rfl
  | s :: ss, hs, _, _, _, h => by
    obtain ⟨first, r₁, rest, hfirst, hrest, rfl⟩ := statements_cons_ok h
    simp only [Checker.statements, statement_checked s hs.1 hfirst, statements_checked ss hs.2 hrest,
      CellCode.diagnostics_append]

end

end Plan

theorem diagnostics_eq_check {source : String} {program : List Stmt} {tapeSize : Int} {code : CellCode}
    (hparse : parse source (scan source) = .ok program) (hplan : plan program tapeSize = .ok code) :
    code.diagnostics = Checker.check program := by
  obtain ⟨r, r', hr, hs⟩ := plan_ok hplan
  obtain ⟨memory, -, rfl⟩ := exists_of_map_ok hr
  have hchecked := Plan.statements_checked program (parse_unfloored hparse) hs
  have hempty : Scope.empty.names = Checker.Names.empty := rfl
  rw [hempty] at hchecked
  rw [Checker.check, hchecked]

/-- A source that is parsed is compiled if its program has a plan, and fails as planning does otherwise. -/
theorem compile_of_parse {source : String} {program : List Stmt} (hparse : parse source (scan source) = .ok program)
    (options : Options) :
    (∃ code c, plan program options.tapeSize = .ok code ∧ compile source options = .ok c ∧
      c.instructions = code.instructions options.comments 0) ∨
    ∃ e, plan program options.tapeSize = .error e ∧ compile source options = .error (.generation e) := by
  rw [compile_eq_compileDirect, compileDirect, hparse]
  obtain ⟨code, hplan, hgen⟩ | ⟨e, hplan, hgen⟩ := generate_eq_plan program options.tapeSize options.comments
  · refine .inl ⟨code, ⟨code.instructions options.comments 0⟩, hplan, ?_, rfl⟩
    simp only [hgen, Except.map]
  · refine .inr ⟨e, hplan, ?_⟩
    simp only [Except.map]
    generalize generate program options.tapeSize options.comments = g at hgen ⊢
    obtain ⟨instructions, fault⟩ := g
    obtain rfl : fault = some e := hgen
    rfl

/-- **The diagnostics of a source are what the checker finds**, in the same order and as often; so there are none
exactly if the checker has nothing to say. A source that is parsed and yet not compiled has no tape, or one that is
too short. -/
theorem compiled_diagnostics_eq_check {source : String} {program : List Stmt}
    (hparse : parse source (scan source) = .ok program) (options : Options) :
    (∃ c, compile source options = .ok c ∧ diagnosticsOf c.instructions = Checker.check program ∧
      (c.diagnostics = [] ↔ Checker.check program = [])) ∨
    ∃ e, compile source options = .error (.generation e) ∧
      (options.tapeSize ≤ 0 ∧ e = .tapeSize options.tapeSize ∨
        0 < options.tapeSize ∧ e = .exhausted options.tapeSize.toNat) := by
  obtain ⟨code, c, hplan, hcompile, hc⟩ | ⟨e, hplan, hcompile⟩ := compile_of_parse hparse options
  · have hcheck : diagnosticsOf c.instructions = Checker.check program := by
      rw [hc, CellCode.diagnosticsOf_instructions, diagnostics_eq_check hparse hplan]
    refine .inl ⟨c, hcompile, hcheck, ?_⟩
    rw [Compiled.diagnostics, List.map_eq_nil_iff, hcheck]
  · exact .inr ⟨e, hcompile, plan_error hplan⟩

/-- A source with something wrong in every kind of statement. -/
def faultySource : String :=
  "var $a, $a; print _$b; if $c \x7b var $a; $a, +$d = $e; \x7d while $a \x7b var $e; \x7d $e = 1; $f($a);"

theorem compiled_diagnostics_eq_check_faulty :
    ∃ c, compile faultySource ⟨6, true, false, 1⟩ = .ok c ∧
      (diagnosticsOf c.instructions).map Diagnostic.culprit =
        [.ident ⟨.none, "$a"⟩, .ident ⟨.floor, "$b"⟩, .ident ⟨.floor, "$b"⟩, .ident ⟨.none, "$c"⟩,
          .ident ⟨.none, "$e"⟩, .ident ⟨.plus, "$d"⟩, .ident ⟨.none, "$e"⟩,
          .stmt (.call ⟨.none, "$f"⟩ [⟨.none, "$a"⟩])] := by
  have hfound : (parse faultySource (scan faultySource)).map
      (fun program => (Checker.check program).map Diagnostic.culprit) =
      .ok [.ident ⟨.none, "$a"⟩, .ident ⟨.floor, "$b"⟩, .ident ⟨.floor, "$b"⟩, .ident ⟨.none, "$c"⟩,
        .ident ⟨.none, "$e"⟩, .ident ⟨.plus, "$d"⟩, .ident ⟨.none, "$e"⟩,
        .stmt (.call ⟨.none, "$f"⟩ [⟨.none, "$a"⟩])] := by
    decide +kernel
  have hcompile : (compile faultySource ⟨6, true, false, 1⟩).map Compiled.ok = .ok false := by
    decide +kernel
  obtain ⟨program, hparse, hculprits⟩ := exists_of_map_ok hfound
  obtain ⟨c, hc, hcheck, -⟩ | ⟨e, herror, -⟩ := compiled_diagnostics_eq_check hparse ⟨6, true, false, 1⟩
  · exact ⟨c, hc, by rw [hcheck, hculprits]⟩
  · rw [herror] at hcompile
    cases hcompile

end TapeCompiler
