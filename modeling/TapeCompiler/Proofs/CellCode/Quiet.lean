import TapeCompiler.Proofs.CellCode.Placement
import TapeCompiler.Proofs.CellCode.Tree
import TapeCompiler.Proofs.PlainText

/-!
# The diagnostics of a plan leave the head alone

A diagnostic stands in the code as its own text, and that text runs. It shows a part of the program, so it
holds nothing that moves the head or is a bracket.

* `CellCode.Plain`: code whose diagnostics have plain texts.
* `Plan.plain_statements`: the code of statements with plain names is plain.
* `plan_quiet`: **the diagnostics of a program that was parsed leave the head where it is.**
-/

namespace TapeCompiler

theorem PlainText.stationary {text : String} (h : PlainText text) : Stationary text := by
  intro o ho
  obtain ⟨c, hc, hop⟩ := List.mem_filterMap.1 ho
  have hplain := h c hc
  obtain rfl := TapeOp.toChar_of_ofChar? hop
  refine ⟨?_, ?_, ?_, ?_⟩ <;> rintro rfl <;> exact hplain (by decide)

/-- Code whose diagnostics have plain texts. -/
def CellCode.Plain (a : CellCode) : Prop :=
  ∀ d ∈ a.diagnostics, PlainText d.text

namespace CellCode

variable {a b : CellCode}

theorem Plain.quiet (h : a.Plain) : a.Quiet :=
  fun d hd => (h d hd).stationary

theorem plain_of_nil (h : a.diagnostics = []) : a.Plain := by
  intro d hd
  simp [h] at hd

theorem Plain.append (ha : a.Plain) (hb : b.Plain) : (a ++ b).Plain := by
  intro d hd
  rw [diagnostics_append, List.mem_append] at hd
  exact hd.elim (ha d) (hb d)

theorem Plain.loop {kind : LoopKind} {cell : Int} (ha : a.Plain) : (loop kind cell a .empty).Plain := by
  intro d hd
  rw [diagnostics, diagnostics, List.append_nil] at hd
  exact ha d hd

theorem mem_diagnostics_ofOps {os : List CellOp} {d : Diagnostic} :
    d ∈ (ofOps os).diagnostics ↔ .mark d ∈ os := by
  induction os with
  | nil => simp [ofOps, diagnostics]
  | cons o os ih =>
    have hcons : ofOps (o :: os) = op o (ofOps os) := rfl
    rw [hcons, List.mem_cons, ← ih]
    cases o <;> simp [diagnostics]

theorem plain_ofOps {os : List CellOp} (h : ∀ d, .mark d ∈ os → PlainText d.text) : (ofOps os).Plain :=
  fun d hd => h d (mem_diagnostics_ofOps.1 hd)

end CellCode

namespace Plan

variable {r r' : Resolver} {code : CellCode} {i : Ident} {is : List Ident}

theorem plain_report (hi : i.Plain) : ∀ d, .mark d ∈ report r i → PlainText d.text := by
  intro d hd
  unfold report at hd
  split at hd
  · cases hd
  · obtain rfl : d = ⟨.undefined i.name, .ident i⟩ := by simpa using hd
    refine hi.diagnostic ?_
    have hmessage : (Reason.undefined i.name).message = i.name ++ " is not defined" := rfl
    rw [hmessage, plainText_append]
    exact ⟨hi, by decide⟩

theorem plain_reports (his : ∀ i ∈ is, i.Plain) :
    ∀ d, .mark d ∈ is.flatMap (report r) → PlainText d.text := by
  intro d hd
  obtain ⟨i, hi, hd⟩ := List.mem_flatMap.1 hd
  exact plain_report (his i hi) d hd

theorem diagnostics_transfer (source : Int) (steps : List (Int × Int)) :
    (transfer source steps).diagnostics = [] := by
  refine List.eq_nil_iff_forall_not_mem.2 fun d hd => ?_
  simp [transfer, CellCode.diagnostics, CellCode.mem_diagnostics_ofOps] at hd

theorem diagnostics_clearAll (ts : List (Int × Ident)) : (clearAll ts).diagnostics = [] := by
  induction ts with
  | nil => rfl
  | cons t ts ih =>
    rw [clearAll]
    split
    · rw [CellCode.diagnostics_append, ih]; rfl
    · exact ih

theorem plain_moveInto {source : Int} {ts : List (Int × Ident)} (hts : ∀ t ∈ ts, t.2.Plain) :
    (moveInto source ts).Plain := by
  refine ((CellCode.plain_of_nil (diagnostics_clearAll ts)).append (CellCode.plain_ofOps ?_)).append
    (CellCode.plain_of_nil (diagnostics_transfer _ _))
  intro d hd
  obtain ⟨t, ht, hmark⟩ := List.mem_map.1 hd
  obtain rfl := CellOp.mark.inj hmark
  exact (hts t (List.mem_filter.1 ht).1).diagnostic (by decide)

theorem plain_targets (his : ∀ i ∈ is, i.Plain) : ∀ t ∈ Generate.sortTargets (targets r is), t.2.Plain := by
  intro t ht
  obtain ⟨i, hi, hit⟩ := List.mem_filterMap.1 ((sortTargets_perm _).subset ht)
  obtain ⟨cell, -, rfl⟩ := Option.map_eq_some_iff.1 hit
  exact his i hi

theorem plain_pass {reason : Reason} {o : Int → CellOp} (ho : ∀ cell d, o cell ≠ .mark d)
    (hr : PlainText reason.message) (his : ∀ i ∈ is, i.Plain) :
    (CellCode.ofOps (is.flatMap (pass r reason o))).Plain := by
  refine CellCode.plain_ofOps fun d hd => ?_
  obtain ⟨i, hi, hd⟩ := List.mem_flatMap.1 hd
  simp only [pass, List.mem_append] at hd
  rcases hd with (hd | hd) | hd
  · split at hd
    · obtain rfl : d = ⟨reason, .ident i⟩ := by simpa using hd
      exact (his i hi).diagnostic hr
    · cases hd
  · exact plain_report (his i hi) d hd
  · obtain ⟨cell, -, hcell⟩ := Option.map_eq_some_iff.1 (Option.mem_toList.1 hd)
    exact absurd hcell (ho cell d)

theorem plain_declare (his : ∀ i ∈ is, i.Plain) (h : declare is r = .ok (code, r')) : code.Plain := by
  induction is generalizing r code with
  | nil =>
    obtain ⟨rfl, rfl⟩ := Prod.mk.inj (Except.ok.inj h)
    exact CellCode.plain_of_nil rfl
  | cons i is ih =>
    obtain ⟨hi, his⟩ := List.forall_mem_cons.1 his
    obtain ⟨cell, r₁, rest, -, hrest, rfl⟩ | ⟨name, rest, -, hrest, rfl⟩ := declare_cons_ok h
    · have hplain : rest.Plain := ih his hrest
      exact hplain
    · exact List.forall_mem_cons.2 ⟨hi.diagnostic (by decide), ih his hrest⟩

theorem plain_assign {value : Operand} (his : ∀ i ∈ is, i.Plain) (hv : value.Plain)
    (h : assign is value r = .ok (code, r')) : code.Plain := by
  cases value with
  | literal n =>
    obtain ⟨source, r₁, -, -, rfl⟩ := assignLiteral_ok h
    refine (CellCode.plain_ofOps fun d hd => ?_).append (plain_moveInto (plain_targets his))
    exact plain_reports his d (by simpa using hd)
  | ident i =>
    obtain ⟨rfl, rfl⟩ := Prod.mk.inj (Except.ok.inj h)
    refine (CellCode.plain_ofOps fun d hd => ?_).append ?_
    · have hd' : .mark d ∈ report r i ++ is.flatMap (report r) := by simpa using hd
      exact (List.mem_append.1 hd').elim (plain_report hv d) (plain_reports his d)
    · split
      · exact plain_moveInto (plain_targets his)
      · exact CellCode.plain_of_nil rfl

section

variable {body : Resolver → Except Fault (CellCode × Resolver)} {subject : Ident}
  (hs : subject.Plain) (hbody : ∀ r inner r', body r = .ok (inner, r') → inner.Plain)

include hbody

theorem plain_block (h : block body r = .ok (code, r')) : code.Plain := by
  obtain ⟨r₁, hb, -⟩ := block_ok h
  exact hbody _ _ _ hb

include hs

theorem plain_loop (h : loop subject body r = .ok (code, r')) : code.Plain := by
  obtain ⟨cell, inner, -, hb, rfl⟩ | ⟨guard, r₁, inner, r₂, -, -, hb, -, rfl⟩ := loop_ok h
  · have hinner := plain_block hbody hb
    exact (hinner.append (CellCode.plain_of_nil (diagnostics_applyMark _ _))).loop
  · have hinner := plain_block hbody hb
    exact (CellCode.plain_ofOps (plain_report hs)).append hinner.loop

theorem plain_branch (h : branch subject body r = .ok (code, r')) : code.Plain := by
  have hclear (cell : Int) : (clear cell).Plain := CellCode.plain_of_nil rfl
  obtain ⟨cell, flag, r₁, scratch, r₂, r₃, inner, r₄, -, -, -, -, hb, -, rfl⟩ |
    ⟨flag, r₁, inner, r₂, -, -, hb, -, rfl⟩ := branch_ok h
  · have hinner := plain_block hbody hb
    have hcopy : (copy cell flag scratch).Plain :=
      (CellCode.plain_of_nil (diagnostics_transfer _ _)).append
        (CellCode.plain_of_nil (diagnostics_transfer _ _))
    exact hcopy.append (((hclear flag).append hinner).append
      (CellCode.plain_of_nil (diagnostics_applyMark _ _))).loop
  · have hinner := plain_block hbody hb
    exact (CellCode.plain_ofOps (plain_report hs)).append ((hclear flag).append hinner).loop

end

theorem plain_mark {reason : Reason} {s : Stmt} (hr : PlainText reason.message) (hs : s.Plain) :
    (CellCode.op (.mark ⟨reason, .stmt s⟩) .empty).Plain := by
  intro d hd
  obtain rfl : d = ⟨reason, .stmt s⟩ := by simpa [CellCode.diagnostics] using hd
  exact Diagnostic.plain_text hr hs.text

mutual

theorem plain_statement : ∀ (s : Stmt), s.Plain → ∀ {r r' : Resolver} {code : CellCode},
    statement s r = .ok (code, r') → code.Plain
  | .declare _, hs, _, _, _, h => plain_declare hs h
  | .assign _ _, hs, _, _, _, h => plain_assign hs.1 hs.2 h
  | .print _, hs, r, _, _, h => by
    obtain ⟨rfl, rfl⟩ := Prod.mk.inj (Except.ok.inj h)
    exact plain_pass (by simp) (by decide) hs
  | .read _, hs, r, _, _, h => by
    obtain ⟨rfl, rfl⟩ := Prod.mk.inj (Except.ok.inj h)
    exact plain_pass (by simp) (by decide) hs
  | .branch _ body, hs, _, _, _, h => by
    rw [statement] at h
    exact plain_branch hs.1 (fun _ _ _ hb => plain_statements body hs.2 hb) h
  | .loop _ body, hs, _, _, _, h => by
    rw [statement] at h
    exact plain_loop hs.1 (fun _ _ _ hb => plain_statements body hs.2 hb) h
  | .define _ _ _, hs, _, _, _, h | .call _ _, hs, _, _, _, h => by
    obtain ⟨rfl, rfl⟩ := Prod.mk.inj (Except.ok.inj h)
    exact plain_mark (by decide) hs
  | .wrap inner, hs, _, _, _, h => by
    rw [statement] at h
    exact plain_statement inner hs h
  | .bare operand, hs, _, _, _, h => by
    obtain ⟨rfl, rfl⟩ := Prod.mk.inj (Except.ok.inj h)
    refine plain_mark ?_ hs
    cases operand with
    | literal n => exact (by decide : PlainText "Lit is not compilable")
    | ident i => exact (by decide : PlainText "Ident is not compilable")
  | .invalid _, hs, _, _, _, h => by
    obtain ⟨rfl, rfl⟩ := Prod.mk.inj (Except.ok.inj h)
    exact plain_mark hs hs

theorem plain_statements : ∀ (ss : List Stmt), Stmt.AllPlain ss → ∀ {r r' : Resolver} {code : CellCode},
    statements ss r = .ok (code, r') → code.Plain
  | [], _, _, _, _, h => by
    obtain ⟨rfl, rfl⟩ := Prod.mk.inj (Except.ok.inj h)
    exact CellCode.plain_of_nil rfl
  | s :: ss, hs, _, _, _, h => by
    obtain ⟨first, r₁, rest, hfirst, hrest, rfl⟩ := statements_cons_ok h
    exact (plain_statement s hs.1 hfirst).append (plain_statements ss hs.2 hrest)

end

end Plan

/-- **The diagnostics of a program that was parsed leave the head where it is.** -/
theorem plan_quiet {source : String} {program : List Stmt} {tapeSize : Int} {code : CellCode}
    (hparse : parse source (scan source) = .ok program) (hplan : plan program tapeSize = .ok code) :
    code.Quiet := by
  obtain ⟨r, r', -, hs⟩ := plan_ok hplan
  exact (Plan.plain_statements program (parse_plain hparse) hs).quiet

end TapeCompiler
