import TapeCompiler.Proofs.Assembly
import TapeCompiler.Proofs.Stage
import TapeCompiler.Proofs.TapeLength

/-!
# Remarks

Whether remarks are emitted makes no difference to anything else. Leaving them out is a map on the states of
generation, and every step of generation commutes with it, also one that fails.

* `withoutRemarks`: instructions without the remarks, with the same code and the same diagnostics.
* `Assembler.mute`, `Generator.mute`: the state as it would be if no remark had ever been emitted.
* `Generate.statements_mute`: **generation commutes with leaving out the remarks.**
* `Assembler.Plain`: the remarks that were emitted hold no code.
* `remarks_inert`: **emitting remarks or not changes nothing but the remarks, and they hold no code.**
-/

namespace TapeCompiler

/-! ## Instructions without remarks -/

/-- Whether an instruction is a remark. -/
def Instruction.isRemark : Instruction → Bool
  | comment _ => true
  | move _ | add _ | openLoop | closeLoop | print | read | marker _ => false

/-- Instructions without the remarks. -/
def withoutRemarks (is : List Instruction) : List Instruction :=
  is.filter fun i => !i.isRemark

theorem Instruction.code_of_isRemark {i : Instruction} (h : i.isRemark = true) : i.code = "" := by
  cases i with
  | comment text => rfl
  | _ => cases h

theorem codeText_withoutRemarks (is : List Instruction) : codeText (withoutRemarks is) = codeText is := by
  induction is with
  | nil => rfl
  | cons i is ih =>
    unfold codeText withoutRemarks at ih ⊢
    cases hi : i.isRemark with
    | true => simp [hi, ih, Instruction.code_of_isRemark hi]
    | false => simp [hi, ih]

theorem diagnosticsOf_withoutRemarks (is : List Instruction) :
    diagnosticsOf (withoutRemarks is) = diagnosticsOf is := by
  unfold diagnosticsOf withoutRemarks
  rw [List.filterMap_filter]
  refine List.filterMap_congr fun i _ => ?_
  cases i <;> rfl

/-- **A remark holds no code**, whatever it is about. -/
theorem TapeOp.toChar_notMem_sanitize (op : TapeOp) (text : String) : op.toChar ∉ (sanitize text).toList := by
  rw [sanitize, String.toList_map, List.mem_map]
  rintro ⟨c, -, hc⟩
  by_cases hop : (ofChar? c).isSome
  · rw [if_pos hop] at hc
    revert hc
    cases op <;> decide
  · rw [if_neg hop] at hc
    rw [hc, ofChar?_toChar] at hop
    exact hop rfl

/-! ## States without remarks -/

namespace Assembler

variable {a b : Assembler}

/-- The assembler as it would be if no remark had ever been emitted. -/
def mute (a : Assembler) : Assembler :=
  { a with comments := false, emitted := (withoutRemarks a.emitted.toList).toArray }

theorem mute_emit (a : Assembler) {i : Instruction} (hi : i.isRemark = false) : (a.emit i).mute = a.mute.emit i := by
  simp [mute, emit, withoutRemarks, hi]

theorem mute_comment (a : Assembler) (text : String) : (a.comment text).mute = a.mute.comment text := by
  unfold comment
  split
  · simp [mute, emit, withoutRemarks, Instruction.isRemark]
  · rfl

theorem mute_move (a : Assembler) (cell : Int) : (a.move cell).mute = a.mute.move cell := by
  have hposition : a.mute.position = a.position := rfl
  unfold move
  rw [hposition]
  split_ifs
  · rfl
  · rw [← mute_emit a rfl]
    rfl

/-- Emitting where the head has been brought. -/
theorem mute_move_emit (a : Assembler) (cell : Int) {i : Instruction} (hi : i.isRemark = false) :
    ((a.move cell).emit i).mute = (a.mute.move cell).emit i := by
  rw [mute_emit _ hi, mute_move]

theorem closeLoop_mute (a : Assembler) : a.mute.closeLoop = a.closeLoop.map mute := by
  have hloops : a.mute.openLoops = a.openLoops := rfl
  unfold closeLoop
  rw [hloops]
  cases a.openLoops with
  | nil => rfl
  | cons cell rest =>
    simp only [Except.map]
    rw [← mute_move_emit a cell rfl]
    rfl

theorem finish_mute (a : Assembler) : a.mute.finish = a.finish := rfl

/-- **No operation depends on the remarks.** -/
theorem perform_mute (a : Assembler) (op : Op) : a.mute.perform op = ((a.perform op).1, (a.perform op).2.mute) := by
  cases op with
  | move cell => exact Prod.ext rfl (a.mute_move cell).symm
  | add cell n => exact Prod.ext rfl (a.mute_move_emit cell rfl).symm
  | openLoop cell =>
    simp only [perform, openLoop]
    rw [← mute_move_emit a cell rfl]
    rfl
  | closeLoop =>
    simp only [perform, closeLoop_mute]
    cases a.closeLoop <;> rfl
  | print cell => exact Prod.ext rfl (a.mute_move_emit cell rfl).symm
  | read cell => exact Prod.ext rfl (a.mute_move_emit cell rfl).symm
  | comment text => exact Prod.ext rfl (a.mute_comment text).symm
  | mark d =>
    simp only [perform, mark]
    rw [← mute_emit a rfl]
    rfl
  | finish => exact Prod.ext a.finish_mute rfl

/-- Only remarks that hold no code have been emitted. -/
def Plain (a : Assembler) : Prop :=
  ∀ text, Instruction.comment text ∈ a.emitted.toList → ∀ op : TapeOp, op.toChar ∉ text.toList

theorem Plain.emits (ha : a.Plain) (h : a.Emits b) : b.Plain := by
  obtain ⟨i, hemitted, -, -, hremark, -⟩ := h.exists_instruction
  intro text htext op
  rw [hemitted, List.mem_append, List.mem_singleton] at htext
  rcases htext with htext | rfl
  · exact ha text htext op
  · obtain ⟨original, rfl⟩ := hremark text rfl
    exact op.toChar_notMem_sanitize original

theorem plain_new (comments : Bool) : (new comments).Plain := by
  simp [Plain, new]

end Assembler

/-- The generator as it would be if no remark had ever been emitted. -/
def Generator.mute (g : Generator) : Generator :=
  { g with assembler := g.assembler.mute }

theorem Generator.resolver_mute (g : Generator) : g.mute.resolver = g.resolver := rfl

/-! ## Generation without remarks -/

namespace Generate

variable {α β : Type}

/-- What a step comes to if no remark is emitted. -/
def muted : EStateM.Result Fault Generator α → EStateM.Result Fault Generator α
  | .ok v g => .ok v g.mute
  | .error e g => .error e g.mute

/-- A step that commutes with leaving out the remarks, also where it fails. -/
def Mutes (x : Generating α) : Prop :=
  ∀ g : Generator, x g.mute = muted (x g)

namespace Mutes

theorem bind {x : Generating α} {f : α → Generating β} (hx : Mutes x) (hf : ∀ v, Mutes (f v)) : Mutes (x >>= f) := by
  intro g
  -- both runs go on, or both stop, since the first step ends in the same way with and without remarks
  have hfirst := hx g
  cases hg : x g with
  | ok v g' =>
    rw [hg] at hfirst
    rw [bind_of_ok hg, bind_of_ok hfirst]
    exact hf v g'
  | error e g' =>
    rw [hg] at hfirst
    rw [bind_of_error hg, bind_of_error hfirst]
    rfl

theorem emit (op : Assembler.Op) : Mutes (emit fun a => (a.perform op).2) := by
  intro g
  simp only [Generate.emit, Generator.mute, Assembler.perform_mute, muted]

theorem closeLoop : Mutes closeLoop := by
  intro g
  simp only [Generate.closeLoop, Generator.mute, Assembler.closeLoop_mute]
  cases g.assembler.closeLoop <;> rfl

theorem mark (d : Diagnostic) (g : Generator) :
    { g.mute with assembler := g.mute.assembler.mark d } =
      ({ g with assembler := g.assembler.mark d } : Generator).mute := by
  have hmark := congrArg Prod.snd (g.assembler.perform_mute (.mark d))
  exact congrArg (Generator.mk g.resolver) hmark

theorem resolve (i : Ident) : Mutes (resolve i) := by
  intro g
  unfold Generate.resolve
  rw [Generator.resolver_mute]
  cases g.resolver.lookup? i.name with
  | some cell => rfl
  | none => exact congrArg (EStateM.Result.ok none) (mark _ g)

theorem temporary : Mutes temporary := by
  intro g
  unfold Generate.temporary
  rw [Generator.resolver_mute]
  cases g.resolver.define none <;> rfl

theorem release (cell : Int) : Mutes (release cell) := by
  intro g
  unfold Generate.release
  rw [Generator.resolver_mute]
  cases g.resolver.release cell <;> rfl

theorem leave : Mutes leave := by
  intro g
  unfold Generate.leave
  rw [Generator.resolver_mute]
  cases g.resolver.exit <;> rfl

theorem declare (i : Ident) : Mutes (declare i) := by
  intro g
  unfold Generate.declare
  rw [Generator.resolver_mute]
  cases g.resolver.define (some i.name) with
  | ok v => rfl
  | error e =>
    cases e with
    | alreadyDefined name => exact congrArg (EStateM.Result.ok ()) (mark _ g)
    | _ => rfl

theorem block {x : Generating Unit} (hx : Mutes x) : Mutes (block x) := by
  intro g
  have hbody : x { g.mute with resolver := g.mute.resolver.enter } =
      muted (x { g with resolver := g.resolver.enter }) := hx { g with resolver := g.resolver.enter }
  unfold Generate.block
  rw [hbody]
  cases x { g with resolver := g.resolver.enter } with
  | ok v g' => exact leave g'
  | error e g' =>
    -- the frame is left also after a failure, and that is no matter of the assembler
    simp only [muted, leave g']
    cases Generate.leave g' <;> rfl

end Mutes

/-- Composing steps that commute with leaving out the remarks gives such steps. -/
theorem closed_mutes : Closed Mutes where
  pure _ _ := rfl
  bind := .bind
  emit := .emit
  closeLoop := .closeLoop
  resolve := .resolve
  temporary := .temporary
  release := .release
  declare := .declare
  block := .block

/-- **Generation commutes with leaving out the remarks**, also where it fails. -/
theorem statements_mute (ss : List Stmt) : Mutes (statements ss) :=
  closed_mutes.statements ss

/-- How a run of generation ends. -/
def outcome : EStateM.Result Fault Generator α → Except Fault α
  | .ok v _ => .ok v
  | .error e _ => .error e

/-- A run of generation that differs from another one by leaving out the remarks and by nothing else. -/
structure Unremarked (loud quiet : EStateM.Result Fault Generator α) : Prop where
  instructions : (left quiet).instructions = withoutRemarks (left loud).instructions
  outcome : outcome quiet = outcome loud
  scope : (left quiet).resolver.scope = (left loud).resolver.scope
  memory : (left quiet).resolver.memory = (left loud).resolver.memory
  position : (left quiet).assembler.position = (left loud).assembler.position
  openLoops : (left quiet).assembler.openLoops = (left loud).assembler.openLoops
  errorCount : (left quiet).assembler.errorCount = (left loud).assembler.errorCount

theorem unremarked_muted (loud : EStateM.Result Fault Generator α) : Unremarked loud (muted loud) := by
  cases loud <;> exact ⟨rfl, rfl, rfl, rfl, rfl, rfl, rfl⟩

theorem outcome_statements {r : Resolver} (hr : r.Valid) (program : List Stmt) (a : Assembler) :
    outcome (statements program ⟨r, a⟩) = .ok () ∨
      outcome (statements program ⟨r, a⟩) = .error (.exhausted r.memory.size) := by
  obtain ⟨code, r', -, hx, -⟩ | ⟨e, g', hp, hx, -⟩ := statements_follow program r a
  · exact .inl (by rw [hx]; rfl)
  · obtain rfl : e = .exhausted r.memory.size := Plan.statements_exhausts program hr e hp
    exact .inr (by rw [hx]; rfl)

end Generate

/-! ## Compilation without remarks -/

theorem generate_mute (program : List Stmt) (tapeSize : Int) :
    generate program tapeSize false =
      (withoutRemarks (generate program tapeSize true).1, (generate program tapeSize true).2) := by
  unfold generate Generator.ofSize
  cases Resolver.ofSize tapeSize with
  | error e => rfl
  | ok r =>
    have hmute := Generate.statements_mute program ⟨r, .new true⟩
    rw [show (⟨r, .new true⟩ : Generator).mute = ⟨r, .new false⟩ from rfl] at hmute
    simp only [Except.map, hmute]
    cases Generate.statements program ⟨r, .new true⟩ with
    | error e g => rfl
    | ok v g =>
      simp only [Generate.muted, Generator.mute, Assembler.finish_mute]
      cases g.assembler.finish <;> rfl

theorem compileDirect_mute (source : String) (tapeSize : Int) :
    compileDirect source tapeSize false = (compileDirect source tapeSize true).map withoutRemarks := by
  unfold compileDirect
  cases parse source (scan source) with
  | error f => rfl
  | ok program =>
    simp only [generate_mute program tapeSize]
    generalize generate program tapeSize true = g
    obtain ⟨instructions, fault⟩ := g
    cases fault <;> rfl

/-- Code and diagnostics are those of the compilation without remarks. -/
theorem compile_mute (source : String) (options : Options) :
    (compile source options).map (fun c => (c.code, c.diagnostics)) =
      (compile source { options with comments := false }).map fun c => (c.code, c.diagnostics) := by
  rw [compile_eq_compileDirect, compile_eq_compileDirect]
  cases options.comments with
  | false => rfl
  | true =>
    simp only [compileDirect_mute]
    cases compileDirect source options.tapeSize true with
    | error f => rfl
    | ok is =>
      simp only [Except.map, Compiled.code, Compiled.diagnostics, codeText_withoutRemarks, diagnosticsOf_withoutRemarks]

/-- **Remarks are inert.** A tape without cells is refused with and without remarks. On any other tape, generation
for a program without remarks emits what it emits with them except for the remarks, ends in the same way, also if
the tape is too short, and leaves the same state. No remark holds a character that is an operation, also if
generation fails. So neither the code of a source nor its diagnostics depend on whether there are remarks. -/
theorem remarks_inert (program : List Stmt) (tapeSize : Int) :
    (tapeSize ≤ 0 → ∀ comments, Generator.ofSize tapeSize comments = .error (.tapeSize tapeSize)) ∧
      (0 < tapeSize → ∃ loud quiet,
        Generator.ofSize tapeSize true = .ok loud ∧ Generator.ofSize tapeSize false = .ok quiet ∧
        Generate.Unremarked (Generate.statements program loud) (Generate.statements program quiet) ∧
        (Generate.outcome (Generate.statements program loud) = .ok () ∨
          Generate.outcome (Generate.statements program loud) = .error (.exhausted tapeSize.toNat))) ∧
      (∀ comments g, Generator.ofSize tapeSize comments = .ok g →
        ∀ text, .comment text ∈ (Generate.left (Generate.statements program g)).instructions →
          ∀ op : TapeOp, op.toChar ∉ text.toList) ∧
      ∀ (source : String) (options : Options) (comments : Bool),
        (compile source { options with comments }).map (fun c => (c.code, c.diagnostics)) =
          (compile source options).map fun c => (c.code, c.diagnostics) := by
  refine ⟨fun hsize comments => ?_, fun hsize => ?_, fun comments g hg => ?_, fun source options comments => ?_⟩
  · unfold Generator.ofSize Resolver.ofSize Occupancy.ofSize
    rw [if_neg (by omega)]
    rfl
  · obtain ⟨r, hr⟩ := Resolver.exists_ofSize hsize
    obtain ⟨hvalid, -, hmemory, -⟩ := Resolver.valid_ofSize hr
    have hnew (comments : Bool) : Generator.ofSize tapeSize comments = .ok ⟨r, .new comments⟩ := by
      rw [Generator.ofSize, hr]
      rfl
    have hmute : Generate.statements program ⟨r, .new false⟩ =
        Generate.muted (Generate.statements program ⟨r, .new true⟩) :=
      Generate.statements_mute program ⟨r, .new true⟩
    refine ⟨_, _, hnew true, hnew false, ?_, ?_⟩
    · rw [hmute]
      exact Generate.unremarked_muted _
    · rw [← hmemory]
      exact Generate.outcome_statements hvalid program _
  · have hbecomes := Generate.statements_assemble program g
    rw [(Generator.ofSize_ok hg).2] at hbecomes
    exact hbecomes.keeps (fun _ _ ha => ha.emits) (Assembler.plain_new comments)
  · rw [compile_mute source options, compile_mute source { options with comments }]

/-- A variable has the only cell, and there is none for the literal that is to be taken from it: generation ends
between the remark and the code. -/
def strandedProgram : List Stmt :=
  [.declare [⟨.none, "$a"⟩], .assign [⟨.minus, "$a"⟩] (.literal 5)]

theorem remarks_inert_stranded :
    ∃ loud quiet, Generator.ofSize 1 true = .ok loud ∧ Generator.ofSize 1 false = .ok quiet ∧
      Generate.Unremarked (Generate.statements strandedProgram loud) (Generate.statements strandedProgram quiet) ∧
      Generate.outcome (Generate.statements strandedProgram loud) = .error (.exhausted 1) ∧
      (Generate.left (Generate.statements strandedProgram loud)).instructions = [.comment "~$a = 5"] ∧
      (Generate.left (Generate.statements strandedProgram quiet)).instructions = [] ∧
      ∀ op : TapeOp, op.toChar ∉ "~$a = 5".toList := by
  obtain ⟨-, hruns, hplain, -⟩ := remarks_inert strandedProgram 1
  obtain ⟨loud, quiet, hloud, hquiet, hunremarked, -⟩ := hruns (by decide)
  obtain rfl : ⟨⟨1, ⟨[false]⟩, .empty⟩, .new true⟩ = loud := Except.ok.inj hloud
  obtain rfl : ⟨⟨1, ⟨[false]⟩, .empty⟩, .new false⟩ = quiet := Except.ok.inj hquiet
  have hremark : (Generate.left (Generate.statements strandedProgram
      ⟨⟨1, ⟨[false]⟩, .empty⟩, .new true⟩)).instructions = [.comment "~$a = 5"] := by cbv
  refine ⟨_, _, hloud, hquiet, hunremarked, by cbv, hremark, ?_, hplain true _ hloud _ ?_⟩
  · rw [hunremarked.instructions, hremark]
    rfl
  · rw [hremark]
    exact List.mem_singleton_self _

end TapeCompiler
