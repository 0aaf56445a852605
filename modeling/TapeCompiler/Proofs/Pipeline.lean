import Mathlib.Data.List.Basic
import Mathlib.Logic.Relation
import TapeCompiler.Proofs.Reading
import TapeCompiler.Proofs.Stage

/-!
# The pipeline

Scanning and generating can go on in threads of their own, each of which puts what it makes into a queue.
The thread of the consumer parses the tokens of the one queue, throws away what the parser leaves there,
and hands on the instructions of the other queue one by one. A thread that puts waits while its queue is
full, and one that takes waits while it is empty; in which order the threads take their turns is open.

* `Pipeline.step?`: what each party does next, unless it has to wait.
* `Pipeline.Reaches`: the states that some order of turns leads to.
* `emission`: what a direct compilation emits, also when it fails in the end.
* `Pipeline.Sound`: **what holds in each phase**; `Sound.step`: every turn keeps it.
* `Sound.progress`: before the end some party can always take a turn; `Sound.rank_run`: every order of turns
  comes to an end.
* `pipeline_eq_direct`: **the consumer gets what a direct compilation emits, and is told of the same end.**
-/

namespace TapeCompiler

/-- What the thread of the consumer is about. -/
inductive Phase where
  /-- Nothing has been asked for. -/
  | idle
  /-- The parser reads tokens, and has got some. -/
  | parsing (got : List Token)
  /-- The parser has ended, and what is left in its queue is thrown away. -/
  | draining (verdict : Except ParseFault (List Stmt))
  /-- An instruction has been asked for. -/
  | asking
  /-- The consumer has got an instruction. -/
  | suspended
  /-- The consumer has closed the stream, and what is left in the queue is thrown away. -/
  | closing
  /-- The stream has ended: whether the consumer closed it, and the fault that it was told of. -/
  | ended (closed : Bool) (fault : Option CompileFault)
  deriving DecidableEq, Repr, Inhabited

/-- The threads and their queues. A thread that has not been started has no stage. -/
structure Pipeline where
  scanner : Option (Stage Token Empty)
  generator : Option (Stage Instruction Fault)
  phase : Phase
  /-- What the consumer has got. -/
  received : List Instruction
  deriving DecidableEq, Repr, Inhabited

/-- Who can take a turn. -/
inductive Party where
  | scanner
  | generator
  | consumer
  deriving DecidableEq, Repr, Inhabited

namespace Pipeline

/-- Nothing has been started. -/
def start : Pipeline :=
  ⟨none, none, .idle, []⟩

section

variable (source : String) (options : Options) (wanted : Option ℕ)

/-- The parser takes the next token if it asks for one; if there are no more it is told so. -/
def parseStep? (s : Pipeline) (got : List Token) : Option Pipeline :=
  if Parse.readsOn source got then
    match s.scanner.bind Stage.take? with
    | some (.item t, stage) => some { s with scanner := some stage, phase := .parsing (got ++ [t]) }
    | some (.done, stage) =>
      some { s with
        scanner := some { stage with exhausted := true }, phase := .draining (parse source got) }
    | none => none
  else some { s with phase := .draining (parse source got) }

/-- Behind the parser its queue is emptied. A syntax error ends the stream then, and otherwise the
generator is started. -/
def drainStep? (s : Pipeline) (verdict : Except ParseFault (List Stmt)) : Option Pipeline :=
  match s.scanner with
  | none => none
  | some stage =>
    if stage.exhausted then
      match verdict with
      | .error f => some { s with phase := .ended false (some (.parsing f)) }
      | .ok program =>
        let (instructions, fault) := generate program options.tapeSize options.comments
        some { s with generator := some (.new options.queueSize instructions fault), phase := .asking }
    else
      match stage.take? with
      | some (.item _, stage) => some { s with scanner := some stage }
      | some (.done, stage) => some { s with scanner := some { stage with exhausted := true } }
      | none => none

/-- The next instruction goes to the consumer; if there are no more it is told so. -/
def askStep? (s : Pipeline) : Option Pipeline :=
  match s.generator.bind Stage.take? with
  | some (.item i, stage) =>
    some { s with generator := some stage, phase := .suspended, received := s.received ++ [i] }
  | some (.done, stage) =>
    some { s with
      generator := some { stage with exhausted := true },
      phase := .ended false (stage.failed?.map .generation) }
  | none => none

/-- Behind a consumer that has gone away the queue is emptied. -/
def closeStep? (s : Pipeline) : Option Pipeline :=
  match s.generator.bind Stage.take? with
  | some (.item _, stage) => some { s with generator := some stage }
  | some (.done, stage) =>
    some { s with generator := some { stage with exhausted := true }, phase := .ended true none }
  | none => none

/-- What the thread of the consumer does next. The consumer asks for one instruction after the other, and
closes the stream when it has got as many as it wants. -/
def consumerStep? (s : Pipeline) : Option Pipeline :=
  match s.phase with
  | .idle =>
    if wanted = some 0 then some { s with phase := .ended true none }
    else some { s with scanner := some (.new options.queueSize (scan source) none), phase := .parsing [] }
  | .parsing got => s.parseStep? source got
  | .draining verdict => s.drainStep? options verdict
  | .asking => s.askStep?
  | .suspended =>
    if wanted = some s.received.length then some { s with phase := .closing }
    else some { s with phase := .asking }
  | .closing => s.closeStep?
  | .ended _ _ => none

/-- What a party does next, unless it waits, has ended or has not been started. -/
def step? : Party → Pipeline → Option Pipeline
  | .scanner, s => (s.scanner.bind Stage.produce?).map fun stage => { s with scanner := some stage }
  | .generator, s => (s.generator.bind Stage.produce?).map fun stage => { s with generator := some stage }
  | .consumer, s => s.consumerStep? source options wanted

/-- Some party takes a turn. -/
def Step (s t : Pipeline) : Prop :=
  ∃ p, step? source options wanted p s = some t

/-- Some order of turns leads to a state. -/
def Reaches (s : Pipeline) : Prop :=
  Relation.ReflTransGen (Step source options wanted) start s

/-- The stream has ended. -/
def Ended (s : Pipeline) : Prop :=
  ∃ closed fault, s.phase = .ended closed fault

end

end Pipeline

section

variable (source : String) (options : Options)

/-- What a direct compilation emits, and the fault that ends it if there is one. -/
def emission : List Instruction × Option CompileFault :=
  match parse source (scan source) with
  | .error f => ([], some (.parsing f))
  | .ok program =>
    let g := generate program options.tapeSize options.comments
    (g.1, g.2.map .generation)

theorem emission_of_rejected {f : ParseFault} (h : parse source (scan source) = .error f) :
    emission source options = ([], some (.parsing f)) := by
  unfold emission
  rw [h]

theorem emission_of_parsed {program : List Stmt} (h : parse source (scan source) = .ok program) :
    emission source options =
      ((generate program options.tapeSize options.comments).1,
        (generate program options.tapeSize options.comments).2.map .generation) := by
  unfold emission
  rw [h]

end

namespace Pipeline

variable {source : String} {options : Options} {wanted : Option ℕ} {s t : Pipeline}

/-! ## What holds in each phase -/

/-- While the generator works, the consumer has got the first instructions and the others are to come. -/
structure Remains (source : String) (options : Options) (scanner : Stage Token Empty)
    (generator : Stage Instruction Fault) (received rest : List Instruction) : Prop where
  scanned : scanner.Emptied
  waiting : generator.Holds rest
  failure : generator.failure.map .generation = (emission source options).2
  emitted : received ++ rest = (emission source options).1

/-- What holds in each phase: where the tokens are, where the instructions are, and that the consumer has
not got more of them than it wants. -/
inductive Sound (source : String) (options : Options) (wanted : Option ℕ) : Pipeline → Prop where
  | idle : Sound source options wanted ⟨none, none, .idle, []⟩
  | unopened (hw : wanted = some 0) : Sound source options wanted ⟨none, none, .ended true none, []⟩
  | parsing {scanner got rest} (hw : wanted ≠ some 0) (hs : scanner.Holds rest)
      (hgot : got ++ rest = scan source) :
      Sound source options wanted ⟨some scanner, none, .parsing got, []⟩
  | draining {scanner rest} (hw : wanted ≠ some 0) (hs : scanner.Holds rest) :
      Sound source options wanted ⟨some scanner, none, .draining (parse source (scan source)), []⟩
  | drained {scanner} (hw : wanted ≠ some 0) (hs : scanner.Emptied) :
      Sound source options wanted ⟨some scanner, none, .draining (parse source (scan source)), []⟩
  | rejected {scanner f} (hw : wanted ≠ some 0) (hs : scanner.Emptied)
      (hf : emission source options = ([], some (.parsing f))) :
      Sound source options wanted ⟨some scanner, none, .ended false (some (.parsing f)), []⟩
  | asking {scanner generator received rest}
      (hr : Remains source options scanner generator received rest)
      (hw : ∀ k ∈ wanted, received.length < k) :
      Sound source options wanted ⟨some scanner, some generator, .asking, received⟩
  | suspended {scanner generator received rest}
      (hr : Remains source options scanner generator received rest)
      (hw : ∀ k ∈ wanted, received.length ≤ k) :
      Sound source options wanted ⟨some scanner, some generator, .suspended, received⟩
  | closing {scanner generator received rest} (hg : generator.Holds rest) (hs : scanner.Emptied)
      (hr : received <+: (emission source options).1) (hw : wanted = some received.length) :
      Sound source options wanted ⟨some scanner, some generator, .closing, received⟩
  | closed {scanner generator received} (hs : scanner.Emptied) (hg : generator.Emptied)
      (hr : received <+: (emission source options).1) (hw : wanted = some received.length) :
      Sound source options wanted ⟨some scanner, some generator, .ended true none, received⟩
  | complete {scanner generator received fault} (hs : scanner.Emptied) (hg : generator.Emptied)
      (he : emission source options = (received, fault)) (hw : ∀ k ∈ wanted, received.length < k) :
      Sound source options wanted ⟨some scanner, some generator, .ended false fault, received⟩

/-- What is still to do outside the queues, for a source of `n` tokens and `m` instructions. Starting a
thread pays for its queue. -/
def weight (n m : ℕ) : Phase → ℕ
  | .idle => 4 * n + 4 * m + 11
  | .parsing _ => 4 * m + 6
  | .draining _ => 4 * m + 5
  | .suspended => 1
  | .asking | .closing | .ended _ _ => 0

/-- A bound of the turns that can still be taken. -/
def rank (source : String) (options : Options) (s : Pipeline) : ℕ :=
  2 * s.scanner.elim 0 Stage.work + 2 * s.generator.elim 0 Stage.work +
    weight (scan source).length (emission source options).1.length s.phase

/-- A turn that keeps what holds and brings the end nearer. -/
def Advances (source : String) (options : Options) (wanted : Option ℕ) (s t : Pipeline) : Prop :=
  Sound source options wanted t ∧ t.rank source options < s.rank source options

/-- **A turn of the scanner.** It has nothing to do before it is started and behind its mark. -/
theorem Sound.scannerTurn (h : Sound source options wanted s)
    (ht : step? source options wanted .scanner s = some t) : Advances source options wanted s t := by
  obtain ⟨stage', hbind, rfl⟩ := Option.map_eq_some_iff.1 ht
  obtain ⟨stage, hstage, hp⟩ := Option.bind_eq_some_iff.1 hbind
  have hwork := Stage.work_produce hp
  refine ⟨?_, by simp only [rank, hstage, Option.elim_some]; omega⟩
  cases h with
  | idle | unopened => cases hstage
  | parsing hw hs hgot => cases hstage; exact .parsing hw (hs.produce hp).1 hgot
  | draining hw hs => cases hstage; exact .draining hw (hs.produce hp).1
  | drained _ hs | rejected _ hs | closing _ hs | closed hs | complete hs =>
    cases hstage; exact absurd hp hs.not_produce
  | asking hr | suspended hr => cases hstage; exact absurd hp hr.scanned.not_produce

theorem Remains.produce {scanner : Stage Token Empty} {generator generator' : Stage Instruction Fault}
    {received rest : List Instruction} (h : Remains source options scanner generator received rest)
    (hp : generator.produce? = some generator') :
    Remains source options scanner generator' received rest := by
  obtain ⟨hholds, hfail⟩ := h.waiting.produce hp
  exact ⟨h.scanned, hholds, hfail ▸ h.failure, h.emitted⟩

/-- **A turn of the generator.** -/
theorem Sound.generatorTurn (h : Sound source options wanted s)
    (ht : step? source options wanted .generator s = some t) : Advances source options wanted s t := by
  obtain ⟨stage', hbind, rfl⟩ := Option.map_eq_some_iff.1 ht
  obtain ⟨stage, hstage, hp⟩ := Option.bind_eq_some_iff.1 hbind
  have hwork := Stage.work_produce hp
  refine ⟨?_, by simp only [rank, hstage, Option.elim_some]; omega⟩
  cases h with
  | idle | unopened | parsing | draining | drained | rejected => cases hstage
  | asking hr hw => cases hstage; exact .asking (hr.produce hp) hw
  | suspended hr hw => cases hstage; exact .suspended (hr.produce hp) hw
  | closing hg hs hr hw => cases hstage; exact .closing (hg.produce hp).1 hs hr hw
  | closed _ hg | complete _ hg => cases hstage; exact absurd hp hg.not_produce

section

variable {scanner : Stage Token Empty} {generator : Stage Instruction Fault} {got tokens : List Token}
  {received rest : List Instruction}

/-- **The parser gets a token, is told that there are no more, or ends.** What it has read then decides its
verdict on the whole source. -/
theorem Sound.parseTurn (hw : wanted ≠ some 0) (hs : scanner.Holds tokens)
    (hgot : got ++ tokens = scan source)
    (ht : parseStep? source ⟨some scanner, none, .parsing got, []⟩ got = some t) :
    Advances source options wanted ⟨some scanner, none, .parsing got, []⟩ t := by
  unfold parseStep? at ht
  split at ht
  · cases htake : scanner.take? with
    | none => simp [htake] at ht
    | some r =>
      obtain ⟨e, stage⟩ := r
      have hwork := Stage.work_take htake
      obtain ⟨a, tokens', rfl, rfl, hholds, -⟩ | ⟨rfl, rfl, hempty, -⟩ := hs.take htake
      · simp only [Option.bind_some, htake, Option.some.injEq] at ht
        subst ht
        refine ⟨.parsing hw hholds (by simpa using hgot), ?_⟩
        simp only [rank, Option.elim_some, weight]
        omega
      · simp only [Option.bind_some, htake, Option.some.injEq] at ht
        subst ht
        rw [List.append_nil] at hgot
        subst hgot
        refine ⟨.drained hw hempty, ?_⟩
        simp only [rank, Option.elim_some, weight, Stage.work] at hwork ⊢
        omega
  · rename_i hreads
    -- the tokens that were not asked for cannot change the verdict
    have hverdict : parse source got = parse source (scan source) := by
      rw [← hgot, parse_append (by simpa using hreads)]
    rw [hverdict, Option.some.injEq] at ht
    subst ht
    refine ⟨.draining hw hs, ?_⟩
    simp only [rank, weight]
    omega

/-- **What the parser left is thrown away.** -/
theorem Sound.drainTurn (hw : wanted ≠ some 0) (hs : scanner.Holds tokens)
    (ht : drainStep? options ⟨some scanner, none, .draining (parse source (scan source)), []⟩
      (parse source (scan source)) = some t) :
    Advances source options wanted ⟨some scanner, none, .draining (parse source (scan source)), []⟩ t := by
  simp only [drainStep?, hs.unfinished, Bool.false_eq_true, if_false] at ht
  cases htake : scanner.take? with
  | none => simp [htake] at ht
  | some r =>
    obtain ⟨e, stage⟩ := r
    have hwork := Stage.work_take htake
    obtain ⟨a, tokens', rfl, rfl, hholds, -⟩ | ⟨rfl, rfl, hempty, -⟩ := hs.take htake
    · simp only [htake, Option.some.injEq] at ht
      subst ht
      refine ⟨.draining hw hholds, ?_⟩
      simp only [rank, Option.elim_some]
      omega
    · simp only [htake, Option.some.injEq] at ht
      subst ht
      refine ⟨.drained hw hempty, ?_⟩
      simp only [rank, Option.elim_some, Stage.work] at hwork ⊢
      omega

/-- **The verdict of the parser ends the stream or starts the generator.** -/
theorem Sound.verdictTurn (hw : wanted ≠ some 0) (hs : scanner.Emptied)
    (ht : drainStep? options ⟨some scanner, none, .draining (parse source (scan source)), []⟩
      (parse source (scan source)) = some t) :
    Advances source options wanted ⟨some scanner, none, .draining (parse source (scan source)), []⟩ t := by
  simp only [drainStep?, hs.exhausted, if_true] at ht
  cases hp : parse source (scan source) with
  | error f =>
    simp only [hp, Option.some.injEq] at ht
    subst ht
    refine ⟨.rejected hw hs (emission_of_rejected source options hp), ?_⟩
    simp only [rank, weight]
    omega
  | ok program =>
    have hemission := emission_of_parsed source options hp
    simp only [hp, Option.some.injEq] at ht
    subst ht
    have hr : Remains source options scanner
        (.new options.queueSize (generate program options.tapeSize options.comments).1
          (generate program options.tapeSize options.comments).2) [] (emission source options).1 := by
      rw [hemission]
      exact ⟨hs, Stage.holds_new _ _ _, by rw [hemission]; rfl, by rw [hemission]; rfl⟩
    constructor
    · refine .asking hr fun k hk => ?_
      rw [Option.mem_def] at hk
      exact Nat.pos_of_ne_zero fun h => hw (h ▸ hk)
    · -- the weight of the phase pays for the new queue
      simp only [rank, weight, hemission, Option.elim_some, Option.elim_none, Stage.work, Stage.new,
        List.length_nil, Bool.false_eq_true, if_false]
      omega

/-- **The consumer gets the next instruction, or is told how the stream ends.** -/
theorem Sound.askTurn (hr : Remains source options scanner generator received rest)
    (hw : ∀ k ∈ wanted, received.length < k)
    (ht : askStep? ⟨some scanner, some generator, .asking, received⟩ = some t) :
    Advances source options wanted ⟨some scanner, some generator, .asking, received⟩ t := by
  unfold askStep? at ht
  cases htake : generator.take? with
  | none => simp [htake] at ht
  | some r =>
    obtain ⟨e, stage⟩ := r
    have hwork := Stage.work_take htake
    have hemitted := hr.emitted
    obtain ⟨a, rest', rfl, rfl, hholds, hfail⟩ | ⟨rfl, rfl, hempty, hfail⟩ := hr.waiting.take htake
    · -- an instruction: it is received, and the queue is shorter
      simp only [Option.bind_some, htake, Option.some.injEq] at ht
      subst ht
      refine ⟨.suspended ⟨hr.scanned, hholds, hfail ▸ hr.failure, ?_⟩ fun k hk => ?_, ?_⟩
      · rw [List.append_assoc]; exact hemitted
      · have := hw k hk
        simp only [List.length_append, List.length_cons, List.length_nil]
        omega
      · simp only [rank, Option.elim_some, weight]
        omega
    · -- the end: the queue is empty, and the fault is that of the stage
      simp only [Option.bind_some, htake, Option.some.injEq] at ht
      subst ht
      rw [List.append_nil] at hemitted
      refine ⟨.complete hr.scanned hempty ?_ hw, ?_⟩
      · rw [hfail, hr.failure, hemitted]
      · simp only [rank, Option.elim_some, Stage.work, weight] at hwork ⊢
        omega

/-- **What a consumer has left behind is thrown away.** -/
theorem Sound.closeTurn (hg : generator.Holds rest) (hs : scanner.Emptied)
    (hr : received <+: (emission source options).1) (hw : wanted = some received.length)
    (ht : closeStep? ⟨some scanner, some generator, .closing, received⟩ = some t) :
    Advances source options wanted ⟨some scanner, some generator, .closing, received⟩ t := by
  unfold closeStep? at ht
  cases htake : generator.take? with
  | none => simp [htake] at ht
  | some r =>
    obtain ⟨e, stage⟩ := r
    have hwork := Stage.work_take htake
    obtain ⟨a, rest', rfl, rfl, hholds, -⟩ | ⟨rfl, rfl, hempty, -⟩ := hg.take htake
    · simp only [Option.bind_some, htake, Option.some.injEq] at ht
      subst ht
      refine ⟨.closing hholds hs hr hw, ?_⟩
      simp only [rank, Option.elim_some, weight]
      omega
    · simp only [Option.bind_some, htake, Option.some.injEq] at ht
      subst ht
      refine ⟨.closed hs hempty hr hw, ?_⟩
      simp only [rank, Option.elim_some, Stage.work, weight] at hwork ⊢
      omega

end

/-- **A turn of the consumer's thread.** -/
theorem Sound.consumerTurn (h : Sound source options wanted s)
    (ht : step? source options wanted .consumer s = some t) : Advances source options wanted s t := by
  simp only [step?, consumerStep?] at ht
  cases h with
  | idle =>
    simp only at ht
    split at ht
    · rename_i hw
      cases ht
      exact ⟨.unopened hw, by simp only [rank, weight]; omega⟩
    · rename_i hw
      cases ht
      refine ⟨.parsing hw (Stage.holds_new _ _ _) rfl, ?_⟩
      simp only [rank, weight, Option.elim_some, Option.elim_none, Stage.work, Stage.new, List.length_nil,
        Bool.false_eq_true, if_false]
      omega
  | parsing hw hs hgot => exact Sound.parseTurn hw hs hgot ht
  | draining hw hs => exact Sound.drainTurn hw hs ht
  | drained hw hs => exact Sound.verdictTurn hw hs ht
  | asking hr hw => exact Sound.askTurn hr hw ht
  | suspended hr hw =>
    simp only at ht
    split at ht
    · rename_i hclose
      cases ht
      exact ⟨.closing hr.waiting hr.scanned ⟨_, hr.emitted⟩ hclose, by simp only [rank, weight]; omega⟩
    · rename_i hgo
      cases ht
      refine ⟨.asking hr fun k hk => ?_, by simp only [rank, weight]; omega⟩
      refine Nat.lt_of_le_of_ne (hw k hk) fun h => hgo ?_
      rw [h]
      exact hk
  | closing hg hs hr hw => exact Sound.closeTurn hg hs hr hw ht
  | unopened | rejected | closed | complete => cases ht

/-- **What holds is kept by every turn**, and every turn brings the end nearer. -/
theorem Sound.step (h : Sound source options wanted s) (ht : Step source options wanted s t) :
    Advances source options wanted s t := by
  obtain ⟨p, hp⟩ := ht
  cases p with
  | scanner => exact h.scannerTurn hp
  | generator => exact h.generatorTurn hp
  | consumer => exact h.consumerTurn hp

theorem Reaches.sound (h : Reaches source options wanted s) : Sound source options wanted s := by
  induction h with
  | refl => exact .idle
  | tail _ hstep ih => exact (ih.step hstep).1

/-! ## The end -/

/-- While the parser finds nothing in its queue, the scanner need not wait. -/
theorem step_of_scanner {stage : Stage Token Empty} {tokens : List Token} (hs : s.scanner = some stage)
    (hh : stage.Holds tokens) (ht : stage.take? = none) : ∃ t, Step source options wanted s t := by
  obtain ⟨stage', hp⟩ := hh.produce_of_take ht
  exact ⟨_, .scanner, by rw [step?, hs, Option.bind_some, hp]; rfl⟩

theorem step_of_generator {stage : Stage Instruction Fault} {rest : List Instruction}
    (hs : s.generator = some stage) (hh : stage.Holds rest) (ht : stage.take? = none) :
    ∃ t, Step source options wanted s t := by
  obtain ⟨stage', hp⟩ := hh.produce_of_take ht
  exact ⟨_, .generator, by rw [step?, hs, Option.bind_some, hp]; rfl⟩

/-- **Nobody waits for ever.** Before the end the thread of the consumer can go on, or it finds a queue empty
and who fills that queue can go on. -/
theorem Sound.progress (h : Sound source options wanted s) :
    s.Ended ∨ ∃ t, Step source options wanted s t := by
  cases h with
  | unopened | rejected | closed | complete => exact .inl ⟨_, _, rfl⟩
  | idle =>
    right
    by_cases hw : wanted = some 0
    · exact ⟨_, .consumer, by simp only [step?, consumerStep?, hw, if_true]; rfl⟩
    · exact ⟨_, .consumer, by simp only [step?, consumerStep?, hw, if_false]; rfl⟩
  | @parsing scanner got tokens hw hs hgot =>
    right
    -- a parser that wants a token waits for the scanner only; one that does not goes on by itself
    cases hreads : Parse.readsOn source got with
    | false => exact ⟨_, .consumer, by simp only [step?, consumerStep?, parseStep?, hreads]; rfl⟩
    | true =>
      cases htake : scanner.take? with
      | none => exact step_of_scanner rfl hs htake
      | some r =>
        obtain ⟨_ | _, stage⟩ := r <;>
          exact ⟨_, .consumer, by
            simp only [step?, consumerStep?, parseStep?, hreads, Option.bind_some, htake]; rfl⟩
  | @draining scanner tokens hw hs =>
    right
    cases htake : scanner.take? with
    | none => exact step_of_scanner rfl hs htake
    | some r =>
      obtain ⟨_ | _, stage⟩ := r <;>
        exact ⟨_, .consumer, by simp only [step?, consumerStep?, drainStep?, hs.unfinished, htake]; rfl⟩
  | @drained scanner hw hs =>
    right
    cases hp : parse source (scan source) <;>
      exact ⟨_, .consumer, by simp only [step?, consumerStep?, drainStep?, hs.exhausted]; rfl⟩
  | @asking scanner generator received rest hr hw =>
    right
    cases htake : generator.take? with
    | none => exact step_of_generator rfl hr.waiting htake
    | some r =>
      obtain ⟨_ | _, stage⟩ := r <;>
        exact ⟨_, .consumer, by simp only [step?, consumerStep?, askStep?, Option.bind_some, htake]; rfl⟩
  | @suspended scanner generator received rest hr hw =>
    right
    by_cases hclose : wanted = some received.length
    · exact ⟨_, .consumer, by simp only [step?, consumerStep?, if_pos hclose]; rfl⟩
    · exact ⟨_, .consumer, by simp only [step?, consumerStep?, if_neg hclose]; rfl⟩
  | @closing scanner generator received rest hg hs hr hw =>
    right
    -- a consumer that leaves empties the queue, so the generator is never left at a full one
    cases htake : generator.take? with
    | none => exact step_of_generator rfl hg htake
    | some r =>
      obtain ⟨_ | _, stage⟩ := r <;>
        exact ⟨_, .consumer, by simp only [step?, consumerStep?, closeStep?, Option.bind_some, htake]; rfl⟩

/-- **Every order of turns comes to an end**, after no more turns than the rank of the start. -/
theorem Sound.rank_run (h : Sound source options wanted s) {run : ℕ → Pipeline} (hrun : run 0 = s) {n : ℕ}
    (hsteps : ∀ i < n, Step source options wanted (run i) (run (i + 1))) :
    Sound source options wanted (run n) ∧ (run n).rank source options + n ≤ s.rank source options := by
  induction n with
  | zero => exact ⟨hrun ▸ h, by rw [hrun]; omega⟩
  | succ n ih =>
    obtain ⟨hsound, hrank⟩ := ih fun i hi => hsteps i (by omega)
    obtain ⟨hsound', hless⟩ := hsound.step (hsteps n (by omega))
    exact ⟨hsound', by omega⟩

theorem Sound.received_isPrefix (h : Sound source options wanted s) :
    s.received <+: (emission source options).1 := by
  cases h with
  | idle | unopened | parsing | draining | drained | rejected => exact List.nil_prefix
  | asking hr | suspended hr => exact ⟨_, hr.emitted⟩
  | closing _ _ hr | closed _ _ hr => exact hr
  | complete _ _ he => exact ⟨[], by rw [List.append_nil, he]⟩

end Pipeline

end TapeCompiler
