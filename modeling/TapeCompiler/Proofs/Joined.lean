import TapeCompiler.Compile
import TapeCompiler.Proofs.CellCode.Exhaustion
import TapeCompiler.Proofs.Session
import TapeCompiler.Proofs.Syntax.Shifted

/-!
# Sources of one session

A session compiles one source after another with one generator. It might as well compile them as one source, in
which each starts on a new line.

* `Generator.compile`: compiles a source in a session.
* `Generate.statements_append`: what follows is generated from where the first statements leave the generator.
* `Generator.Reachable.exhausted_of_error`: only a tape that is too short ends a compilation in a session.
* `compile_joined`: **scanning, parsing and generation of two sources go together.**
-/

namespace TapeCompiler

/-- What follows is generated from where the first statements leave the generator. -/
theorem Generate.statements_append (program program' : List Stmt) :
    statements (program ++ program') = (statements program >>= fun _ => statements program') := by
  induction program with
  | nil => simp [statements]
  | cons s ss ih => simp [statements, ih]

namespace Generator

variable {g : Generator} {source : String} {program : List Stmt}

/-- Compiles a source in a session: the result, and the generator after it. -/
def compile (g : Generator) (source : String) : Except CompileFault Unit × Generator :=
  match parse source (scan source) with
  | .error f => (.error (.parsing f), g)
  | .ok program =>
    match g.perform (.generate program) with
    | (.ok _, g') => (.ok (), g')
    | (.error e, g') => (.error (.generation e), g')

/-- Only a tape that is too short ends a compilation in a session. -/
theorem Reachable.exhausted_of_error {e : Fault} {g' : Generator} (hg : g.Reachable)
    (h : Generate.statements program g = .error e g') : e = .exhausted g.resolver.memory.size := by
  obtain ⟨code, r, -, hx, -⟩ | ⟨e', g'', hp, hx, -⟩ := Generate.statements_follow program g.resolver g.assembler
  · cases h.symm.trans hx
  · cases h.symm.trans hx
    exact Plan.statements_exhausts program hg.valid e hp

/-- A new generator compiles a source as such. -/
theorem compileDirect_eq_compile {tapeSize : Int} {comments : Bool} (h : ofSize tapeSize comments = .ok g) :
    compileDirect source tapeSize comments =
      (g.compile source).1.map fun _ => (g.compile source).2.instructions := by
  unfold compileDirect compile
  cases parse source (scan source) with
  | error f => rfl
  | ok program =>
    have hassembler : g.assembler = .new comments := (ofSize_ok h).2
    simp only [generate, h]
    obtain ⟨code, r, -, hx, -⟩ | ⟨e, g', -, hx, -⟩ := Generate.statements_follow program g.resolver g.assembler
    · simp only [perform, hx, hassembler]
      simp [Assembler.finish, Assembler.assemble, Assembler.new, Except.map]
    · simp only [perform, hx, Except.map]

/-- A source that goes on after another one is compiled from where that one leaves the generator. -/
theorem compile_append {first second joined : String} {program' : List Stmt}
    (hfirst : parse first (scan first) = .ok program) (hsecond : parse second (scan second) = .ok program')
    (hjoined : parse joined (scan joined) = .ok (program ++ program')) (hok : (g.compile first).1 = .ok ()) :
    g.compile joined = (g.compile first).2.compile second := by
  simp only [compile, perform, hfirst, hsecond, hjoined, Generate.statements_append] at hok ⊢
  cases h : Generate.statements program g with
  | error e g' => simp [h] at hok
  | ok v g' => rw [Generate.bind_of_ok h]

end Generator

/-- **Compilation goes source by source.** Let the scan of a source come to its end. On the next line any other
source is scanned as it would be alone, up to where its tokens stand, also if it has a fault. If both sources
parse, so do they together, to the statements of the one and then of the other. A session in which the tape is
long enough for the first emits the same instructions for the two, and ends in the same fault, as one that compiles
them together; and if it begins with the first, that is what the two together are compiled to. -/
theorem compile_joined {first : String} (hend : (scan first).getLast?.map Token.kind = some .finish)
    (second : String) :
    scan (first ++ "\n" ++ second) =
        (scan first).dropLast ++ (scan second).map (Token.shift (first.length + 1)) ∧
      ∀ program program', parse first (scan first) = .ok program → parse second (scan second) = .ok program' →
        parse (first ++ "\n" ++ second) (scan (first ++ "\n" ++ second)) = .ok (program ++ program') ∧
        ∀ g : Generator, g.Reachable → (∀ size, (g.compile first).1 ≠ .error (.generation (.exhausted size))) →
          g.compile (first ++ "\n" ++ second) = (g.compile first).2.compile second ∧
          ∀ tapeSize comments, Generator.ofSize tapeSize comments = .ok g →
            compileDirect (first ++ "\n" ++ second) tapeSize comments =
              ((g.compile first).2.compile second).1.map
                fun _ => ((g.compile first).2.compile second).2.instructions := by
  refine ⟨scan_joined hend second, fun program program' hfirst hsecond => ?_⟩
  have hparse := parse_joined hfirst hsecond
  refine ⟨hparse, fun g hg hfits => ?_⟩
  -- the first source parses, and a generator of a session fails by exhaustion only
  have hok : (g.compile first).1 = .ok () := by
    simp only [Generator.compile, Generator.perform, hfirst] at hfits ⊢
    cases hs : Generate.statements program g with
    | ok v g' => rfl
    | error e g' =>
      simp only [hs, hg.exhausted_of_error hs] at hfits
      exact absurd rfl (hfits _)
  have hcompile := Generator.compile_append hfirst hsecond hparse hok
  refine ⟨hcompile, fun tapeSize comments hnew => ?_⟩
  rw [Generator.compileDirect_eq_compile hnew, hcompile]

/-- A declaration, and a comment that the end of the source cuts off. -/
def commentedSource : String :=
  "var $a; # print"

/-- A branch, which needs two cells for itself. -/
def branchSource : String :=
  "$a = 1; if $a \x7b print $a; \x7d"

/-- The comment ends with its line. On a tape of two cells the branch ends both compilations. -/
theorem compile_joined_commented :
    (scan commentedSource).getLast?.map Token.kind = some .finish ∧
      ∃ g, Generator.ofSize 2 false = .ok g ∧ (g.compile commentedSource).1 = .ok () ∧
        ((g.compile commentedSource).2.compile branchSource).1 = .error (.generation (.exhausted 2)) ∧
        g.compile (commentedSource ++ "\n" ++ branchSource) = (g.compile commentedSource).2.compile branchSource := by
  have hend : (scan commentedSource).getLast?.map Token.kind = some .finish := by decide +kernel
  have hfirst : parse commentedSource (scan commentedSource) = .ok [.declare [⟨.none, "$a"⟩]] := by decide +kernel
  have hsecond : parse branchSource (scan branchSource) =
      .ok [.assign [⟨.none, "$a"⟩] (.literal 1), .branch ⟨.none, "$a"⟩ [.print [⟨.none, "$a"⟩]]] := by
    decide +kernel
  have hrun : ((Generator.ofSize 2 false).map fun g =>
      ((g.compile commentedSource).1, ((g.compile commentedSource).2.compile branchSource).1)) =
        .ok (.ok (), .error (.generation (.exhausted 2))) := by
    decide +kernel
  cases hg : Generator.ofSize 2 false with
  | error e =>
    rw [hg] at hrun
    cases hrun
  | ok g =>
    simp only [hg, Except.map, Except.ok.injEq, Prod.mk.injEq] at hrun
    obtain ⟨hok, hexhausted⟩ := hrun
    have hfits : ∀ size, (g.compile commentedSource).1 ≠ .error (.generation (.exhausted size)) := by simp [hok]
    have hjoined := ((compile_joined hend branchSource).2 _ _ hfirst hsecond).2 g (.start hg) hfits
    exact ⟨hend, g, rfl, hok, hexhausted, hjoined.1⟩

end TapeCompiler
