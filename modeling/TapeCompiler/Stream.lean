import TapeCompiler.Compile
import TapeCompiler.Stage

/-!
# Compiling as a stream

The scanner and the generator can each be the producer of a stage: tokens go through one queue to the
parser, and instructions through another one to whoever asked for them. Nothing happens before the first
instruction is asked for. The instructions, and the way in which they end, are those of `compileDirect`.

* `Options`: what one can say about a compilation.
* `openStream`: the stage of the instructions of a source.
* `stream`: a number of instructions from it, or all of them.
* `compile`: a source with all options.
-/

namespace TapeCompiler

/-- What one can say about a compilation. -/
structure Options where
  /-- The number of cells of the tape. -/
  tapeSize : Int := Resolver.defaultTapeSize
  /-- Whether remarks are emitted. -/
  comments : Bool := true
  /-- Whether the work is done in stages. -/
  threaded : Bool := false
  /-- The bound of the queues between the stages; a queue is unbounded if it is not positive. -/
  queueSize : Int := 64
  deriving DecidableEq, Repr, Inhabited

/-- The stage from which the instructions of a source come. A violation of the grammar stops everything
before there is one. -/
def openStream (source : String) (options : Options) : Except CompileFault (Stage Instruction Fault) :=
  let scanner : Stage Token Empty := .new options.queueSize (scan source) none
  match parse source scanner.rest.1 with
  | .error f => .error (.parsing f)
  | .ok program =>
    let (instructions, fault) := generate program options.tapeSize options.comments
    .ok (.new options.queueSize instructions fault)

/-- What the consumer of a stream has got. -/
structure Received where
  instructions : List Instruction
  /-- Whether the consumer went away after it had got as much as it wanted. -/
  closed : Bool
  /-- The fault that ended the stream. -/
  fault : Option CompileFault
  deriving DecidableEq, Repr, Inhabited

/-- Consumes the instructions of a source, all of them or as many as wanted. -/
def stream (source : String) (options : Options) (wanted : Option Nat) : Received :=
  if wanted = some 0 then ⟨[], true, none⟩
  else
    match openStream source options with
    | .error f => ⟨[], false, some f⟩
    | .ok stage =>
      let (instructions, halt, _) := stage.takeUpTo (wanted.getD (stage.left + 1))
      match halt with
      | none => ⟨instructions, true, none⟩
      | some (.failed f) => ⟨instructions, false, some (.generation f)⟩
      | some _ => ⟨instructions, false, none⟩

/-- Compiles a source. -/
def compile (source : String) (options : Options) : Except CompileFault Compiled :=
  if options.threaded then
    let received := stream source options none
    match received.fault with
    | some f => .error f
    | none => .ok ⟨received.instructions⟩
  else (compileDirect source options.tapeSize options.comments).map Compiled.mk

end TapeCompiler
