import TapeCompiler.Generator
import TapeCompiler.Program.Parse
import TapeCompiler.Token.Scan

/-!
# Compiling a source

A source is scanned, parsed and turned into instructions. A violation of the grammar, and a tape that is
too short, leave nothing; whatever else is wrong is listed as diagnostics.

* `generate`: the instructions of a program, and how its generation ends.
* `CompileFault`: why there is no result.
* `Compiled`: code, listing and diagnostics.
* `compileDirect`: the instructions of a source.

What a host may limit is left out: blocks are nested to any depth, whatever the size of a stack, and a tape has
any number of cells, whatever the largest index.
-/

namespace TapeCompiler

/-- The instructions that are emitted for a program, and the fault that ends them if there is one. -/
def generate (program : List Stmt) (tapeSize : Int) (comments : Bool) : List Instruction × Option Fault :=
  match Generator.ofSize tapeSize comments with
  | .error e => ([], some e)
  | .ok g =>
    match Generate.statements program g with
    | .error e g' => (g'.instructions, some e)
    | .ok _ g' =>
      match g'.assembler.finish with
      | .ok _ => (g'.instructions, none)
      | .error e => (g'.instructions, some e)

/-- Why a source is not compiled. -/
inductive CompileFault where
  | parsing (fault : ParseFault)
  | generation (fault : Fault)
  deriving DecidableEq, Repr, Inhabited

/-- The wording of a fault; a violation of the grammar is reported with its source. -/
def CompileFault.message : CompileFault → String
  | parsing (.rejected error) => error.report.message
  | parsing fault => fault.message
  | generation fault => fault.message

/-- The instructions of a source, one stage after the other. -/
def compileDirect (source : String) (tapeSize : Int) (comments : Bool) :
    Except CompileFault (List Instruction) :=
  match parse source (scan source) with
  | .error f => .error (.parsing f)
  | .ok program =>
    match generate program tapeSize comments with
    | (instructions, none) => .ok instructions
    | (_, some f) => .error (.generation f)

/-- A source that has been compiled. -/
structure Compiled where
  instructions : List Instruction
  deriving DecidableEq, Repr, Inhabited

namespace Compiled

/-- The tape code. -/
def code (c : Compiled) : String :=
  codeText c.instructions

/-- The mnemonics. -/
def listing (c : Compiled) : String :=
  TapeCompiler.listing c.instructions

/-- The diagnostics with their hints. -/
def diagnostics (c : Compiled) : List String :=
  (diagnosticsOf c.instructions).map Diagnostic.report

/-- Whether there are no diagnostics. -/
def ok (c : Compiled) : Bool :=
  c.diagnostics.isEmpty

end Compiled

end TapeCompiler
