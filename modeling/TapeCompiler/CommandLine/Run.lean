import TapeCompiler.CommandLine.Arguments
import TapeCompiler.CommandLine.Folder
import TapeCompiler.Program.Render
import TapeCompiler.SourceFile

/-!
# What the command line does

Given the arguments, the text on the input and a way to open files, everything that a call of the program
does is determined.

* `Outcome`: how a call ends.
* `runCommand`.
-/

namespace TapeCompiler

/-- How a call ends. -/
inductive Outcome where
  /-- With an exit code and what was written to the output and to the error output. -/
  | exited (code : Nat) (output errors : String)
  /-- The arguments make no sense. -/
  | misused
  /-- The path of the file holds a character that no path can hold. -/
  | badPath
  /-- The file is not a text. -/
  | undecodable
  /-- Something that is not a fault of the source. -/
  | aborted (fault : CompileFault)
  deriving DecidableEq, Repr, Inhabited

/-- How to call the program. -/
def usage : String :=
  "usage: [--lex | --parse | --str] [--tape-size N] [--no-comments] [--threaded] [file]\n"

/-- A line feed behind every semicolon and every brace. -/
def breakLines (text : String) : String :=
  String.ofList (text.toList.flatMap fun c => if c = ';' ∨ c = '{' ∨ c = '}' then [c, '\n'] else [c])

/-- Whether a fault is one of the source, which the user is told about. -/
def CompileFault.isReported : CompileFault → Bool
  | parsing (.rejected _) => true
  | generation (.exhausted _) | generation (.alreadyDefined _) => true
  | generation .noOpenLoop | generation (.loopsOpen _) => true
  | _ => false

/-- The end of a call that a fault stops. -/
def Outcome.ofFault (f : CompileFault) : Outcome :=
  if f.isReported then .exited 1 "" (f.message ++ "\n") else .aborted f

/-- Shows a source in the way that is asked for. -/
def showSource (i : Invocation) (source : String) : Outcome :=
  match i.view with
  | some .tokens => .exited 0 (String.join ((scan source).map fun t => t.label ++ "\n")) ""
  | some .tree =>
    match parse source (scan source) with
    | .error f => .ofFault (.parsing f)
    | .ok program => .exited 0 (breakLines (render program)) ""
  | some .mnemonics =>
    match compile source i.options with
    | .error f => .ofFault f
    | .ok c => .exited 0 (c.listing ++ "\n") ""
  | none =>
    match compile source i.options with
    | .error f => .ofFault f
    | .ok c => .exited 0 (c.code ++ "\n") ""

/-- What a call with these arguments does. `input` is the text on the input, which is read if no file is
named or its name is a dash. A path with a null character is refused before anything is opened. -/
def runCommand (args : List String) (input : String) (openFile : String → Except FileFault ByteArray) :
    Outcome :=
  match Request.ofArguments args with
  | .misuse => .misused
  | .help => .exited 0 usage ""
  | .work i =>
    match i.path? with
    | none => showSource i (withUnifiedLineEnds input)
    | some path =>
      if '\x00' ∈ path.toList then .badPath
      else
        match openFile path with
        | .error f => .exited 1 "" s!"File Error: {f.message path}\n"
        | .ok bytes =>
          match readSource? .utf8 bytes with
          | none => .undecodable
          | some source => showSource i source

end TapeCompiler
