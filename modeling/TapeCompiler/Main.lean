import TapeCompiler.CommandLine.Run

/-!
# The program

Reads what `runCommand` needs and does what it says.
-/

namespace TapeCompiler

/-- The number of a system's fault, which may be handed on negated. -/
def faultNumber (code : UInt32) : UInt32 :=
  min code (0 - code)

/-- The bytes of a file. -/
def openOnDisk (path : String) : IO (Except FileFault ByteArray) := do
  try
    return .ok (← IO.FS.readBinFile path)
  catch
    | .noFileOrDirectory .. => return .error .missing
    | .inappropriateType _ code _ =>
      return .error (if faultNumber code = 21 then .isDirectory else .notDirectory)
    | e@(.invalidArgument _ code _) =>
      return .error (if faultNumber code = 36 then .nameTooLong else .other (toString e))
    | e => return .error (.other (toString e))

/-- Everything on the input. -/
partial def readAll (input : IO.FS.Stream) (read : ByteArray) : IO ByteArray := do
  let chunk ← input.read 65536
  if chunk.isEmpty then return read else readAll input (read ++ chunk)

/-- What a call with these arguments reads: the input, if it is a text, and the file. -/
def readSources (args : List String) : IO (Option String × Except FileFault ByteArray) := do
  match Request.ofArguments args with
  | .work i =>
    match i.path? with
    | some path => return (some "", ← openOnDisk path)
    | none => return (Encoding.utf8.decode? (← readAll (← IO.getStdin) .empty), .error .missing)
  | _ => return (some "", .error .missing)

/-- Ends as an outcome says. -/
def finish : Outcome → IO UInt32
  | .exited code output errors => do
    IO.print output
    IO.eprint errors
    return code.toUInt32
  | .misused => do
    IO.eprint usage
    return 2
  | .badPath => do
    IO.eprintln "The path holds a null character"
    return 1
  | .undecodable => do
    IO.eprintln "The source is not UTF-8"
    return 1
  | .aborted fault => do
    IO.eprintln fault.message
    return 1

end TapeCompiler

open TapeCompiler in
/-- Compiles a source, or shows its tokens, its statements or its instructions. -/
def main (args : List String) : IO UInt32 := do
  let (input, file) ← readSources args
  match input with
  | none => finish .undecodable
  | some input => finish (runCommand args input fun _ => file)
