import TapeCompiler.Text.Quoted

/-!
# Files in a folder

A path is walked step by step. Every step but the last has to lead to a directory, and the first step
that fails decides the fault.

* `FileFault`: why a file cannot be opened.
* `Folder`: the files of one folder as a value, with nothing known of the directories around it.
* `Folder.openFile`: the content of the file at a path.
-/

namespace TapeCompiler

/-- Why a file cannot be opened. -/
inductive FileFault where
  | missing
  | isDirectory
  /-- A step of the path that should be a directory is a file. -/
  | notDirectory
  /-- The path, or a step of it, is longer than a file system takes. -/
  | nameTooLong
  | other (reason : String)
  deriving DecidableEq, Repr, Inhabited

/-- The wording of a fault at a path. -/
def FileFault.message (path : String) : FileFault → String
  | missing => s!"[Errno 2] No such file or directory: {quoted path}"
  | isDirectory => s!"[Errno 21] Is a directory: {quoted path}"
  | notDirectory => s!"[Errno 20] Not a directory: {quoted path}"
  | nameTooLong => s!"[Errno 36] File name too long: {quoted path}"
  | other reason => reason

/-- The files of a folder by their names. -/
structure Folder where
  files : List (String × ByteArray)

namespace Folder

/-- The most bytes of a step of a path. -/
def maxStepBytes : Nat := 255

/-- The most bytes of a path. -/
def maxPathBytes : Nat := 4095

/-- Where a walk along a path has come to. -/
inductive Place where
  /-- In the folder. -/
  | inside
  /-- In a directory above the folder. -/
  | above
  /-- At a file of the folder. -/
  | file (content : ByteArray)

/-- One step of a walk. An empty step and a single dot stay where they are, and two dots lead up. Above
the folder no name is known. -/
def step (d : Folder) (place : Place) (name : String) : Except FileFault Place :=
  match place with
  | .file _ => .error .notDirectory
  | .inside | .above =>
    if name = "" ∨ name = "." then .ok place
    else if name = ".." then .ok .above
    else if name.utf8ByteSize > maxStepBytes then .error .nameTooLong
    else
      match place, d.files.lookup name with
      | .inside, some content => .ok (.file content)
      | _, _ => .error .missing

/-- The content of the file at a path. A path that starts with a slash is walked from above. -/
def openFile (d : Folder) (path : String) : Except FileFault ByteArray := do
  if path = "" then throw .missing
  if path.utf8ByteSize > maxPathBytes then throw .nameTooLong
  let start : Place := if path.front = '/' then .above else .inside
  match ← (path.splitOn "/").foldlM d.step start with
  | .file content => return content
  | _ => throw .isDirectory

end Folder

end TapeCompiler
