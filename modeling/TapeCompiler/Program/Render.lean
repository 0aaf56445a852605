import TapeCompiler.Program.Basic

/-!
# Rendering programs

Statements are written one behind the other, each with a semicolon behind it, also behind the brace
of a block. Blocks are written to any depth.

* `Stmt.text`: a statement without its semicolon.
* `render`: a list of statements.
-/

namespace TapeCompiler

/-- Identifiers with commas between them. -/
def identsText (is : List Ident) : String :=
  ", ".intercalate (is.map Ident.text)

mutual

/-- A statement without the semicolon behind it. -/
def Stmt.text : Stmt → String
  | .declare names => "var " ++ identsText names
  | .assign targets value => identsText targets ++ " = " ++ value.text
  | .print names => "print " ++ identsText names
  | .read names => "read " ++ identsText names
  | .branch subject body => "if " ++ subject.text ++ " \x7b " ++ render body ++ " \x7d"
  | .loop subject body => "while " ++ subject.text ++ " \x7b " ++ render body ++ " \x7d"
  | .define name parameters body =>
    "def " ++ name.text ++ "(" ++ identsText parameters ++ ") \x7b " ++ render body ++ " \x7d"
  | .call name arguments => name.text ++ "(" ++ identsText arguments ++ ")"
  | .wrap inner => inner.text ++ ";"
  | .bare operand => operand.text
  | .invalid error => error.text

/-- Statements, each with a semicolon behind it. -/
def render : List Stmt → String
  | [] => ""
  | s :: ss => s.text ++ ";" ++ render ss

end

end TapeCompiler
