import TapeCompiler.Stream
import TapeCompiler.Text.Lines

/-!
# Source files

A file holds the bytes of a text in some encoding, with any of the usual line ends.

* `Encoding.decode?`: the text of bytes.
* `readSource?`: the same with unified line ends.
* `compileFile?`: compiles the bytes of a file, if they are a text.
-/

namespace TapeCompiler

/-- How a text is written in bytes. -/
inductive Encoding where
  | utf8
  /-- One byte for each of the first 256 characters. -/
  | latin1
  deriving DecidableEq, Repr, Inhabited

/-- The text that bytes encode. -/
def Encoding.decode? : Encoding → ByteArray → Option String
  | utf8, bytes => String.fromUTF8? bytes
  | latin1, bytes => some (String.ofList (bytes.toList.map fun b => Char.ofNat b.toNat))

/-- A text in which every line ends in a line feed. -/
def withUnifiedLineEnds (text : String) : String :=
  String.ofList (unifyLineEnds text.toList)

/-- The source in the bytes of a file. -/
def readSource? (encoding : Encoding) (bytes : ByteArray) : Option String :=
  (encoding.decode? bytes).map withUnifiedLineEnds

/-- Compiles the bytes of a file, if they are a text. -/
def compileFile? (encoding : Encoding) (bytes : ByteArray) (options : Options) :
    Option (Except CompileFault Compiled) :=
  (readSource? encoding bytes).map (compile · options)

end TapeCompiler
