import TapeCompiler.Stream
import TapeCompiler.Text.Numeral

/-!
# Arguments of the command line

An argument is a word or a flag. A flag is written in full or by a beginning that no other flag shares,
and a flag with a value has it behind an equals sign or as the next word. The call for help has a short
form of one dash and one letter; the letter may be repeated, and nothing else may be attached to it. A
word that looks like a negative number, or that holds a space and is no flag, is a word although it
starts with a dash. Behind two dashes everything is a word.

* `Flag`, `Argument.classify`.
* `Invocation`: what is to be done with which file.
* `Request.ofArguments`.
-/

namespace TapeCompiler

/-- The flags of the command line. -/
inductive Flag where
  | help
  | tokens
  | tree
  | mnemonics
  | tapeSize
  | noComments
  | threaded
  deriving DecidableEq, Repr, Inhabited

namespace Flag

/-- How a flag is written. -/
def spelling : Flag → String
  | help => "--help"
  | tokens => "--lex"
  | tree => "--parse"
  | mnemonics => "--str"
  | tapeSize => "--tape-size"
  | noComments => "--no-comments"
  | threaded => "--threaded"

/-- Every flag, once. -/
def all : List Flag :=
  [help, tokens, tree, mnemonics, tapeSize, noComments, threaded]

/-- The flag of that spelling. -/
def ofSpelling? (text : List Char) : Option Flag :=
  all.find? fun f => f.spelling.toList = text

/-- The flags that begin like a text. -/
def beginning (text : List Char) : List Flag :=
  all.filter fun f => text.isPrefixOf f.spelling.toList

end Flag

/-- What an argument is. -/
inductive Argument where
  | word (text : String)
  | flag (f : Flag) (value : Option String)
  /-- A beginning of several flags. -/
  | ambiguous
  /-- Neither a flag nor a word. -/
  | unknown
  deriving DecidableEq, Repr, Inhabited

/-- Whether a text is a dash and then digits, or digits with a point before the last of them. A line
feed behind it does not count. -/
def isNegativeNumber (text : List Char) : Bool :=
  let isDecimal (c : Char) := (decimalValue? c).isSome
  let body := match text.reverse with
    | '\n' :: rest => rest.reverse
    | _ => text
  match body with
  | '-' :: cs =>
    match cs.dropWhile isDecimal with
    | [] => !cs.isEmpty
    | '.' :: fraction => !fraction.isEmpty && fraction.all isDecimal
    | _ => false
  | _ => false

/-- Cuts a text at its first equals sign. -/
def splitAtEquals (text : List Char) : List Char × Option String :=
  let name := text.takeWhile (· ≠ '=')
  match text.dropWhile (· ≠ '=') with
  | [] => (name, none)
  | _ :: value => (name, some (String.ofList value))

/-- The short call for help with `tail` attached to it. Repetitions of the letter, which may stand behind
an equals sign, ask for the same again; anything else is a value. -/
def Argument.shortHelp (tail : List Char) : Argument :=
  let value := if tail.head? = some '=' then tail.tail else tail
  if tail = [] ∨ (value ≠ [] ∧ value.all (· = 'h')) then .flag .help none
  else .flag .help (some (String.ofList value))

/-- What an argument is that stands before two dashes. -/
def Argument.classify (arg : String) : Argument :=
  let text := arg.toList
  if text.head? ≠ some '-' ∨ text.length = 1 then .word arg
  else if text.take 2 = ['-', 'h'] then .shortHelp (text.drop 2)
  else
    let (name, value) := splitAtEquals text
    let candidates :=
      match Flag.ofSpelling? name with
      | some f => [f]
      | none => if name.take 2 = ['-', '-'] then Flag.beginning name else []
    match candidates with
    | [f] => .flag f value
    | _ :: _ :: _ => .ambiguous
    | [] => if isNegativeNumber text ∨ ' ' ∈ text then .word arg else .unknown

/-- What is shown instead of the tape code. -/
inductive View where
  | tokens
  | tree
  | mnemonics
  deriving DecidableEq, Repr, Inhabited

/-- What is to be done. -/
structure Invocation where
  /-- The file of the source; without one it is read from the input. -/
  file : Option String := none
  view : Option View := none
  tapeSize : Int := Resolver.defaultTapeSize
  comments : Bool := true
  threaded : Bool := false
  deriving DecidableEq, Repr, Inhabited

/-- The path of the file to read; a dash stands for the input. -/
def Invocation.path? (i : Invocation) : Option String :=
  i.file.filter (· ≠ "-")

/-- The options of a compilation. -/
def Invocation.options (i : Invocation) : Options :=
  { tapeSize := i.tapeSize, comments := i.comments, threaded := i.threaded }

/-- What the arguments ask for. -/
inductive Request where
  | help
  | work (i : Invocation)
  /-- The arguments make no sense. -/
  | misuse
  deriving DecidableEq, Repr, Inhabited

namespace Request

/-- Chooses a view; there is only one. -/
def choose (i : Invocation) (v : View) : Option Invocation :=
  if i.view = none ∨ i.view = some v then some { i with view := some v } else none

/-- A flag without a value. -/
def setFlag (i : Invocation) : Flag → Option Invocation
  | .tokens => choose i .tokens
  | .tree => choose i .tree
  | .mnemonics => choose i .mnemonics
  | .noComments => some { i with comments := false }
  | .threaded => some { i with threaded := true }
  | .help | .tapeSize => none

/-- The number of cells. -/
def setTapeSize (i : Invocation) (value : String) : Option Invocation :=
  (readInt? value).map fun n => { i with tapeSize := n }

/-- What the words behind two dashes add. `spare` says whether there was something that has no use. -/
def ofWords (i : Invocation) (spare : Bool) : List String → Request
  | [] => if spare then .misuse else .work i
  | w :: ws =>
    if i.file = none then ofWords { i with file := some w } spare ws else ofWords i true ws

/-- Reads the arguments from left to right. What has no use is a misuse in the end, but a call for help
is heard behind it. Two dashes have no use once a file is named, unless they stand right behind it. -/
def read (i : Invocation) (spare : Bool) : List String → Request
  | [] => if spare then .misuse else .work i
  | arg :: args =>
    if arg = "--" then ofWords i (spare || i.file.isSome) args
    else
      match Argument.classify arg with
      | .word w =>
        if i.file.isSome then read i true args
        else if args.head? = some "--" then ofWords { i with file := some w } spare args.tail
        else read { i with file := some w } spare args
      | .ambiguous => .misuse
      | .unknown => read i true args
      | .flag .help none => .help
      | .flag .tapeSize (some v) =>
        match setTapeSize i v with
        | some i' => read i' spare args
        | none => .misuse
      | .flag .tapeSize none =>
        match args with
        | [] => .misuse
        | v :: args' =>
          if v = "--" then .misuse
          else
            match Argument.classify v with
            | .word v =>
              match setTapeSize i v with
              | some i' => read i' spare args'
              | none => .misuse
            | _ => .misuse
      | .flag _ (some _) => .misuse
      | .flag f none =>
        match setFlag i f with
        | some i' => read i' spare args
        | none => .misuse

/-- What the arguments ask for. A beginning of several flags is refused wherever it stands. -/
def ofArguments (args : List String) : Request :=
  if (args.takeWhile (· ≠ "--")).any fun a => Argument.classify a = .ambiguous then .misuse
  else read {} false args

end Request

end TapeCompiler
