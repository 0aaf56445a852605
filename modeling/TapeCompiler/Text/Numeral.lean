import TapeCompiler.Text.DecimalDigit

/-!
# Reading whole numbers

A numeral is a sign or none, and decimal digits of any script with at most one underscore between two
of them. Padding around it is dropped, and a numeral of more than `maxDigits` digits is refused.

* `digits?`: the digits of an unsigned numeral.
* `readInt?`: the number that a text spells.
-/

namespace TapeCompiler

/-- The most digits of a numeral; leading zeros count. -/
def maxDigits : Nat := 4300

/-- The characters that may stand around a numeral. -/
def isPadding (c : Char) : Bool :=
  (0x09 ≤ c.toNat && c.toNat ≤ 0x0D) || c == ' ' || c.toNat == 0x85 || c.toNat == 0xA0 ||
    c.toNat == 0x1680 || (0x2000 ≤ c.toNat && c.toNat ≤ 0x200A) || c.toNat == 0x2028 ||
    c.toNat == 0x2029 || c.toNat == 0x202F || c.toNat == 0x205F || c.toNat == 0x3000

/-- Drops the padding at both ends. -/
def trimPadding (cs : List Char) : List Char :=
  ((cs.dropWhile isPadding).reverse.dropWhile isPadding).reverse

/-- The digits of an unsigned numeral, of which there is at least one. -/
def digits? : List Char → Option (List Nat)
  | [] => none
  | [c] => (decimalValue? c).map ([·])
  | c :: '_' :: cs => do return (← decimalValue? c) :: (← digits? cs)
  | c :: cs => do return (← decimalValue? c) :: (← digits? cs)

/-- The number that digits spell, the first one weighing most. -/
def ofDigits (ds : List Nat) : Nat :=
  ds.foldl (fun n d => 10 * n + d) 0

/-- The value of an unsigned numeral that is not too long. -/
def readNat? (cs : List Char) : Option Nat := do
  let ds ← digits? cs
  if ds.length ≤ maxDigits then some (ofDigits ds) else none

/-- The number that a text spells. -/
def readInt? (text : String) : Option Int :=
  match trimPadding text.toList with
  | '+' :: cs => (readNat? cs).map Int.ofNat
  | '-' :: cs => (readNat? cs).map fun n => -(n : Int)
  | cs => (readNat? cs).map Int.ofNat

end TapeCompiler
