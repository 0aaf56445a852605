/-!
# Lines of a text

A line ends at a line feed. Lines are numbered from one, and a text that ends in a line feed has an
empty last line.

* `lineAt`: the line on which an offset lies.
* `lines`: the lines of a text, without their ends.
* `unifyLineEnds`: one line feed for every way to end a line.
-/

namespace TapeCompiler

/-- How many characters of a text of that length stand before an offset. A negative offset counts from
the end of the text. -/
def charsBefore (length : Nat) (offset : Int) : Nat :=
  if offset < 0 then (length + offset).toNat else offset.toNat

/-- Before an offset from the start stand as many characters as it says. -/
@[simp]
theorem charsBefore_natCast (length offset : Nat) : charsBefore length offset = offset := by
  have h : ¬ (offset : Int) < 0 := by omega
  simp [charsBefore, h]

/-- The number of the line on which the character at `offset` stands. An offset behind the text lies
on its last line, one before it on the first. -/
def lineAt (source : String) (offset : Int) : Nat :=
  (source.toList.take (charsBefore source.length offset)).count '\n' + 1

/-- The line of an offset from the start: one more than the line feeds before it. -/
theorem lineAt_natCast (source : String) (offset : Nat) :
    lineAt source offset = (source.toList.take offset).count '\n' + 1 := by
  simp [lineAt]

/-- Cuts at every line feed; there is always at least one line. -/
def splitLines : List Char → List (List Char)
  | [] => [[]]
  | c :: cs =>
    if c = '\n' then [] :: splitLines cs
    else
      match splitLines cs with
      | [] => [[c]]
      | l :: ls => (c :: l) :: ls

/-- A text has at least one line. -/
theorem splitLines_ne_nil (cs : List Char) : splitLines cs ≠ [] := by
  cases cs with
  | nil => simp [splitLines]
  | cons c cs =>
    unfold splitLines
    split
    · simp
    · split <;> simp

/-- A text has one line more than it has line feeds. -/
theorem length_splitLines (cs : List Char) : (splitLines cs).length = cs.count '\n' + 1 := by
  induction cs with
  | nil => rfl
  | cons c cs ih =>
    unfold splitLines
    split
    · rename_i h
      simp [h, ih]
    · rename_i h
      have hc : (c == '\n') = false := by simpa using h
      rw [List.count_cons, hc]
      split
      · rename_i hs
        exact absurd hs (splitLines_ne_nil cs)
      · rename_i hs
        rw [hs] at ih
        simpa using ih

/-- The lines of a text. -/
def lines (source : String) : List String :=
  (splitLines source.toList).map String.ofList

/-- A carriage return ends a line, together with the line feed behind it if there is one. -/
def unifyLineEnds : List Char → List Char
  | [] => []
  | '\r' :: '\n' :: cs => '\n' :: unifyLineEnds cs
  | c :: cs => (if c = '\r' then '\n' else c) :: unifyLineEnds cs

end TapeCompiler
