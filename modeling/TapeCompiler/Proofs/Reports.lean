import Mathlib.Data.List.Forall2
import Mathlib.Data.List.Intervals
import TapeCompiler.Proofs.Stage
import TapeCompiler.Proofs.Syntax.Agreement
import TapeCompiler.Proofs.Syntax.Rescan

/-!
# Where a report points

A report knows the token that is wrong and the source, and no more. The token lies in the source, so its line is one of
the lines of the source, and the lines around it are those that the source has. Rows hold no line feed of their own, so
that they can be told apart again in the text of the report.

* `lines_intercalate`: **lines that are put together are found again.**
* `contextRows_eq`: the rows around a line, by the numbers of their lines.
* `ShowsLine`: a row shows a line of a source.
* `contextRows_arrow`: one of the rows has an arrow head.
* `report_points_at_line`: **a report points at the line of the first offence, and shows it and the lines around it.**
-/

namespace TapeCompiler

/-! ## Lines -/

theorem splitLines_eq_splitOn (cs : List Char) : splitLines cs = cs.splitOn '\n' := by
  induction cs with
  | nil => rfl
  | cons c cs ih =>
    rw [splitLines, List.splitOn_cons_eq_if_modifyHead, ← ih]
    by_cases hc : c = '\n'
    · simp [hc]
    · obtain ⟨l, ls, hls⟩ := List.exists_cons_of_ne_nil (splitLines_ne_nil cs)
      simp [hc, hls]

/-- **Lines that are put together are found again**, if there is one and none holds a line feed. -/
theorem lines_intercalate {rows : List String} (hne : rows ≠ []) (hrows : ∀ row ∈ rows, '\n' ∉ row.toList) :
    lines ("\n".intercalate rows) = rows := by
  have hsplit : ([('\n')].intercalate (rows.map String.toList)).splitOn '\n' = rows.map String.toList := by
    refine List.splitOn_intercalate _ ?_ (by simpa using hne)
    simpa using hrows
  have hfeed : "\n".toList = ['\n'] := rfl
  rw [lines, splitLines_eq_splitOn, String.toList_intercalate, hfeed, hsplit, List.map_map]
  exact (List.map_congr_left fun row _ => String.ofList_toList).trans (List.map_id rows)

theorem newline_notMem_splitLines {cs : List Char} : ∀ l ∈ splitLines cs, '\n' ∉ l := by
  induction cs with
  | nil => simp [splitLines]
  | cons c cs ih =>
    rw [splitLines]
    by_cases hc : c = '\n'
    · simpa [hc] using ih
    · obtain ⟨l, ls, hls⟩ := List.exists_cons_of_ne_nil (splitLines_ne_nil cs)
      rw [hls, List.forall_mem_cons] at ih
      simp only [hls, if_neg hc, List.forall_mem_cons]
      refine ⟨?_, ih.2⟩
      rw [List.mem_cons, not_or]
      exact ⟨fun h => hc h.symm, ih.1⟩

theorem newline_notMem_lines {source text : String} (h : text ∈ lines source) : '\n' ∉ text.toList := by
  obtain ⟨l, hl, rfl⟩ := List.mem_map.1 h
  rw [String.toList_ofList]
  exact newline_notMem_splitLines l hl

theorem length_lines (source : String) : (lines source).length = source.toList.count '\n' + 1 := by
  rw [lines, List.length_map, length_splitLines]

/-- Every offset lies on one of the lines of the source. -/
theorem lineAt_le (source : String) (offset : Int) : lineAt source offset ≤ (lines source).length := by
  rw [length_lines, lineAt]
  have hfirst := (List.take_sublist (charsBefore source.length offset) source.toList).count_le '\n'
  omega

/-! ## Rows -/

theorem zipIdx_one_eq_map (texts : List String) :
    texts.zipIdx 1 = (List.Ico 1 (texts.length + 1)).map fun number => (texts.getD (number - 1) "", number) := by
  refine List.ext_getElem (by simp) fun i hi _ => ?_
  have hlt : i < texts.length := by simpa using hi
  simp [List.Ico, Nat.add_comm, hlt]

/-- **The rows around a line**, one for every number that is near enough and is the number of a line. -/
theorem contextRows_eq (texts : List String) {line : ℕ} (hline : 1 ≤ line) (reach : ℕ) :
    contextRows texts line reach =
      (List.Ico (max 1 (line - reach)) (min texts.length (line + reach) + 1)).map fun number : ℕ =>
        contextRow line number (texts.getD (number - 1) "") := by
  have hmax : max 1 (line : Int) = line := by omega
  have hnear : (List.Ico 1 (texts.length + 1)).filter
      (fun number : ℕ => ((line : Int) - reach ≤ number ∧ (number : Int) ≤ line + reach : Bool)) =
      List.Ico (max 1 (line - reach)) (min texts.length (line + reach) + 1) := by
    have hstop : min texts.length (line + reach) + 1 = min (texts.length + 1) (line + reach + 1) := by omega
    rw [hstop, ← List.Ico.filter_lt, ← List.Ico.filter_le, List.filter_filter]
    refine List.filter_congr fun number _ => ?_
    rw [← Bool.decide_and]
    exact decide_eq_decide.2 (by omega)
  rw [contextRows, hmax, zipIdx_one_eq_map, List.filter_map, List.map_map]
  simp only [Function.comp_def]
  rw [hnear]

/-- A row shows a line of a source: an arrow head if it is the line that is meant, the number of the line in at least
four places, and all of its text. -/
def ShowsLine (source : String) (meant number : ℕ) (row : String) : Prop :=
  ∃ text, (lines source)[number - 1]? = some text ∧
    row.toList = (if number = meant then '>' else ' ') :: ' ' ::
      (List.replicate (4 - (toString number).length) ' ' ++ (toString number).toList ++ [' ', '|', ' '] ++ text.toList)

theorem newline_notMem_toString (n : ℕ) : '\n' ∉ (toString n).toList := by
  intro h
  rw [Nat.toString_eq_repr, Nat.repr_eq_ofList_toDigits, String.toList_ofList] at h
  have hdigit := Nat.isDigit_of_mem_toDigits (by omega) (by omega) h
  revert hdigit
  decide

namespace ShowsLine

variable {source row : String} {meant number : ℕ}

/-- A row that shows a line holds no line feed. -/
theorem newline_notMem (h : ShowsLine source meant number row) : '\n' ∉ row.toList := by
  obtain ⟨text, htext, hrow⟩ := h
  have hline := newline_notMem_lines (List.mem_of_getElem? htext)
  have hnumber := newline_notMem_toString number
  rw [hrow]
  generalize toString number = digits at hnumber
  split_ifs <;> simp [hline, hnumber]

/-- Only the line that is meant has an arrow head. -/
theorem head?_eq_iff (h : ShowsLine source meant number row) : row.toList.head? = some '>' ↔ number = meant := by
  obtain ⟨text, -, hrow⟩ := h
  rw [hrow]
  split_ifs with hmeant <;> simp [hmeant]

end ShowsLine

theorem showsLine_contextRow {source : String} {number : ℕ} (meant : ℕ) (hlow : 1 ≤ number)
    (hhigh : number ≤ (lines source).length) :
    ShowsLine source meant number (contextRow meant number ((lines source).getD (number - 1) "")) := by
  have hlt : number - 1 < (lines source).length := by omega
  have htext : (lines source).getD (number - 1) "" = (lines source)[number - 1] := by simp [hlt]
  have hnumber : toString (number : Int) = toString number := rfl
  refine ⟨(lines source)[number - 1], List.getElem?_eq_getElem hlt, ?_⟩
  rw [htext, contextRow, padLeft, hnumber]
  generalize toString number = digits
  simp only [Nat.cast_inj]
  split_ifs <;> simp

section

variable {source : String} {line : ℕ} (hlow : 1 ≤ line) (hhigh : line ≤ (lines source).length) (reach : ℕ)

include hlow

/-- The rows of a context show the lines around its line, one after the other. -/
theorem contextRows_show : List.Forall₂ (ShowsLine source line)
    (List.Ico (max 1 (line - reach)) (min (lines source).length (line + reach) + 1))
    (contextRows (lines source) line reach) := by
  rw [contextRows_eq _ hlow, List.forall₂_map_right_iff, List.forall₂_same]
  intro number hnumber
  rw [List.Ico.mem] at hnumber
  exact showsLine_contextRow line (by omega) (by omega)

include hhigh

/-- **One row has an arrow head**, the row of the line that is meant. -/
theorem contextRows_arrow : ∃ above row below, contextRows (lines source) line reach = above ++ row :: below ∧
    (ShowsLine source line line row ∧ row.toList.head? = some '>') ∧
    ∀ other ∈ above ++ below, other.toList.head? ≠ some '>' := by
  let row := fun number : ℕ => contextRow line number ((lines source).getD (number - 1) "")
  have hsplit : List.Ico (max 1 (line - reach)) (min (lines source).length (line + reach) + 1) =
      List.Ico (max 1 (line - reach)) line ++
        line :: List.Ico (line + 1) (min (lines source).length (line + reach) + 1) := by
    rw [← List.Ico.eq_cons (by omega), List.Ico.append_consecutive (by omega) (by omega)]
  have hshows := showsLine_contextRow line hlow hhigh
  refine ⟨(List.Ico (max 1 (line - reach)) line).map row, row line,
    (List.Ico (line + 1) (min (lines source).length (line + reach) + 1)).map row, ?_,
    ⟨hshows, hshows.head?_eq_iff.2 rfl⟩, ?_⟩
  · rw [contextRows_eq _ hlow, hsplit, List.map_append, List.map_cons]
  · intro other hother
    rw [← List.map_append] at hother
    obtain ⟨number, hnumber, rfl⟩ := List.mem_map.1 hother
    rw [List.mem_append, List.Ico.mem, List.Ico.mem] at hnumber
    have hshows' : ShowsLine source line number (row number) := showsLine_contextRow line (by omega) (by omega)
    rw [Ne, hshows'.head?_eq_iff]
    omega

/-- The text of a context holds its rows, one to a line. -/
theorem lines_contextText : lines (contextText (lines source) line reach) = contextRows (lines source) line reach := by
  obtain ⟨above, row, below, hrows, -⟩ := contextRows_arrow hlow hhigh reach
  refine lines_intercalate (by simp [hrows]) fun row hrow => ?_
  rw [contextRows_eq _ hlow] at hrow
  obtain ⟨number, hnumber, rfl⟩ := List.mem_map.1 hrow
  rw [List.Ico.mem] at hnumber
  exact (showsLine_contextRow line (by omega) (by omega)).newline_notMem

end

/-! ## Reports -/

theorem FirstOffence.offset_mem {source : String} {before : List Token} {t : Token}
    (h : FirstOffence (scan source) before t) : 0 ≤ t.offset ∧ t.offset ≤ source.length := by
  have hmem : t ∈ scan source := h.isPrefix.subset (by simp)
  have hlow := (scan_laid source).le_offset t hmem
  have hhigh := (scan_laid source).offset_le t hmem
  rw [String.length_toList] at hhigh
  omega

/-- A source is rejected by the parser alone. -/
theorem parse_of_compile_rejected {source : String} {options : Options} {e : SyntaxError}
    (h : compile source options = .error (.parsing (.rejected e))) :
    parse source (scan source) = .error (.rejected e) := by
  rw [compile_eq_compileDirect, compileDirect] at h
  cases hp : parse source (scan source) with
  | error f =>
    simp only [hp, Except.map, Except.error.injEq, CompileFault.parsing.injEq] at h
    rw [h]
  | ok program =>
    simp only [hp] at h
    generalize generate program options.tapeSize options.comments = g at h
    obtain ⟨instructions, fault⟩ := g
    cases fault <;> cases h

/-- **A report points at a real line.** If a source is rejected, the report names the line on which the first offence
stands, which is one of the lines of the source. Its context shows the lines from two before that line to two behind it,
as far as the source has them, each under its number and in full; and exactly one of its rows has an arrow head, the row
of the line itself. -/
theorem report_points_at_line {source : String} {options : Options} {e : SyntaxError}
    (h : compile source options = .error (.parsing (.rejected e))) :
    ∃ before t line, FirstOffence (scan source) before t ∧ e = ⟨t, source, t.complaint⟩ ∧
      (0 ≤ t.offset ∧ t.offset ≤ source.length) ∧
      (e.report.line = (line : ℕ) ∧ line = (source.toList.take t.offset.toNat).count '\n' + 1 ∧
        1 ≤ line ∧ line ≤ (lines source).length) ∧
      List.Forall₂ (ShowsLine source line)
        (List.Ico (max 1 (line - 2)) (min (lines source).length (line + 2) + 1)) (lines e.report.context) ∧
      ∃ above row below, lines e.report.context = above ++ row :: below ∧
        (ShowsLine source line line row ∧ row.toList.head? = some '>') ∧
        ∀ other ∈ above ++ below, other.toList.head? ≠ some '>' := by
  obtain ⟨before, t, hfirst, rfl⟩ := firstOffence_of_rejected (parse_of_compile_rejected h)
  obtain ⟨hnonneg, hinside⟩ := hfirst.offset_mem
  have hcount : lineAt source t.offset = (source.toList.take t.offset.toNat).count '\n' + 1 := by
    rw [← lineAt_natCast, Int.toNat_of_nonneg hnonneg]
  have hlow : 1 ≤ lineAt source t.offset := by omega
  have hhigh := lineAt_le source t.offset
  have hcontext : lines (SyntaxError.report ⟨t, source, t.complaint⟩).context =
      contextRows (lines source) (lineAt source t.offset) 2 := lines_contextText hlow hhigh 2
  refine ⟨before, t, lineAt source t.offset, hfirst, rfl, ⟨hnonneg, hinside⟩, ⟨rfl, hcount, hlow, hhigh⟩, ?_⟩
  rw [hcontext]
  exact ⟨contextRows_show hlow 2, contextRows_arrow hlow hhigh 2⟩

/-- A block that is not closed before the source ends, on the empty line behind the last line feed. -/
def unclosedSource : String :=
  "var $a;\n\nwhile $a \x7b\n"

theorem report_points_at_line_unclosed :
    ∃ e, compile unclosedSource {} = .error (.parsing (.rejected e)) ∧ e.report.line = 4 ∧
      List.Forall₂ (ShowsLine unclosedSource 4) [2, 3, 4] (lines e.report.context) := by
  have hcompile : compile unclosedSource {} =
      .error (.parsing (.rejected ⟨⟨.finish, "", 20⟩, unclosedSource, "Unexpected token EOF"⟩)) := by
    decide +kernel
  have hreport : (SyntaxError.report ⟨⟨.finish, "", 20⟩, unclosedSource, "Unexpected token EOF"⟩).line = 4 := by
    decide +kernel
  have hlast : (lines unclosedSource).length = 4 := by decide +kernel
  obtain ⟨_, _, line, -, -, -, ⟨hline, -⟩, hrows, -⟩ := report_points_at_line hcompile
  obtain rfl : line = 4 := by omega
  rw [hlast] at hrows
  exact ⟨_, hcompile, hreport, hrows⟩

end TapeCompiler
