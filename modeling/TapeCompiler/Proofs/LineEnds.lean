import TapeCompiler.Proofs.Compiled
import TapeCompiler.Proofs.Syntax.Rescan
import TapeCompiler.Proofs.Syntax.Shifted
import TapeCompiler.SourceFile

/-!
# Line ends

A carriage return is a blank like any other, but a comment goes on behind it, and a character literal may be one. If
every carriage return stands before a line feed, then a scan that comes to its end sees nothing of them: in a comment
the line feed ends the line, and a literal would not be closed behind its character.

* `joinLineEnds`: one line feed for a carriage return and a line feed.
* `Scanner.blanksAlike`: in most modes all blanks do the same.
* `Scanner.scanFrom_lineEnd`: **a carriage return before a line feed makes no difference**, in any mode.
* `contents_joinLineEnds`: **the tokens of a source do not depend on its line ends**, but for their places.
* `line_ends_irrelevant`: **a source is compiled from a file as it is compiled from memory.**
-/

namespace TapeCompiler

/-- Every carriage return stands directly before a line feed. -/
def ReturnsPaired (cs : List Char) : Prop :=
  ∀ i, cs[i]? = some '\r' → cs[i + 1]? = some '\n'

/-- One line feed for a carriage return and a line feed. -/
def joinLineEnds : List Char → List Char
  | [] => []
  | '\r' :: '\n' :: cs => '\n' :: joinLineEnds cs
  | c :: cs => c :: joinLineEnds cs

instance (cs : List Char) : Decidable (ReturnsPaired cs) :=
  decidable_of_iff (∀ i < cs.length, cs[i]? = some '\r' → cs[i + 1]? = some '\n')
    ⟨fun h i hi => h i (List.getElem?_eq_some_iff.1 hi).1 hi, fun h i _ => h i⟩

theorem ReturnsPaired.tail {c : Char} {cs : List Char} (h : ReturnsPaired (c :: cs)) : ReturnsPaired cs := by
  intro i hi
  simpa using h (i + 1) (by simpa using hi)

theorem ReturnsPaired.ne_return {c : Char} {cs : List Char} (h : ReturnsPaired (c :: cs))
    (hnext : ∀ ds, c = '\r' → cs = '\n' :: ds → False) : c ≠ '\r' := by
  rintro rfl
  have hhead : cs[0]? = some '\n' := by simpa using h 0 rfl
  cases cs with
  | nil => simp at hhead
  | cons d ds =>
    obtain rfl : d = '\n' := by simpa using hhead
    exact hnext ds rfl rfl

/-- Where every carriage return stands before a line feed, reading a file does no more than to join them. -/
theorem unifyLineEnds_eq_joinLineEnds {cs : List Char} (h : ReturnsPaired cs) : unifyLineEnds cs = joinLineEnds cs := by
  fun_induction joinLineEnds cs with
  | case1 => rfl
  | case2 cs ih => rw [unifyLineEnds, ih h.tail.tail]
  | case3 c cs hnext ih =>
    have hc := h.ne_return hnext
    rw [unifyLineEnds, if_neg hc, ih h.tail]
    exact hnext

namespace Scanner

open Advance

variable {pos : ℕ} {c : Char}

/-! ## Blanks -/

theorem not_isNameChar_of_isBlank (h : isBlank c = true) : isNameChar c = false := by
  by_contra hname
  have hblank := isBlank_of_isNameChar (c := c) (by simpa using hname)
  rw [h] at hblank
  cases hblank

theorem not_isLetter_of_isBlank (h : isBlank c = true) : isLetter c = false := by
  have hname := not_isNameChar_of_isBlank h
  simp only [isNameChar, Bool.or_eq_false_iff] at hname
  exact hname.1.1

theorem not_isDigit_of_isBlank (h : isBlank c = true) : isDigit c = false := by
  have hname := not_isNameChar_of_isBlank h
  simp only [isNameChar, Bool.or_eq_false_iff] at hname
  exact hname.1.2

theorem step_of_passesBlanks {m : Mode} (hm : m.passesBlanks = true) (hc : isBlank c = true) (start : ℕ)
    (lexeme : String) : (⟨m, start, lexeme⟩ : Scanner).step pos (some c) = into m (pos + 1) := by
  cases m with
  | statement => simp [step, atStatement, hc]
  | before slot => simp [step, atBefore, hc]
  | after slot => simp [step, atAfter, hc]
  | paren slot => simp [step, atParen, hc]
  | body => simp [step, atBody, hc]
  | value => simp [step, atValue, hc]
  | ending => simp [step, atEnding, hc]
  | comment | word | mark | sigil | name | digits | quote | unquote => cases hm

/-- An identifier that breaks off at a blank is taken to be missing, or it is a fault. -/
theorem atMissing_blank (slot : Slot) (lexeme : String) (pos : ℕ) :
    (∀ c, isBlank c = true → atMissing slot lexeme pos (some c) = into (.paren slot) (pos + 1)) ∨
      ∀ c, isBlank c = true → (atMissing slot lexeme pos (some c)).next = none := by
  have hparen (c : Char) (hc : isBlank c = true) : atParen slot pos (some c) = into (.paren slot) (pos + 1) := by
    rw [atParen, if_pos hc]
  cases slot with
  | declared | passed | target | subject | source | function => exact .inr fun _ _ => rfl
  | parameter first | argument first =>
    cases first with
    | false => exact .inr fun _ _ => rfl
    | true => exact .inl hparen

/-- All blanks do the same: what is being read ends, and the scan goes on in a mode in which blanks are passed over; or
it stops. -/
def BlanksAlike (s : Scanner) (pos : ℕ) : Prop :=
  (∃ ts m, m.passesBlanks = true ∧ ∀ c, isBlank c = true → s.step pos (some c) = ⟨ts, some ⟨m, pos + 1, ""⟩⟩) ∨
    ∀ c, isBlank c = true → (s.step pos (some c)).next = none

theorem blanksAlike_of_missing {s : Scanner} (slot : Slot) (lexeme : String)
    (hstep : ∀ c, isBlank c = true → s.step pos (some c) = atMissing slot lexeme pos (some c)) : s.BlanksAlike pos := by
  obtain hgoes | hstops := atMissing_blank slot lexeme pos
  · exact .inl ⟨[], .paren slot, rfl, fun c hc => (hstep c hc).trans (hgoes c hc)⟩
  · exact .inr fun c hc => by rw [hstep c hc, hstops c hc]

/-- **All blanks do the same**, but in a comment and behind the quote that opens a character literal. -/
theorem blanksAlike (s : Scanner) (pos : ℕ) (hcomment : s.mode ≠ .comment) (hquote : s.mode ≠ .quote) :
    s.BlanksAlike pos := by
  obtain ⟨mode, start, lexeme⟩ := s
  have hne {c d : Char} (hc : isBlank c = true) (hd : isBlank d = false) : some c ≠ some d := by
    rintro ⟨⟩
    rw [hc] at hd
    cases hd
  have hletter (c : Char) (hc : isBlank c = true) := not_isLetter_of_isBlank hc
  -- inside a lexeme a blank ends it, or is refused; between lexemes all blanks are skipped
  cases mode with
  | statement | before | after | paren | body | value | ending =>
    exact .inl ⟨[], _, rfl, fun c hc => step_of_passesBlanks rfl hc start lexeme⟩
  | comment => exact absurd rfl hcomment
  | quote => exact absurd rfl hquote
  | unquote =>
    refine .inr fun c hc => ?_
    simp only [step, atUnquote, if_neg (hne hc (by decide : isBlank '\'' = false))]
    rfl
  | word =>
    cases hword : Keyword.ofWord? lexeme with
    | none =>
      refine .inr fun c hc => ?_
      simp [step, hletter c hc, atWordEnd, hword, fault]
    | some k =>
      refine .inl ⟨[⟨.keyword k, lexeme, start⟩], .before (slotAfter k), rfl, fun c hc => ?_⟩
      simp [step, hletter c hc, atWordEnd, hword, atBefore, hc, withToken, into]
  | mark slot =>
    refine blanksAlike_of_missing slot lexeme fun c hc => ?_
    simp only [step, if_neg (hne hc (by decide : isBlank '$' = false))]
  | sigil slot =>
    refine blanksAlike_of_missing slot lexeme fun c hc => ?_
    simp only [step, hletter c hc, Bool.false_eq_true, if_false]
  | name slot =>
    refine .inl ⟨[⟨.ident, lexeme, start⟩], .after slot, rfl, fun c hc => ?_⟩
    simp [step, not_isNameChar_of_isBlank hc, atAfter, hc, withToken, into]
  | digits =>
    refine .inl ⟨[⟨.number, lexeme, start⟩], .ending, rfl, fun c hc => ?_⟩
    simp [step, not_isDigit_of_isBlank hc, atEnding, hc, withToken, into]

/-! ## A carriage return before a line feed -/

/-- A scan that stops at a character makes no token for the end of the source. -/
theorem unfinished_of_next {s : Scanner} {cs : List Char} (h : (s.step pos (some c)).next = none) :
    ∀ t ∈ s.scanFrom pos (c :: cs), t.kind ≠ .finish := by
  intro t ht
  have hfirst : (s.step pos (some c)).Unfinished := unfinished_step_some c
  rw [scanFrom_cons, onward, h, List.append_nil] at ht
  exact hfirst t ht

/-- **A carriage return before a line feed makes no difference**, in whatever mode a scan comes to them, if it comes to
its end: behind them it is in the same mode, with nothing pending and the same tokens made. -/
theorem scanFrom_lineEnd {s : Scanner} {cs : List Char}
    (hend : ∃ t ∈ s.scanFrom pos ('\r' :: '\n' :: cs), t.kind = .finish) :
    ∃ ts m, (∀ t ∈ ts, t.kind ≠ .finish) ∧
      (∀ ds, s.scanFrom pos ('\r' :: '\n' :: ds) = ts ++ (⟨m, pos + 2, ""⟩ : Scanner).scanFrom (pos + 2) ds) ∧
      ∀ ds, s.scanFrom pos ('\n' :: ds) = ts ++ (⟨m, pos + 1, ""⟩ : Scanner).scanFrom (pos + 1) ds := by
  obtain ⟨t, ht, hfinish⟩ := hend
  by_cases hcomment : s.mode = .comment
  · -- the comment goes on to the line feed
    have hreturn : s.step pos (some '\r') = into .comment (pos + 1) := by
      rw [step, hcomment]
      rfl
    have hfeed : s.step pos (some '\n') = into .statement (pos + 1) := by
      rw [step, hcomment]
      rfl
    refine ⟨[], .statement, by simp, fun ds => ?_, fun ds => ?_⟩
    · rw [scanFrom_cons, hreturn]
      rfl
    · rw [scanFrom_cons, hfeed]
      rfl
  by_cases hquote : s.mode = .quote
  · -- the carriage return is taken for the character, and then the quote is missing
    have hreturn : s.step pos (some '\r') = single .character '\r' .unquote pos := by
      rw [step, hquote]
      rfl
    rw [scanFrom_cons, hreturn, onward_single, List.mem_cons] at ht
    obtain rfl | ht := ht
    · cases hfinish
    · exact absurd hfinish (unfinished_of_next rfl t ht)
  obtain ⟨ts, m, hm, hstep⟩ | hstops := blanksAlike s pos hcomment hquote
  · have htokens : ∀ u ∈ ts, u.kind ≠ .finish := by
      have hfirst : (s.step pos (some '\n')).Unfinished := unfinished_step_some '\n'
      rwa [hstep '\n' (by decide)] at hfirst
    refine ⟨ts, m, htokens, fun ds => ?_, fun ds => ?_⟩
    · rw [scanFrom_cons, hstep '\r' (by decide)]
      show ts ++ scanFrom ⟨m, pos + 1, ""⟩ (pos + 1) ('\n' :: ds) = _
      rw [scanFrom_cons, step_of_passesBlanks hm (by decide)]
      rfl
    · rw [scanFrom_cons, hstep '\n' (by decide)]
      rfl
  · exact absurd hfinish (unfinished_of_next (hstops '\r' (by decide)) t ht)

/-- **The tokens do not depend on line ends**, but for their places. -/
theorem contents_joinLineEnds {s : Scanner} {cs : List Char} (hpaired : ReturnsPaired cs)
    (hend : ∃ t ∈ s.scanFrom pos cs, t.kind = .finish) :
    (s.scanFrom pos (joinLineEnds cs)).map Token.content = (s.scanFrom pos cs).map Token.content := by
  fun_induction joinLineEnds cs generalizing s pos with
  | case1 => rfl
  | case2 cs ih =>
    obtain ⟨ts, m, htokens, hboth, hfeed⟩ := scanFrom_lineEnd hend
    -- behind the pair the scan goes on one place further on than behind the line feed alone
    have hshift : (⟨m, pos + 2, ""⟩ : Scanner).scanFrom (pos + 2) cs =
        ((⟨m, pos + 1, ""⟩ : Scanner).scanFrom (pos + 1) cs).map (Token.shift 1) :=
      scanFrom_shift 1 (pos + 1) ⟨m, pos + 1, ""⟩ cs
    rw [hboth, hshift] at hend
    have hrest : ∃ t ∈ (⟨m, pos + 1, ""⟩ : Scanner).scanFrom (pos + 1) cs, t.kind = .finish := by
      obtain ⟨t, ht, hfinish⟩ := hend
      rcases List.mem_append.1 ht with ht | ht
      · exact absurd hfinish (htokens t ht)
      · obtain ⟨u, hu, rfl⟩ := List.mem_map.1 ht
        exact ⟨u, hu, hfinish⟩
    rw [hfeed, hboth, hshift, List.map_append, List.map_append, map_content_shift, ih hpaired.tail.tail hrest]
  | case3 c cs hnext ih =>
    rw [scanFrom_cons, scanFrom_cons, onward, onward, List.map_append, List.map_append]
    congr 1
    cases hgoes : (s.step pos (some c)).next with
    | none => rfl
    | some s' =>
      have hfirst : (s.step pos (some c)).Unfinished := unfinished_step_some c
      obtain ⟨t, ht, hfinish⟩ := hend
      rw [scanFrom_cons, onward, hgoes, List.mem_append] at ht
      exact ih hpaired.tail ⟨t, ht.resolve_left fun ht => hfirst t ht hfinish, hfinish⟩

end Scanner

/-! ## Sources -/

/-- A source with one line feed for a carriage return and a line feed. -/
def withJoinedLineEnds (source : String) : String :=
  String.ofList (joinLineEnds source.toList)

theorem scan_withJoinedLineEnds {source : String} (hpaired : ReturnsPaired source.toList)
    (hend : (scan source).getLast?.map Token.kind = some .finish) :
    (scan (withJoinedLineEnds source)).map Token.content = (scan source).map Token.content := by
  obtain ⟨t, hlast, hfinish⟩ := Option.map_eq_some_iff.1 hend
  rw [scan, withJoinedLineEnds, String.toList_ofList]
  exact Scanner.contents_joinLineEnds hpaired ⟨t, List.mem_of_getLast? hlast, hfinish⟩

theorem decode_toUTF8 (text : String) : String.fromUTF8? text.toUTF8 = some text :=
  dif_pos text.isValidUTF8

/-- A file is read as its text with line feeds alone, if every carriage return in it stands before a line feed. -/
theorem readSource?_toUTF8 {source : String} (hpaired : ReturnsPaired source.toList) :
    readSource? .utf8 source.toUTF8 = some (withJoinedLineEnds source) := by
  rw [readSource?, Encoding.decode?, decode_toUTF8, Option.map_some, withUnifiedLineEnds,
    unifyLineEnds_eq_joinLineEnds hpaired]
  rfl

/-- Sources with the same tokens, but for their places, have the same program. -/
theorem parse_of_contents {source source' : String} {program : List Stmt}
    (h : parse source (scan source) = .ok program)
    (hsame : (scan source').map Token.content = (scan source).map Token.content) :
    parse source' (scan source') = .ok program := by
  obtain ⟨ts, e, hscan, he, hss⟩ := scan_of_parse h
  rw [hscan, List.map_append, List.map_eq_append_iff] at hsame
  obtain ⟨us, es, hscan', hus, hes⟩ := hsame
  obtain ⟨e', rfl, he'⟩ : ∃ e', es = [e'] ∧ e'.content = e.content := by
    simpa [List.map_eq_cons_iff] using hes
  rw [hscan', ← List.append_nil (us ++ [e'])]
  exact parse_of_program (.intro (hss.congr hus) ((Token.kind_of_content he').trans he))

/-- Sources with the same program are compiled in the same way. -/
theorem compile_congr {source source' : String} {program : List Stmt} (h : parse source (scan source) = .ok program)
    (h' : parse source' (scan source') = .ok program) (options : Options) :
    compile source' options = compile source options := by
  rw [compile_eq_compileDirect, compile_eq_compileDirect, compileDirect, compileDirect, h, h']

/-- **A source is compiled from a file as it is compiled from memory**, if every carriage return in it stands before a
line feed. Its tokens are those of the source with line feeds alone, but for their places, if the scan comes to its end;
the latter is what is read from a file that holds the source; and if the source is compiled, then so is the file, with
the same result. -/
theorem line_ends_irrelevant {source : String} (hpaired : ReturnsPaired source.toList) :
    ((scan source).getLast?.map Token.kind = some .finish →
      (scan (withJoinedLineEnds source)).length = (scan source).length ∧
        (scan (withJoinedLineEnds source)).map Token.content = (scan source).map Token.content) ∧
    readSource? .utf8 source.toUTF8 = some (withJoinedLineEnds source) ∧
    ∀ options c, compile source options = .ok c → compileFile? .utf8 source.toUTF8 options = some (.ok c) := by
  have hread := readSource?_toUTF8 hpaired
  refine ⟨fun hend => ?_, hread, fun options c hcompile => ?_⟩
  · have hcontents := scan_withJoinedLineEnds hpaired hend
    have hlength := congrArg List.length hcontents
    rw [List.length_map, List.length_map] at hlength
    exact ⟨hlength, hcontents⟩
  · obtain ⟨program, -, hparse, -, -⟩ := exists_plan_of_compile hcompile
    obtain ⟨ts, e, hscan, he, -⟩ := scan_of_parse hparse
    have hend : (scan source).getLast?.map Token.kind = some .finish := by simp [hscan, he]
    have hsame := parse_of_contents hparse (scan_withJoinedLineEnds hpaired hend)
    rw [compileFile?, hread, Option.map_some, compile_congr hparse hsame, hcompile]

/-- Line ends behind a comment, inside a statement and at the end, and a line feed as a character. -/
def returnsSource : String :=
  "# one\r\nvar $a;\r\n$a = '\n'; print\r\n$a;\r\n"

/-- The code of that source, without remarks. -/
def returnsCompiled : Compiled :=
  ⟨[.move 1, .add 10, .move (-1), .openLoop, .add (-1), .closeLoop, .move 1, .openLoop, .add (-1), .move (-1), .add 1,
    .move 1, .closeLoop, .move (-1), .print]⟩

/-- The file is compiled to the same code, though what is read from it is another text. -/
theorem line_ends_irrelevant_returns :
    (ReturnsPaired returnsSource.toList ∧ withJoinedLineEnds returnsSource ≠ returnsSource) ∧
    (scan (withJoinedLineEnds returnsSource)).map Token.content = (scan returnsSource).map Token.content ∧
    readSource? .utf8 returnsSource.toUTF8 = some (withJoinedLineEnds returnsSource) ∧
    compileFile? .utf8 returnsSource.toUTF8 { tapeSize := 2, comments := false } = some (.ok returnsCompiled) := by
  have hpaired : ReturnsPaired returnsSource.toList := by decide +kernel
  have hdiffer : withJoinedLineEnds returnsSource ≠ returnsSource := by decide +kernel
  have hend : (scan returnsSource).getLast?.map Token.kind = some .finish := by decide +kernel
  have hcompiled : compile returnsSource { tapeSize := 2, comments := false } = .ok returnsCompiled := by
    decide +kernel
  obtain ⟨hscan, hread, hcompile⟩ := line_ends_irrelevant hpaired
  exact ⟨⟨hpaired, hdiffer⟩, (hscan hend).2, hread, hcompile _ _ hcompiled⟩

end TapeCompiler
