import Mathlib.Tactic.Common
import TapeCompiler.Proofs.Syntax.Lexical

/-!
# A layout is the scan

Characters can be laid out as tokens in one way only, faults apart. A token that could be longer is never cut
short: no mode behind a word can begin with a character that would go on with it.

* `Scanner.Clean`: characters whose scan comes to no fault.
* `scanFrom_of_skips`, `scanFrom_of_reads`: the scan passes over characters and reads words as the grammar does.
* `Laid.scanFrom`: **characters that are laid out without a fault are scanned so.**
-/

namespace TapeCompiler

theorem isBlank_of_isNameChar {c : Char} (h : isNameChar c = true) : isBlank c = false := by
  by_contra hblank
  simp only [isBlank, Bool.not_eq_false, Bool.or_eq_true, beq_iff_eq] at hblank
  rcases hblank with ((rfl | rfl) | rfl) | rfl <;> exact absurd h (by decide)

theorem ne_of_isNameChar {c d : Char} (hc : isNameChar c = true) (hd : isNameChar d = false) : c ≠ d := by
  rintro rfl
  rw [hc] at hd
  cases hd

namespace Scanner

open Advance

section

variable {start pos : ℕ} {lexeme : String} {c : Char} {cs : List Char} {slot : Slot}

/-- The scan of these characters does not come to a fault. -/
def Clean (m : Mode) (pos : ℕ) (cs : List Char) : Prop :=
  ∀ t ∈ (⟨m, pos, ""⟩ : Scanner).scanFrom pos cs, t.kind ≠ .error

/-- A scan without a fault begins with a character that is passed over or that begins a token. -/
theorem Clean.first {m : Mode} (h : Clean m pos (c :: cs)) (hm : m.Began [] m) :
    (∃ m', m.Skips c m') ∨ ∃ kind w m', m.Reads kind (c :: w) m' := by
  have hlaid : Laid m pos (c :: cs) ((⟨m, pos, ""⟩ : Scanner).scanFrom pos (c :: cs)) :=
    scanFrom_laid (c :: cs) (by rwa [String.toList_empty]) rfl
  rw [Clean] at h
  generalize hts : (⟨m, pos, ""⟩ : Scanner).scanFrom pos (c :: cs) = ts at hlaid h
  generalize hall : c :: cs = all at hlaid
  cases hlaid with
  | finish => cases hall
  | fault ht => exact absurd ht (h _ List.mem_cons_self)
  | skip hskip =>
    obtain ⟨rfl, -⟩ := List.cons.inj hall
    exact .inl ⟨_, hskip⟩
  | token hreads =>
    obtain ⟨d, w, rfl⟩ := hreads.exists_cons
    obtain ⟨rfl, -⟩ := List.cons.inj hall
    exact .inr ⟨_, w, _, hreads⟩

/-- Where no identifier may begin, nothing follows that could be a part of one. -/
theorem Clean.stop {m : Mode} (h : Clean m pos cs) (hblanks : m.passesBlanks = true) (hm : ∀ c, m.slot? c = none) :
    ∀ c ∈ cs.head?, isNameChar c = false := by
  intro c hc
  obtain ⟨cs, rfl⟩ := List.head?_eq_some_iff.1 hc
  by_contra hname
  rw [Bool.not_eq_false] at hname
  have hbegan : m.Began [] m := by
    cases m <;> first | exact ⟨rfl, rfl⟩ | cases hblanks
  obtain ⟨m', hskip⟩ | ⟨kind, w, m', hreads⟩ := h.first hbegan
  · cases hskip with
    | blank _ hblank => simp [isBlank_of_isNameChar hname] at hblank
    | comma => exact absurd hname (by decide)
    | hash | openQuote | sigil => cases hm '$'
    | remark | lineEnd | closeQuote => cases hblanks
  · cases hreads with
    | ident hslot => cases (hm c).symm.trans hslot
    | keyword | number | closeBrace => cases hm '$'
    | character => cases hblanks
    | equals | openArguments | openParameters | openBlock | openBody | closeParen | semicolon =>
      exact absurd hname (by decide)

theorem isLetter_of_allowsMark (h : slot.allowsMark c = true) : isLetter c = false := by
  rcases Slot.eq_of_allowsMark h with rfl | rfl | rfl <;> decide

/-- Before an identifier no letter follows. -/
theorem Clean.before (h : Clean (.before slot) pos cs) : ∀ c ∈ cs.head?, isLetter c = false := by
  intro c hc
  obtain ⟨cs, rfl⟩ := List.head?_eq_some_iff.1 hc
  by_contra hletter
  rw [Bool.not_eq_false] at hletter
  have hname : isNameChar c = true := by simp [isNameChar, hletter]
  obtain ⟨m', hskip⟩ | ⟨kind, w, m', hreads⟩ := h.first ⟨rfl, rfl⟩
  · cases hskip with
    | blank _ hblank => simp [isBlank_of_isNameChar hname] at hblank
    | sigil => exact absurd hletter (by decide)
  · cases hreads with
    | ident _ hw =>
      cases hw with
      | plain => exact absurd hletter (by decide)
      | marked hmark => simp [isLetter_of_allowsMark hmark] at hletter
    | closeParen | semicolon => exact absurd hletter (by decide)

theorem scanFrom_append {m : Mode} {p : Char → Bool}
    (hstep : ∀ (start pos : ℕ) (lexeme : String) (c : Char) (cs : List Char), p c = true →
      (⟨m, start, lexeme⟩ : Scanner).scanFrom pos (c :: cs) =
        (⟨m, start, lexeme.push c⟩ : Scanner).scanFrom (pos + 1) cs) {w : List Char} (hw : ∀ c ∈ w, p c = true) :
    (⟨m, start, lexeme⟩ : Scanner).scanFrom pos (w ++ cs) =
      (⟨m, start, String.ofList (lexeme.toList ++ w)⟩ : Scanner).scanFrom (pos + w.length) cs := by
  induction w generalizing lexeme pos with
  | nil => simp
  | cons c w ih =>
    obtain ⟨hc, hw⟩ := List.forall_mem_cons.1 hw
    rw [List.cons_append, hstep _ _ _ _ _ hc, ih hw, String.toList_push, List.append_assoc, List.singleton_append,
      List.length_cons, Nat.add_assoc, Nat.add_comm 1]

theorem scanFrom_sigil_open {m : Mode} (hm : m.slot? '$' = some slot) :
    (⟨m, pos, ""⟩ : Scanner).scanFrom pos ('$' :: cs) = (⟨.sigil slot, pos, "$"⟩ : Scanner).scanFrom (pos + 1) cs := by
  have hmark : slot.allowsMark '$' = false := by cases slot <;> rfl
  cases m <;> cases hm
  case statement => rfl
  case value => rfl
  case before => simp [scanFrom, step, atBefore, isBlank, hmark, opening]

theorem scanFrom_mark_open {m : Mode} (hm : m.slot? c = some slot) (hc : slot.allowsMark c = true) :
    (⟨m, pos, ""⟩ : Scanner).scanFrom pos (c :: '$' :: cs) =
      (⟨.sigil slot, pos, c.toString.push '$'⟩ : Scanner).scanFrom (pos + 2) cs := by
  have hopen : (⟨m, pos, ""⟩ : Scanner).scanFrom pos (c :: '$' :: cs) =
      (⟨.mark slot, pos, c.toString⟩ : Scanner).scanFrom (pos + 1) ('$' :: cs) := by
    cases m <;> cases hm
    case statement =>
      have hmark : c = '+' ∨ c = '-' := by simpa [Slot.allowsMark] using hc
      rcases hmark with rfl | rfl <;> rfl
    case before =>
      have hblank : isBlank c = false := by rcases Slot.eq_of_allowsMark hc with rfl | rfl | rfl <;> rfl
      simp [scanFrom, step, atBefore, hblank, hc, opening]
    case value =>
      rcases Slot.eq_of_allowsMark hc with rfl | rfl | rfl <;> rfl
  rw [hopen]
  rfl

/-- A character that is passed over makes no difference to what follows. -/
theorem scanFrom_of_skips {m m' : Mode} (h : m.Skips c m') (hclean : Clean m' (pos + 1) cs) :
    (⟨m, pos, ""⟩ : Scanner).scanFrom pos (c :: cs) = (⟨m', pos + 1, ""⟩ : Scanner).scanFrom (pos + 1) cs := by
  cases h with
  | blank hm hc =>
    cases m with
    | statement => simp [scanFrom, step, atStatement, hc, into]
    | before => simp [scanFrom, step, atBefore, hc, into]
    | after => simp [scanFrom, step, atAfter, hc, into]
    | paren => simp [scanFrom, step, atParen, hc, into]
    | body => simp [scanFrom, step, atBody, hc, into]
    | value => simp [scanFrom, step, atValue, hc, into]
    | ending => simp [scanFrom, step, atEnding, hc, into]
    | comment | word | mark | sigil | name | digits | quote | unquote => cases hm
  | hash => rfl
  | remark hc => simp [scanFrom, step, atComment, hc, into]
  | lineEnd => rfl
  | comma h => simp [scanFrom, step, atAfter, isBlank, h, into]
  | openQuote => rfl
  | closeQuote => rfl
  | sigil h =>
    have hstop := hclean.stop rfl fun _ => rfl
    rw [scanFrom_sigil_open rfl]
    refine scanFrom_sigil h fun c hc => ?_
    have hchar := hstop c hc
    simp only [isNameChar, Bool.or_eq_false_iff] at hchar
    exact hchar.1.1

theorem scanFrom_of_spells {m : Mode} {w : List Char} (hm : m.slot? c = some slot) (hw : slot.Spells (c :: w))
    (hclean : Clean (.after slot) (pos + (c :: w).length) cs) :
    (⟨m, pos, ""⟩ : Scanner).scanFrom pos ((c :: w) ++ cs) =
      ⟨.ident, String.ofList (c :: w), pos⟩ ::
        (⟨.after slot, pos + (c :: w).length, ""⟩ : Scanner).scanFrom (pos + (c :: w).length) cs := by
  have hstop := hclean.stop rfl fun _ => rfl
  have hgrow (start pos : ℕ) (lexeme : String) (c : Char) (cs : List Char) (hc : isNameChar c = true) :=
    @scanFrom_name_cons start pos lexeme cs slot c hc
  cases hw with
  | @plain d ds hletter hchars =>
    have hpos : pos + 1 + 1 + ds.length = pos + ('$' :: d :: ds).length := by
      simp only [List.length_cons]
      omega
    have htext : ("$".push d).toList ++ ds = '$' :: d :: ds := by simp
    rw [List.cons_append, scanFrom_sigil_open hm, List.cons_append, scanFrom_sigil_cons hletter,
      scanFrom_append hgrow hchars, hpos, htext, scanFrom_name hstop]
  | @marked _ d ds hmark hletter hchars =>
    have hpos : pos + 2 + 1 + ds.length = pos + (c :: '$' :: d :: ds).length := by
      simp only [List.length_cons]
      omega
    have htext : ((c.toString.push '$').push d).toList ++ ds = c :: '$' :: d :: ds := by simp
    rw [List.cons_append, List.cons_append, scanFrom_mark_open hm hmark, List.cons_append, scanFrom_sigil_cons hletter,
      scanFrom_append hgrow hchars, hpos, htext, scanFrom_name hstop]

theorem scanFrom_of_spelling {k : Keyword} {w : List Char} (hw : k.spelling.toList = c :: w)
    (hclean : Clean (.before (slotAfter k)) (pos + (c :: w).length) cs) :
    (⟨.statement, pos, ""⟩ : Scanner).scanFrom pos ((c :: w) ++ cs) =
      ⟨.keyword k, String.ofList (c :: w), pos⟩ ::
        (⟨.before (slotAfter k), pos + (c :: w).length, ""⟩ : Scanner).scanFrom (pos + (c :: w).length) cs := by
  have hall : k.spelling.toList.all isLetter = true := by cases k <;> decide
  have hletters : ∀ d ∈ c :: w, isLetter d = true := by
    rw [← hw]
    exact List.all_eq_true.1 hall
  have hword : Keyword.ofWord? (String.ofList (c :: w)) = some k := by
    rw [← hw, String.ofList_toList, Keyword.ofWord?_spelling]
  obtain ⟨hletter, hletters⟩ := List.forall_mem_cons.1 hletters
  have hname : isNameChar c = true := by simp [isNameChar, hletter]
  have hopen : (⟨.statement, pos, ""⟩ : Scanner).scanFrom pos (c :: (w ++ cs)) =
      (⟨.word, pos, c.toString⟩ : Scanner).scanFrom (pos + 1) (w ++ cs) := by
    simp [scanFrom, step, atStatement, isBlank_of_isNameChar hname, hletter, opening,
      ne_of_isNameChar hname (rfl : isNameChar '}' = false), ne_of_isNameChar hname (rfl : isNameChar '#' = false),
      ne_of_isNameChar hname (rfl : isNameChar '$' = false), ne_of_isNameChar hname (rfl : isNameChar '+' = false),
      ne_of_isNameChar hname (rfl : isNameChar '-' = false)]
  have hgrow (start pos : ℕ) (lexeme : String) (c : Char) (cs : List Char) (hc : isLetter c = true) :=
    @scanFrom_word_cons start pos lexeme cs c hc
  have hpos : pos + 1 + w.length = pos + (c :: w).length := by
    simp only [List.length_cons]
    omega
  have htext : c.toString.toList ++ w = c :: w := by simp
  rw [List.cons_append, hopen, scanFrom_append hgrow hletters, hpos, htext, scanFrom_word hword hclean.before]

theorem scanFrom_of_isDigit {w : List Char} (hw : ∀ d ∈ c :: w, isDigit d = true)
    (hclean : Clean .ending (pos + (c :: w).length) cs) :
    (⟨.value, pos, ""⟩ : Scanner).scanFrom pos ((c :: w) ++ cs) =
      ⟨.number, String.ofList (c :: w), pos⟩ ::
        (⟨.ending, pos + (c :: w).length, ""⟩ : Scanner).scanFrom (pos + (c :: w).length) cs := by
  obtain ⟨hdigit, hdigits⟩ := List.forall_mem_cons.1 hw
  have hname : isNameChar c = true := by simp [isNameChar, hdigit]
  have hopen : (⟨.value, pos, ""⟩ : Scanner).scanFrom pos (c :: (w ++ cs)) =
      (⟨.digits, pos, c.toString⟩ : Scanner).scanFrom (pos + 1) (w ++ cs) := by
    simp [scanFrom, step, atValue, isBlank_of_isNameChar hname, hdigit, opening]
  have hgrow (start pos : ℕ) (lexeme : String) (c : Char) (cs : List Char) (hc : isDigit c = true) :=
    @scanFrom_digits_cons start pos lexeme cs c hc
  have hpos : pos + 1 + w.length = pos + (c :: w).length := by
    simp only [List.length_cons]
    omega
  have htext : c.toString.toList ++ w = c :: w := by simp
  have hstop : ∀ d ∈ cs.head?, isDigit d = false := by
    intro d hd
    have hchar := hclean.stop rfl (fun _ => rfl) d hd
    simp only [isNameChar, Bool.or_eq_false_iff] at hchar
    exact hchar.1.2
  rw [List.cons_append, hopen, scanFrom_append hgrow hdigits, hpos, htext, scanFrom_digits hstop]

/-- A word that is a token is scanned as one, where nothing goes wrong behind it. -/
theorem scanFrom_of_reads {m m' : Mode} {kind : TokenKind} {w : List Char} (h : m.Reads kind w m')
    (hclean : Clean m' (pos + w.length) cs) :
    (⟨m, pos, ""⟩ : Scanner).scanFrom pos (w ++ cs) =
      ⟨kind, String.ofList w, pos⟩ :: (⟨m', pos + w.length, ""⟩ : Scanner).scanFrom (pos + w.length) cs := by
  cases h with
  | keyword hw =>
    obtain ⟨c, w, rfl⟩ := (Mode.Reads.keyword hw).exists_cons
    exact scanFrom_of_spelling hw hclean
  | ident hm hw => exact scanFrom_of_spells hm hw hclean
  | number hw => exact scanFrom_of_isDigit hw hclean
  | character hc => simp [scanFrom, step, atQuote, hc, single]
  | closeParen hm =>
    rename_i slot
    rcases hm with rfl | ⟨rfl, hslot⟩ | ⟨rfl, hslot⟩
    · rfl
    · cases slot <;> first | rfl | cases hslot
    · cases slot <;> cases hslot <;> rfl
  | semicolon hm => rcases hm with rfl | rfl | rfl | rfl <;> rfl
  | closeBrace | equals | openArguments | openParameters | openBlock | openBody => rfl

end

end Scanner

/-- **Characters that are laid out without a fault are scanned so.** -/
theorem Laid.scanFrom {m : Mode} {pos : ℕ} {cs : List Char} {ts : List Token} (h : Laid m pos cs ts)
    (hok : ∀ t ∈ ts, t.kind ≠ .error) : (⟨m, pos, ""⟩ : Scanner).scanFrom pos cs = ts := by
  induction h with
  | finish hm => rcases hm with rfl | rfl <;> rfl
  | fault ht => exact absurd ht (hok _ List.mem_cons_self)
  | skip h _ ih =>
    have hrest := ih hok
    rw [Scanner.scanFrom_of_skips h (by rwa [Scanner.Clean, hrest]), hrest]
  | token h _ ih =>
    have hok' := (List.forall_mem_cons.1 hok).2
    have hrest := ih hok'
    rw [Scanner.scanFrom_of_reads h (by rwa [Scanner.Clean, hrest]), hrest]

end TapeCompiler
