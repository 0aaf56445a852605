import Mathlib.Algebra.Order.Ring.Int
import TapeCompiler.Token.Scan

/-!
# The lexical grammar

How the characters of a source make up its tokens: in every mode some characters are passed over, some words are
tokens, and each leads to a mode. Here a whole word is read at once, so only the modes between two lexemes are
left.

* `Slot.Spells`: how an identifier may be written in a slot.
* `Mode.Skips`: the characters that are passed over; `Mode.Reads`: the words that are tokens.
* `Laid`: characters that are laid out as tokens, up to the end or a fault.
* `scan_laid`: **every source is laid out as the tokens of its scan.**
* `Laid.uncons`: what can be the first token.
-/

namespace TapeCompiler

/-- An identifier in a slot: a mark that is allowed there or none, then `$`, a letter, and letters, digits and
underscores. -/
inductive Slot.Spells (slot : Slot) : List Char → Prop
  | plain {c : Char} {cs : List Char} (hc : isLetter c = true) (hcs : ∀ d ∈ cs, isNameChar d = true) :
      Spells slot ('$' :: c :: cs)
  | marked {m c : Char} {cs : List Char} (hm : slot.allowsMark m = true) (hc : isLetter c = true)
      (hcs : ∀ d ∈ cs, isNameChar d = true) : Spells slot (m :: '$' :: c :: cs)

/-- There are three marks. -/
theorem Slot.eq_of_allowsMark {slot : Slot} {c : Char} (h : slot.allowsMark c = true) : c = '+' ∨ c = '-' ∨ c = '_' := by
  cases slot <;> simp [Slot.allowsMark] at h <;> tauto

theorem Slot.Spells.push {slot : Slot} {w : List Char} {c : Char} (h : slot.Spells w) (hc : isNameChar c = true) :
    slot.Spells (w ++ [c]) := by
  cases h with
  | plain hletter hcs => exact .plain hletter (by simpa [or_imp, forall_and] using ⟨hcs, hc⟩)
  | marked hm hletter hcs => exact .marked hm hletter (by simpa [or_imp, forall_and] using ⟨hcs, hc⟩)

/-- The first slot of a list in parentheses may stay empty. -/
def Slot.mayMiss : Slot → Bool
  | .parameter first | .argument first => first
  | .declared | .passed | .target _ | .subject | .source | .function => false

/-- The slots of lists in parentheses. -/
def Slot.inParens : Slot → Bool
  | .parameter _ | .argument _ => true
  | .declared | .passed | .target _ | .subject | .source | .function => false

namespace Mode

/-- The modes in which blanks are passed over. -/
def passesBlanks : Mode → Bool
  | statement | before _ | after _ | paren _ | body | value | ending => true
  | comment | word | mark _ | sigil _ | name _ | digits | quote | unquote => false

/-- The slot of an identifier that begins with a character. At the start of a statement it can be called if it
has no mark. -/
def slot? (c : Char) : Mode → Option Slot
  | statement => some (.target (c == '$'))
  | before slot => some slot
  | value => some .source
  | comment | word | mark _ | sigil _ | name _ | after _ | paren _ | body | digits | quote | unquote | ending => none

/-- A character that belongs to no token, and the mode behind it. -/
inductive Skips : Mode → Char → Mode → Prop
  | blank {m : Mode} {c : Char} (hm : m.passesBlanks = true) (hc : isBlank c = true) : Skips m c m
  | hash : Skips .statement '#' .comment
  | remark {c : Char} (hc : c ≠ '\n') : Skips .comment c .comment
  | lineEnd : Skips .comment '\n' .statement
  | comma {slot next : Slot} (h : slot.afterComma? = some next) : Skips (.after slot) ',' (.before next)
  | openQuote : Skips .value '\'' .quote
  | closeQuote : Skips .unquote '\'' .ending
  /-- A `$` in front of no name, where a name may be missing. -/
  | sigil {slot : Slot} (h : slot.mayMiss = true) : Skips (.before slot) '$' (.paren slot)

/-- A word that is a token, and the mode behind it. -/
inductive Reads : Mode → TokenKind → List Char → Mode → Prop
  | keyword {k : Keyword} {w : List Char} (hw : k.spelling.toList = w) :
      Reads .statement (.keyword k) w (.before (Scanner.slotAfter k))
  | ident {m : Mode} {slot : Slot} {c : Char} {w : List Char} (hm : m.slot? c = some slot)
      (hw : slot.Spells (c :: w)) : Reads m .ident (c :: w) (.after slot)
  | number {c : Char} {w : List Char} (hw : ∀ d ∈ c :: w, isDigit d = true) : Reads .value .number (c :: w) .ending
  | character {c : Char} (hc : c ≠ '\'') : Reads .quote .character [c] .unquote
  | closeBrace : Reads .statement .closeBrace ['}'] .statement
  | equals (callable : Bool) : Reads (.after (.target callable)) .equals ['='] .value
  | openArguments : Reads (.after (.target true)) .openParen ['('] (.before (.argument true))
  | openParameters : Reads (.after .function) .openParen ['('] (.before (.parameter true))
  | openBlock : Reads (.after .subject) .openBrace ['{'] .statement
  | openBody : Reads .body .openBrace ['{'] .statement
  | closeParen {m : Mode} {slot : Slot}
      (hm : m = .paren slot ∨ m = .after slot ∧ slot.inParens = true ∨ m = .before slot ∧ slot.mayMiss = true) :
      Reads m .closeParen [')'] (Scanner.afterParen slot)
  | semicolon {m : Mode} (hm : m = .ending ∨ m = .after .declared ∨ m = .after .passed ∨ m = .after .source) :
      Reads m .semicolon [';'] .statement

theorem Reads.exists_cons {m m' : Mode} {kind : TokenKind} {w : List Char} (h : m.Reads kind w m') :
    ∃ c w', w = c :: w' := by
  cases h with
  | @keyword k _ hw => cases k <;> exact ⟨_, _, hw.symm⟩
  | _ => exact ⟨_, _, rfl⟩

end Mode

/-- Characters from an offset on that are laid out as tokens, up to the end of the source or a fault. What stands
around a fault is not looked at. -/
inductive Laid : Mode → ℕ → List Char → List Token → Prop
  | finish {m : Mode} {pos : ℕ} (hm : m = .statement ∨ m = .comment) : Laid m pos [] [⟨.finish, "", pos⟩]
  | fault {m : Mode} {pos : ℕ} {cs : List Char} {t : Token} (ht : t.kind = .error) (hlow : pos ≤ t.offset)
      (hhigh : t.offset ≤ pos + cs.length) : Laid m pos cs [t]
  | skip {m m' : Mode} {pos : ℕ} {c : Char} {cs : List Char} {ts : List Token} (h : m.Skips c m')
      (hts : Laid m' (pos + 1) cs ts) : Laid m pos (c :: cs) ts
  | token {m m' : Mode} {pos : ℕ} {kind : TokenKind} {w cs : List Char} {ts : List Token} (h : m.Reads kind w m')
      (hts : Laid m' (pos + w.length) cs ts) : Laid m pos (w ++ cs) (⟨kind, String.ofList w, pos⟩ :: ts)

/-! ## A scan is a layout -/

/-- In one mode and with the characters `w` of a lexeme, a scanner has come from another mode in front of it. -/
def Mode.Began (m₀ : Mode) (w : List Char) : Mode → Prop
  | word => m₀ = .statement ∧ w ≠ [] ∧ ∀ c ∈ w, isLetter c = true
  | mark slot => ∃ c, w = [c] ∧ slot.allowsMark c = true ∧ m₀.slot? c = some slot
  | sigil slot => w = ['$'] ∧ m₀.slot? '$' = some slot ∨
      ∃ c, w = [c, '$'] ∧ slot.allowsMark c = true ∧ m₀.slot? c = some slot
  | name slot => slot.Spells w ∧ ∃ c ∈ w.head?, m₀.slot? c = some slot
  | digits => m₀ = .value ∧ w ≠ [] ∧ ∀ c ∈ w, isDigit c = true
  | m => m₀ = m ∧ w = []

/-- The tokens that come with a symbol and behind it. -/
def Advance.onward (a : Advance) (pos : ℕ) (cs : List Char) : List Token :=
  a.tokens ++
    match a.next with
    | none => []
    | some s => s.scanFrom pos cs

namespace Scanner

open Advance

theorem scanFrom_cons (s : Scanner) (pos : ℕ) (c : Char) (cs : List Char) :
    s.scanFrom pos (c :: cs) = (s.step pos (some c)).onward (pos + 1) cs := rfl

theorem onward_withToken (t : Token) (a : Advance) (pos : ℕ) (cs : List Char) :
    (withToken t a).onward pos cs = t :: a.onward pos cs := rfl

theorem onward_single (kind : TokenKind) (c : Char) (m : Mode) (pos : ℕ) (cs : List Char) :
    (single kind c m pos).onward (pos + 1) cs =
      ⟨kind, String.ofList [c], pos⟩ :: (⟨m, pos + 1, ""⟩ : Scanner).scanFrom (pos + 1) cs := rfl

section

variable {pos : ℕ} {c : Char} {cs : List Char} {m m' : Mode} {slot : Slot} {sym : Option Char}

theorem laid_fault {cause : ScanFault} {lexeme : String} {start : ℕ} {w : List Char} (hlow : start ≤ pos)
    (hhigh : pos ≤ start + w.length) : Laid m start w ((fault cause lexeme pos).onward (pos + 1) cs) :=
  .fault rfl (Int.ofNat_le.2 hlow) (by simp only; omega)

variable (ih : ∀ (s : Scanner) (m₀ : Mode), m₀.Began s.lexeme.toList s.mode → s.start + s.lexeme.length = pos + 1 →
  Laid m₀ s.start (s.lexeme.toList ++ cs) (s.scanFrom (pos + 1) cs))

include ih

theorem laid_into (h : m.Skips c m') (hm' : m'.Began [] m') :
    Laid m pos (c :: cs) ((into m' (pos + 1)).onward (pos + 1) cs) :=
  .skip h (ih ⟨m', pos + 1, ""⟩ m' hm' rfl)

theorem laid_opening (h : m.Began [c] m') : Laid m pos (c :: cs) ((opening m' pos c).onward (pos + 1) cs) := by
  have hrest := ih ⟨m', pos, c.toString⟩ m (by simpa using h) (by simp)
  rw [Char.toString_eq_singleton, String.toList_singleton] at hrest
  exact hrest

theorem laid_single {kind : TokenKind} (h : m.Reads kind [c] m') (hm' : m'.Began [] m') :
    Laid m pos (c :: cs) ((single kind c m' pos).onward (pos + 1) cs) :=
  .token h (ih ⟨m', pos + 1, ""⟩ m' hm' rfl)

omit ih in
theorem laid_wrong {cause : ScanFault} :
    Laid m pos (c :: cs) ((wrong cause pos (some c)).onward (pos + 1) cs) :=
  .fault rfl (by simp) (by simp)

theorem laid_atStatement : Laid .statement pos (c :: cs) ((atStatement pos (some c)).onward (pos + 1) cs) := by
  simp only [atStatement]
  split_ifs with hblank hclose hhash hsigil hmark hletter
  · exact laid_into ih (.blank rfl hblank) ⟨rfl, rfl⟩
  · exact laid_single ih (hclose ▸ .closeBrace) ⟨rfl, rfl⟩
  · exact laid_into ih (hhash ▸ .hash) ⟨rfl, rfl⟩
  · exact laid_opening ih (.inl ⟨hsigil ▸ rfl, rfl⟩)
  · refine laid_opening ih ⟨c, rfl, ?_, ?_⟩
    · rcases hmark with rfl | rfl <;> rfl
    · rcases hmark with rfl | rfl <;> rfl
  · exact laid_opening ih ⟨rfl, by simp, by simpa using hletter⟩
  · exact laid_wrong

theorem laid_atComment : Laid .comment pos (c :: cs) ((atComment pos (some c)).onward (pos + 1) cs) := by
  simp only [atComment]
  split_ifs with hline
  · exact laid_into ih (hline ▸ .lineEnd) ⟨rfl, rfl⟩
  · exact laid_into ih (.remark hline) ⟨rfl, rfl⟩

/-- Where a semicolon may stand, blanks having been passed over or not. -/
theorem laid_atEnding (hm : m = .ending ∨ m = .after .declared ∨ m = .after .passed ∨ m = .after .source)
    (hblank : isBlank c = true → m = .ending) :
    Laid m pos (c :: cs) ((atEnding pos (some c)).onward (pos + 1) cs) := by
  simp only [atEnding]
  split_ifs with hc hsemicolon
  · obtain rfl := hblank hc
    exact laid_into ih (.blank rfl hc) ⟨rfl, rfl⟩
  · exact laid_single ih (hsemicolon ▸ .semicolon hm) ⟨rfl, rfl⟩
  · exact laid_fault le_rfl (by simp)

theorem laid_atBody : Laid .body pos (c :: cs) ((atBody pos (some c)).onward (pos + 1) cs) := by
  simp only [atBody]
  split_ifs with hblank hopen
  · exact laid_into ih (.blank rfl hblank) ⟨rfl, rfl⟩
  · exact laid_single ih (hopen ▸ .openBody) ⟨rfl, rfl⟩
  · exact laid_wrong

theorem laid_atParen
    (hm : m = .paren slot ∨ m = .after slot ∧ slot.inParens = true ∨ m = .before slot ∧ slot.mayMiss = true)
    (hblank : isBlank c = true → m = .paren slot) :
    Laid m pos (c :: cs) ((atParen slot pos (some c)).onward (pos + 1) cs) := by
  simp only [atParen]
  split_ifs with hc hclose
  · obtain rfl := hblank hc
    exact laid_into ih (.blank rfl hc) ⟨rfl, rfl⟩
  · refine laid_single ih (hclose ▸ .closeParen hm) ?_
    cases slot <;> exact ⟨rfl, rfl⟩
  · exact laid_wrong

theorem laid_atFollower (hblank : isBlank c = false) :
    Laid (.after slot) pos (c :: cs) ((atFollower slot pos (some c)).onward (pos + 1) cs) := by
  have hnot {m : Mode} (h : isBlank c = true) : Mode.after slot = m := by simp [hblank] at h
  cases slot with
  | declared => exact laid_atEnding ih (.inr (.inl rfl)) hnot
  | passed => exact laid_atEnding ih (.inr (.inr (.inl rfl))) hnot
  | source => exact laid_atEnding ih (.inr (.inr (.inr rfl))) hnot
  | target callable =>
    simp only [atFollower]
    split_ifs with hequals hparen
    · obtain rfl := Option.some.inj hequals
      exact laid_single ih (.equals callable) ⟨rfl, rfl⟩
    · obtain ⟨hopen, hcallable⟩ := hparen
      obtain rfl := Option.some.inj hopen
      obtain rfl : callable = true := hcallable
      exact laid_single ih .openArguments ⟨rfl, rfl⟩
    · exact laid_wrong
  | subject =>
    simp only [atFollower]
    split_ifs with hopen
    · obtain rfl := Option.some.inj hopen
      exact laid_single ih .openBlock ⟨rfl, rfl⟩
    · exact laid_wrong
  | function =>
    simp only [atFollower]
    split_ifs with hopen
    · obtain rfl := Option.some.inj hopen
      exact laid_single ih .openParameters ⟨rfl, rfl⟩
    · exact laid_wrong
  | parameter first | argument first => exact laid_atParen ih (.inr (.inl ⟨rfl, rfl⟩)) hnot

theorem laid_atAfter : Laid (.after slot) pos (c :: cs) ((atAfter slot pos (some c)).onward (pos + 1) cs) := by
  simp only [atAfter]
  split_ifs with hblank hcomma
  · exact laid_into ih (.blank rfl hblank) ⟨rfl, rfl⟩
  · cases hnext : slot.afterComma? with
    | some next => exact laid_into ih (hcomma ▸ .comma hnext) ⟨rfl, rfl⟩
    | none => exact laid_atFollower ih (by simpa using hblank)
  · exact laid_atFollower ih (by simpa using hblank)

theorem laid_atMissing {lexeme : String} (hblank : isBlank c = false) :
    Laid (.before slot) pos (c :: cs) ((atMissing slot lexeme pos (some c)).onward (pos + 1) cs) := by
  have hnot {m : Mode} (h : isBlank c = true) : Mode.before slot = m := by simp [hblank] at h
  cases slot with
  | declared | passed | target _ | subject | source | function => exact laid_fault le_rfl (by simp)
  | parameter first | argument first =>
    cases first with
    | true => exact laid_atParen ih (.inr (.inr ⟨rfl, rfl⟩)) hnot
    | false => exact laid_fault le_rfl (by simp)

theorem laid_atBefore : Laid (.before slot) pos (c :: cs) ((atBefore slot pos (some c)).onward (pos + 1) cs) := by
  simp only [atBefore]
  split_ifs with hblank hmark hsigil
  · exact laid_into ih (.blank rfl hblank) ⟨rfl, rfl⟩
  · exact laid_opening ih ⟨c, rfl, hmark, rfl⟩
  · exact laid_opening ih (.inl ⟨hsigil ▸ rfl, hsigil ▸ rfl⟩)
  · exact laid_atMissing ih (by simpa using hblank)

theorem laid_atValue : Laid .value pos (c :: cs) ((atValue pos (some c)).onward (pos + 1) cs) := by
  simp only [atValue, atBefore]
  split_ifs with hblank hdigit hquote hmark hsigil
  · exact laid_into ih (.blank rfl hblank) ⟨rfl, rfl⟩
  · exact laid_opening ih ⟨rfl, by simp, by simpa using hdigit⟩
  · exact laid_into ih (hquote ▸ .openQuote) ⟨rfl, rfl⟩
  · exact laid_opening ih ⟨c, rfl, hmark, rfl⟩
  · exact laid_opening ih (.inl ⟨hsigil ▸ rfl, hsigil ▸ rfl⟩)
  · exact laid_fault le_rfl (by simp)

theorem laid_atQuote : Laid .quote pos (c :: cs) ((atQuote pos (some c)).onward (pos + 1) cs) := by
  simp only [atQuote]
  split_ifs with hquote
  · exact laid_wrong
  · exact laid_single ih (.character hquote) ⟨rfl, rfl⟩

theorem laid_atUnquote : Laid .unquote pos (c :: cs) ((atUnquote pos (some c)).onward (pos + 1) cs) := by
  simp only [atUnquote]
  split_ifs with hquote
  · obtain rfl := Option.some.inj hquote
    exact laid_into ih .closeQuote ⟨rfl, rfl⟩
  · exact laid_wrong

/-- Between two lexemes. -/
theorem laid_between (hm : m.Began [] m) :
    Laid m pos (c :: cs) ((⟨m, pos, ""⟩ : Scanner).scanFrom pos (c :: cs)) := by
  rw [scanFrom_cons]
  cases m with
  | statement => exact laid_atStatement ih
  | comment => exact laid_atComment ih
  | before slot => exact laid_atBefore ih
  | after slot => exact laid_atAfter ih
  | paren slot => exact laid_atParen ih (.inl rfl) fun _ => rfl
  | body => exact laid_atBody ih
  | value => exact laid_atValue ih
  | quote => exact laid_atQuote ih
  | unquote => exact laid_atUnquote ih
  | ending => exact laid_atEnding ih (.inl rfl) fun _ => rfl
  | word | digits => exact absurd rfl hm.2.1
  | mark slot =>
    obtain ⟨c, hc, -⟩ := hm
    cases hc
  | sigil slot =>
    rcases hm with ⟨hc, -⟩ | ⟨c, hc, -⟩ <;> cases hc
  | name slot => cases hm.1

end

theorem laid_between_end {m : Mode} {pos : ℕ} (hm : m.Began [] m) :
    Laid m pos [] ((⟨m, pos, ""⟩ : Scanner).scanFrom pos []) := by
  have hfault (cause : ScanFault) (lexeme : String) (t : List Token) (ht : t = (fault cause lexeme pos).tokens) :
      Laid m pos [] t := ht ▸ .fault rfl (by simp) (by simp)
  cases m with
  | statement => exact .finish (.inl rfl)
  | comment => exact .finish (.inr rfl)
  | before slot =>
    cases slot with
    | declared | passed | target _ | subject | source | function => exact hfault _ _ _ rfl
    | parameter first | argument first => cases first <;> exact hfault _ _ _ rfl
  | after slot => cases slot <;> exact hfault _ _ _ rfl
  | paren | body | value | quote | unquote | ending => exact hfault _ _ _ rfl
  | word | digits => exact absurd rfl hm.2.1
  | mark slot =>
    obtain ⟨c, hc, -⟩ := hm
    cases hc
  | sigil slot =>
    rcases hm with ⟨hc, -⟩ | ⟨c, hc, -⟩ <;> cases hc
  | name slot => cases hm.1

/-! ## Where a lexeme ends -/

section

variable {start pos : ℕ} {lexeme : String} {cs : List Char} {slot : Slot}

theorem scanFrom_name_cons {c : Char} (h : isNameChar c = true) :
    (⟨.name slot, start, lexeme⟩ : Scanner).scanFrom pos (c :: cs) =
      (⟨.name slot, start, lexeme.push c⟩ : Scanner).scanFrom (pos + 1) cs := by
  simp [scanFrom, step, h, grow]

theorem scanFrom_digits_cons {c : Char} (h : isDigit c = true) :
    (⟨.digits, start, lexeme⟩ : Scanner).scanFrom pos (c :: cs) =
      (⟨.digits, start, lexeme.push c⟩ : Scanner).scanFrom (pos + 1) cs := by
  simp [scanFrom, step, h, grow]

theorem scanFrom_word_cons {c : Char} (h : isLetter c = true) :
    (⟨.word, start, lexeme⟩ : Scanner).scanFrom pos (c :: cs) =
      (⟨.word, start, lexeme.push c⟩ : Scanner).scanFrom (pos + 1) cs := by
  simp [scanFrom, step, h, grow]

theorem scanFrom_sigil_cons {c : Char} (h : isLetter c = true) :
    (⟨.sigil slot, start, lexeme⟩ : Scanner).scanFrom pos (c :: cs) =
      (⟨.name slot, start, lexeme.push c⟩ : Scanner).scanFrom (pos + 1) cs := by
  simp [scanFrom, step, h, grow]

theorem scanFrom_name (h : ∀ c ∈ cs.head?, isNameChar c = false) :
    (⟨.name slot, start, lexeme⟩ : Scanner).scanFrom pos cs =
      ⟨.ident, lexeme, start⟩ :: (⟨.after slot, pos, ""⟩ : Scanner).scanFrom pos cs := by
  cases cs with
  | nil => rfl
  | cons c cs =>
    have hc : isNameChar c = false := h c rfl
    rw [scanFrom_cons, scanFrom_cons]
    simp [step, hc, onward_withToken]

theorem scanFrom_digits (h : ∀ c ∈ cs.head?, isDigit c = false) :
    (⟨.digits, start, lexeme⟩ : Scanner).scanFrom pos cs =
      ⟨.number, lexeme, start⟩ :: (⟨.ending, pos, ""⟩ : Scanner).scanFrom pos cs := by
  cases cs with
  | nil => rfl
  | cons c cs =>
    have hc : isDigit c = false := h c rfl
    rw [scanFrom_cons, scanFrom_cons]
    simp [step, hc, onward_withToken]

theorem scanFrom_word {k : Keyword} (hk : Keyword.ofWord? lexeme = some k) (h : ∀ c ∈ cs.head?, isLetter c = false) :
    (⟨.word, start, lexeme⟩ : Scanner).scanFrom pos cs =
      ⟨.keyword k, lexeme, start⟩ :: (⟨.before (slotAfter k), pos, ""⟩ : Scanner).scanFrom pos cs := by
  cases cs with
  | nil => simp [scanFrom, step, atWordEnd, hk, withToken]
  | cons c cs =>
    have hc : isLetter c = false := h c rfl
    rw [scanFrom_cons, scanFrom_cons]
    simp [step, hc, atWordEnd, hk, onward_withToken]

/-- Where a name may be missing, a `$` without a letter behind it counts for nothing. -/
theorem scanFrom_sigil (hslot : slot.mayMiss = true) (h : ∀ c ∈ cs.head?, isLetter c = false) :
    (⟨.sigil slot, start, lexeme⟩ : Scanner).scanFrom pos cs =
      (⟨.paren slot, pos, ""⟩ : Scanner).scanFrom pos cs := by
  have hmissing (sym : Option Char) : atMissing slot lexeme pos sym = atParen slot pos sym := by
    cases slot with
    | declared | passed | target _ | subject | source | function => cases hslot
    | parameter first | argument first =>
      obtain rfl : first = true := hslot
      rfl
  cases cs with
  | nil => simp [scanFrom, step, hmissing]
  | cons c cs =>
    have hc : isLetter c = false := h c rfl
    rw [scanFrom_cons, scanFrom_cons]
    simp [step, hc, hmissing]

end

section

variable {m₀ m : Mode} {start pos : ℕ} {lexeme : String} {c : Char} {cs : List Char} {slot : Slot}

theorem laid_token {kind : TokenKind} {ts : List Token} (h : m₀.Reads kind lexeme.toList m)
    (hpos : start + lexeme.length = pos) (hts : Laid m pos cs ts) :
    Laid m₀ start (lexeme.toList ++ cs) (⟨kind, lexeme, start⟩ :: ts) := by
  rw [← hpos, ← String.length_toList] at hts
  have hlaid := Laid.token h hts
  rwa [String.ofList_toList] at hlaid

/-- A fault at the end of a lexeme. -/
theorem laid_broken {cause : ScanFault} {text : String} {ts : List Token} (hpos : start + lexeme.length = pos)
    (hts : ts = (fault cause text pos).tokens) : Laid m₀ start (lexeme.toList ++ cs) ts := by
  subst hts
  refine .fault rfl (by simp only; omega) ?_
  rw [List.length_append, String.length_toList]
  simp only
  omega

variable (hpos : start + lexeme.length = pos)
  (hbetween : ∀ m : Mode, m.Began [] m → Laid m pos cs ((⟨m, pos, ""⟩ : Scanner).scanFrom pos cs))
  (hgrow : ∀ c cs' m, cs = c :: cs' → m₀.Began (lexeme.toList ++ [c]) m →
    Laid m₀ start (lexeme.toList ++ cs) ((⟨m, start, lexeme.push c⟩ : Scanner).scanFrom (pos + 1) cs'))

include hpos hbetween hgrow

theorem laid_word (hs : m₀.Began lexeme.toList .word) :
    Laid m₀ start (lexeme.toList ++ cs) ((⟨.word, start, lexeme⟩ : Scanner).scanFrom pos cs) := by
  obtain ⟨rfl, hne, hletters⟩ := hs
  by_cases hc : ∃ c ∈ cs.head?, isLetter c = true
  · obtain ⟨c, hc, hletter⟩ := hc
    obtain ⟨cs', rfl⟩ := List.head?_eq_some_iff.1 hc
    rw [scanFrom_word_cons hletter]
    exact hgrow c cs' _ rfl ⟨rfl, by simp, by simpa [or_imp, forall_and] using ⟨hletters, hletter⟩⟩
  · have hstop : ∀ c ∈ cs.head?, isLetter c = false := by simpa using hc
    cases hk : Keyword.ofWord? lexeme with
    | some k =>
      obtain rfl := Keyword.spelling_of_ofWord? hk
      rw [scanFrom_word hk hstop]
      exact laid_token (.keyword rfl) hpos (hbetween _ ⟨rfl, rfl⟩)
    | none =>
      refine laid_broken hpos (?_ : _ = (fault (.unknownKeyword lexeme) lexeme pos).tokens)
      cases cs with
      | nil => simp [scanFrom, step, atWordEnd, hk]
      | cons c cs => simp [scanFrom, step, hstop c rfl, atWordEnd, hk, fault]

theorem laid_mark (hs : m₀.Began lexeme.toList (.mark slot)) :
    Laid m₀ start (lexeme.toList ++ cs) ((⟨.mark slot, start, lexeme⟩ : Scanner).scanFrom pos cs) := by
  obtain ⟨c₀, hw, hmark, hslot⟩ := hs
  by_cases hc : cs.head? = some '$'
  · obtain ⟨cs', rfl⟩ := List.head?_eq_some_iff.1 hc
    exact hgrow '$' cs' _ rfl (.inr ⟨c₀, by rw [hw]; rfl, hmark, hslot⟩)
  · -- where a mark is allowed no name may be missing
    have hmissing : ∃ cause, ∀ sym, atMissing slot lexeme pos sym = fault cause lexeme pos := by
      cases slot with
      | declared | function | parameter _ | argument _ => cases hmark
      | passed | target _ | subject | source => exact ⟨_, fun _ => rfl⟩
    obtain ⟨cause, hcause⟩ := hmissing
    refine laid_broken hpos (?_ : _ = (fault cause lexeme pos).tokens)
    cases cs with
    | nil => simp [scanFrom, step, hcause]
    | cons c cs =>
      have hne : c ≠ '$' := by simpa using hc
      simp [scanFrom, step, hne, hcause, fault]

theorem laid_sigil (hs : m₀.Began lexeme.toList (.sigil slot)) :
    Laid m₀ start (lexeme.toList ++ cs) ((⟨.sigil slot, start, lexeme⟩ : Scanner).scanFrom pos cs) := by
  by_cases hc : ∃ c ∈ cs.head?, isLetter c = true
  · obtain ⟨c, hc, hletter⟩ := hc
    obtain ⟨cs', rfl⟩ := List.head?_eq_some_iff.1 hc
    rw [scanFrom_sigil_cons hletter]
    refine hgrow c cs' _ rfl ?_
    obtain ⟨hw, hslot⟩ | ⟨c₀, hw, hmark, hslot⟩ := hs
    · rw [hw]
      exact ⟨.plain hletter (by simp), '$', rfl, hslot⟩
    · rw [hw]
      exact ⟨.marked hmark hletter (by simp), c₀, rfl, hslot⟩
  · have hstop : ∀ c ∈ cs.head?, isLetter c = false := by simpa using hc
    by_cases hmiss : slot.mayMiss = true
    · -- such a slot has no marks and is not the first thing in a statement or a value
      have hbefore : lexeme.toList = ['$'] ∧ m₀ = .before slot := by
        obtain ⟨hw, hslot⟩ | ⟨c₀, hw, hmark, hslot⟩ := hs
        · refine ⟨hw, ?_⟩
          cases m₀ <;> cases hslot <;> first | rfl | cases hmiss
        · cases slot <;> first | cases hmark | cases hmiss
      obtain ⟨hw, rfl⟩ := hbefore
      have hlength : start + 1 = pos := by
        rw [← hpos, ← String.length_toList, hw]
        rfl
      rw [scanFrom_sigil hmiss hstop, hw]
      refine .skip (.sigil hmiss) ?_
      rw [hlength]
      exact hbetween _ ⟨rfl, rfl⟩
    · have hmissing : ∃ cause, ∀ sym, atMissing slot lexeme pos sym = fault cause lexeme pos := by
        cases slot with
        | declared | function | passed | target _ | subject | source => exact ⟨_, fun _ => rfl⟩
        | parameter first | argument first =>
          cases first with
          | true => exact absurd rfl hmiss
          | false => exact ⟨_, fun _ => rfl⟩
      obtain ⟨cause, hcause⟩ := hmissing
      refine laid_broken hpos (?_ : _ = (fault cause lexeme pos).tokens)
      cases cs with
      | nil => simp [scanFrom, step, hcause]
      | cons c cs => simp [scanFrom, step, hstop c rfl, hcause, fault]

theorem laid_name (hs : m₀.Began lexeme.toList (.name slot)) :
    Laid m₀ start (lexeme.toList ++ cs) ((⟨.name slot, start, lexeme⟩ : Scanner).scanFrom pos cs) := by
  obtain ⟨hspells, c₀, hc₀, hslot⟩ := hs
  by_cases hc : ∃ c ∈ cs.head?, isNameChar c = true
  · obtain ⟨c, hc, hchar⟩ := hc
    obtain ⟨cs', rfl⟩ := List.head?_eq_some_iff.1 hc
    have hhead : (lexeme.toList ++ [c]).head? = some c₀ := by simp [List.head?_append, Option.mem_def.1 hc₀]
    rw [scanFrom_name_cons hchar]
    exact hgrow c cs' _ rfl ⟨hspells.push hchar, c₀, hhead, hslot⟩
  · have hstop : ∀ c ∈ cs.head?, isNameChar c = false := by simpa using hc
    obtain ⟨w, hw⟩ := List.head?_eq_some_iff.1 hc₀
    have hreads : Mode.Reads m₀ .ident lexeme.toList (.after slot) := by
      rw [hw] at hspells ⊢
      exact .ident hslot hspells
    rw [scanFrom_name hstop]
    exact laid_token hreads hpos (hbetween _ ⟨rfl, rfl⟩)

theorem laid_digits (hs : m₀.Began lexeme.toList .digits) :
    Laid m₀ start (lexeme.toList ++ cs) ((⟨.digits, start, lexeme⟩ : Scanner).scanFrom pos cs) := by
  obtain ⟨rfl, hne, hdigits⟩ := hs
  by_cases hc : ∃ c ∈ cs.head?, isDigit c = true
  · obtain ⟨c, hc, hdigit⟩ := hc
    obtain ⟨cs', rfl⟩ := List.head?_eq_some_iff.1 hc
    rw [scanFrom_digits_cons hdigit]
    exact hgrow c cs' _ rfl ⟨rfl, by simp, by simpa [or_imp, forall_and] using ⟨hdigits, hdigit⟩⟩
  · have hstop : ∀ c ∈ cs.head?, isDigit c = false := by simpa using hc
    obtain ⟨c₀, w, hw⟩ := List.exists_cons_of_ne_nil hne
    have hreads : Mode.Reads .value .number lexeme.toList .ending := by
      rw [hw] at hdigits ⊢
      exact .number hdigits
    rw [scanFrom_digits hstop]
    exact laid_token hreads hpos (hbetween _ ⟨rfl, rfl⟩)

/-- In any mode, given that all is well with one more character of the lexeme and between two lexemes. -/
theorem laid_lexeme (hs : m₀.Began lexeme.toList m) :
    Laid m₀ start (lexeme.toList ++ cs) ((⟨m, start, lexeme⟩ : Scanner).scanFrom pos cs) := by
  cases m with
  | word => exact laid_word hpos hbetween hgrow hs
  | mark slot => exact laid_mark hpos hbetween hgrow hs
  | sigil slot => exact laid_sigil hpos hbetween hgrow hs
  | name slot => exact laid_name hpos hbetween hgrow hs
  | digits => exact laid_digits hpos hbetween hgrow hs
  | statement | comment | before | after | paren | body | value | quote | unquote | ending =>
    obtain ⟨rfl, hnil⟩ := hs
    obtain rfl : lexeme = "" := String.toList_eq_nil_iff.1 hnil
    obtain rfl : start = pos := hpos
    exact hbetween _ ⟨rfl, rfl⟩

end

/-- **A scanner lays out what it has read of a lexeme and what is left.** -/
theorem scanFrom_laid {m₀ m : Mode} {start pos : ℕ} {lexeme : String} (cs : List Char)
    (hs : m₀.Began lexeme.toList m) (hpos : start + lexeme.length = pos) :
    Laid m₀ start (lexeme.toList ++ cs) ((⟨m, start, lexeme⟩ : Scanner).scanFrom pos cs) := by
  induction cs generalizing m₀ m start pos lexeme with
  | nil => exact laid_lexeme hpos (fun m hm => laid_between_end hm) (fun c cs' m hcs => by cases hcs) hs
  | cons c cs ih =>
    refine laid_lexeme hpos (fun m hm => laid_between (fun s m₀ hs hpos => ih hs hpos) hm) ?_ hs
    intro d ds m' hcs hm'
    obtain ⟨rfl, rfl⟩ := List.cons.inj hcs
    have hlength : start + (lexeme.push c).length = pos + 1 := by
      rw [String.length_push]
      omega
    have hrest := ih (String.toList_push c ▸ hm') hlength
    rwa [String.toList_push, List.append_assoc, List.singleton_append] at hrest

end Scanner

/-- **Every source is laid out as the tokens of its scan.** -/
theorem scan_laid (source : String) : Laid .statement 0 source.toList (scan source) := by
  have hinitial : Mode.statement.Began "".toList .statement := ⟨rfl, rfl⟩
  exact Scanner.scanFrom_laid source.toList hinitial rfl

/-! ## Tokens to come -/

namespace Laid

variable {m : Mode} {pos : ℕ} {cs : List Char} {ts : List Token} {slot : Slot}

/-- **What is passed over ends with the last token or with one that is read next**, in a mode that can be reached
by passing over. -/
theorem uncons {P : Mode → Prop} (h : Laid m pos cs ts) (hok : ∀ t ∈ ts, t.kind ≠ .error) (hm : P m)
    (hskips : ∀ m c m', P m → m.Skips c m' → P m') :
    (∃ t, ts = [t] ∧ t.kind = .finish ∧ (P .statement ∨ P .comment)) ∨
    ∃ t ts' m₁ m' pos' cs', ts = t :: ts' ∧ P m₁ ∧ m₁.Reads t.kind t.text.toList m' ∧ (pos : Int) ≤ t.offset ∧
      Laid m' pos' cs' ts' := by
  induction h with
  | finish hend =>
    refine .inl ⟨_, rfl, rfl, ?_⟩
    rcases hend with rfl | rfl
    · exact .inl hm
    · exact .inr hm
  | fault ht => exact absurd ht (hok _ List.mem_cons_self)
  | skip hskip _ ih =>
    obtain hlast | ⟨t, ts', m₁, m', pos', cs', hts, hm₁, hreads, hle, hrest⟩ := ih hok (hskips _ _ _ hm hskip)
    · exact .inl hlast
    · exact .inr ⟨t, ts', m₁, m', pos', cs', hts, hm₁, hreads, by omega, hrest⟩
  | token hreads hrest =>
    exact .inr ⟨_, _, _, _, _, _, rfl, hm, by rwa [String.toList_ofList], le_rfl, hrest⟩

theorem le_offset (h : Laid m pos cs ts) : ∀ t ∈ ts, (pos : Int) ≤ t.offset := by
  induction h with
  | finish => simp
  | fault ht hlow => simpa using hlow
  | skip _ _ ih =>
    intro t ht
    have := ih t ht
    omega
  | token _ _ ih =>
    refine List.forall_mem_cons.2 ⟨le_rfl, fun t ht => ?_⟩
    have := ih t ht
    omega

theorem offset_le (h : Laid m pos cs ts) : ∀ t ∈ ts, t.offset ≤ (pos : Int) + cs.length := by
  induction h with
  | finish => simp
  | fault ht _ hhigh => simpa using hhigh
  | skip _ _ ih =>
    intro t ht
    have hrest := ih t ht
    push_cast [List.length_cons] at hrest ⊢
    omega
  | token _ _ ih =>
    refine List.forall_mem_cons.2 ⟨by simp only; omega, fun t ht => ?_⟩
    have hrest := ih t ht
    push_cast [List.length_append] at hrest ⊢
    omega

/-- The end and a fault are the last token. -/
theorem getLast?_of_end (h : Laid m pos cs ts) :
    ∀ t ∈ ts, t.kind = .error ∨ t.kind = .finish → ts.getLast? = some t := by
  induction h with
  | finish => simp
  | fault => simp
  | skip _ _ ih => exact ih
  | @token _ _ _ kind w _ ts' hreads _ ih =>
    refine List.forall_mem_cons.2 ⟨fun hkind => ?_, fun t ht hkind => ?_⟩
    · cases hreads <;> simp at hkind
    · rw [List.getLast?_cons, ih t ht hkind]
      rfl

/-- With an end there is no fault. -/
theorem ne_error {e : Token} (h : Laid m pos cs ts) (he : e ∈ ts) (hfinish : e.kind = .finish) :
    ∀ t ∈ ts, t.kind ≠ .error := by
  intro t ht hkind
  have hsame := (h.getLast?_of_end t ht (.inl hkind)).symm.trans (h.getLast?_of_end e he (.inr hfinish))
  rw [Option.some.inj hsame, hfinish] at hkind
  cases hkind

variable (hok : ∀ t ∈ ts, t.kind ≠ .error)

include hok

/-- Behind a comma an identifier comes next. -/
theorem ident_next (h : Laid (.before slot) pos cs ts) (hslot : slot.mayMiss = false) :
    ∃ b ts', ts = b :: ts' ∧ b.kind = .ident ∧ (pos : Int) ≤ b.offset := by
  have hskips (m : Mode) (c : Char) (m' : Mode) (hm : m = .before slot) (hskip : m.Skips c m') :
      m' = .before slot := by
    subst hm
    cases hskip with
    | blank => rfl
    | sigil hmiss => simp [hslot] at hmiss
  obtain ⟨_, -, -, hm | hm⟩ | ⟨b, ts', m₁, _, _, _, hts, rfl, hreads, hle, -⟩ :=
    h.uncons (P := (· = .before slot)) hok rfl hskips
  · cases hm
  · cases hm
  · refine ⟨b, ts', hts, ?_, hle⟩
    generalize b.kind = kind at hreads
    generalize b.text.toList = w at hreads
    cases hreads with
    | ident => rfl
    | closeParen hm => rcases hm with hm | ⟨hm, -⟩ | ⟨hm, hmiss⟩ <;> cases hm; simp [hslot] at hmiss
    | semicolon hm => rcases hm with hm | hm | hm | hm <;> cases hm

/-- Behind a `$` without a name a parenthesis comes next. -/
theorem closeParen_next (h : Laid (.paren slot) pos cs ts) :
    ∃ b ts', ts = b :: ts' ∧ b.kind = .closeParen ∧ (pos : Int) ≤ b.offset := by
  have hskips (m : Mode) (c : Char) (m' : Mode) (hm : m = .paren slot) (hskip : m.Skips c m') :
      m' = .paren slot := by
    subst hm
    cases hskip with
    | blank => rfl
  obtain ⟨_, -, -, hm | hm⟩ | ⟨b, ts', m₁, _, _, _, hts, rfl, hreads, hle, -⟩ :=
    h.uncons (P := (· = .paren slot)) hok rfl hskips
  · cases hm
  · cases hm
  · refine ⟨b, ts', hts, ?_, hle⟩
    generalize b.kind = kind at hreads
    generalize b.text.toList = w at hreads
    cases hreads with
    | ident hm => cases hm
    | closeParen => rfl
    | semicolon hm => rcases hm with hm | hm | hm | hm <;> cases hm

/-- Behind a quote that opens, a character comes at once. -/
theorem character_next (h : Laid .quote pos cs ts) : ∃ b ts', ts = b :: ts' ∧ b.kind = .character ∧ b.offset = pos := by
  cases h with
  | finish hm => rcases hm with hm | hm <;> cases hm
  | fault ht => exact absurd ht (hok _ List.mem_cons_self)
  | skip hskip =>
    cases hskip with
    | blank hm => cases hm
  | token hreads =>
    cases hreads with
    | ident hm => cases hm
    | character => exact ⟨_, _, rfl, rfl, rfl⟩
    | closeParen hm => rcases hm with hm | ⟨hm, -⟩ | ⟨hm, -⟩ <;> cases hm
    | semicolon hm => rcases hm with hm | hm | hm | hm <;> cases hm

end Laid

end TapeCompiler
