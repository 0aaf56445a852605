import Mathlib.Tactic.Common
import TapeCompiler.Proofs.Syntax.Lexical
import TapeCompiler.Proofs.Syntax.Place

/-!
# What the scanner makes follows the places

The modes of the scanner know the outline of a statement. Each mode between two lexemes fits a place between tokens,
passing over a character keeps the place, and a word leads to the place behind its token.

* `Token.Spelled`: what the scanner makes sure of in the text of a token.
* `Flows`: tokens that follow by their kinds from place to place, up to the end or a fault.
* `Mode.Fits`: the places that a mode fits.
* `Mode.Fits.skip`, `Mode.Fits.reads`: what is passed over and what is read keep a mode in its place.
* `Laid.flows`, `scan_flows`: **scanned tokens flow from the start.**
-/

namespace TapeCompiler

/-- The text of a token as the scanner makes it: a number has digits, and a character token one character. -/
structure Token.Spelled (t : Token) : Prop where
  number : t.kind = .number → t.text ≠ "" ∧ ∀ c ∈ t.text.toList, isDigit c = true
  character : t.kind = .character → t.text ≠ ""

/-- Tokens that follow by their kinds from a place on, up to the end of the source or a fault. -/
inductive Flows : Place → List Token → Prop
  | finish {t : Token} (ht : t.kind = .finish) : Flows .start [t]
  | error {p : Place} {t : Token} (ht : t.kind = .error) : Flows p [t]
  | cons {p q : Place} {t : Token} {ts : List Token} (hnext : p.next? t.kind = some q) (hfinish : t.kind ≠ .finish)
      (ht : t.Spelled) (hts : Flows q ts) : Flows p (t :: ts)

/-! ## Modes and places -/

/-- The places where an identifier of a slot may follow. -/
inductive Slot.Before : Slot → Place → Prop
  | declared : Before .declared .names
  | passed : Before .passed .names
  | callable : Before (.target true) .start
  | first : Before (.target false) .start
  | second : Before (.target false) .lead
  | later : Before (.target false) .targets
  | subject : Before .subject .subject
  | source : Before .source .value
  | function : Before .function .function
  | parameter (first : Bool) : Before (.parameter first) .parameters
  | argument (first : Bool) : Before (.argument first) .arguments

/-- The places behind an identifier of a slot. -/
def Slot.After (slot : Slot) (p : Place) : Prop :=
  ∃ q, slot.Before q ∧ q.next? .ident = some p

/-- The slots of lists in parentheses. -/
inductive Slot.Listed : Slot → Place → Prop
  | parameter (first : Bool) : Listed (.parameter first) .parameters
  | argument (first : Bool) : Listed (.argument first) .arguments

/-- The places that a mode between two lexemes fits. -/
def Mode.Fits (p : Place) : Mode → Prop
  | statement | comment => p = .start
  | before slot => slot.Before p
  | after slot => slot.After p
  | paren slot => slot.Listed p
  | body => p = .braced
  | value | quote => p = .value
  | unquote | ending => p = .ending
  | word | mark _ | sigil _ | name _ | digits => False

namespace Slot

variable {slot : Slot} {p : Place}

theorem Before.exists_after (h : slot.Before p) : ∃ q, p.next? .ident = some q ∧ slot.After q := by
  have hbefore := h
  cases h <;> exact ⟨_, rfl, _, hbefore, rfl⟩

theorem Before.listed (h : slot.Before p) (hslot : slot.mayMiss = true) : slot.Listed p := by
  cases h with
  | parameter first => exact .parameter first
  | argument first => exact .argument first
  | _ => cases hslot

theorem After.comma {next : Slot} (h : slot.After p) (hnext : slot.afterComma? = some next) : next.Before p := by
  obtain ⟨q, hq, hident⟩ := h
  cases hq <;> cases hident <;> cases hnext <;> constructor

theorem After.listed (h : slot.After p) (hslot : slot.inParens = true) : slot.Listed p := by
  obtain ⟨q, hq, hident⟩ := h
  cases hq <;> cases hident <;> first | constructor | cases hslot

theorem Listed.closed (h : slot.Listed p) :
    ∃ q, p.next? .closeParen = some q ∧ (Scanner.afterParen slot).Fits q := by
  cases h with
  | parameter => exact ⟨.braced, rfl, rfl⟩
  | argument => exact ⟨.ending, rfl, rfl⟩

end Slot

namespace Mode

variable {m m' : Mode} {p : Place} {c : Char} {kind : TokenKind} {w : List Char}

/-- What is passed over keeps the place. -/
theorem Fits.skip (h : m.Fits p) (hskip : m.Skips c m') : m'.Fits p := by
  cases hskip with
  | blank | hash | remark | lineEnd | openQuote | closeQuote => exact h
  | comma hnext => exact Slot.After.comma h hnext
  | sigil hmiss => exact Slot.Before.listed h hmiss

theorem fits_slotAfter (k : Keyword) :
    ∃ q, Place.start.next? (.keyword k) = some q ∧ (before (Scanner.slotAfter k)).Fits q := by
  cases k with
  | declare => exact ⟨.names, rfl, .declared⟩
  | print | read => exact ⟨.names, rfl, .passed⟩
  | branch | loop => exact ⟨.subject, rfl, .subject⟩
  | define => exact ⟨.function, rfl, .function⟩

/-- An identifier leads behind its slot. -/
theorem Fits.ident {slot : Slot} (h : m.Fits p) (hslot : m.slot? c = some slot) :
    ∃ q, p.next? .ident = some q ∧ slot.After q := by
  have hbefore : slot.Before p := by
    cases m with
    | statement =>
      obtain rfl : p = .start := h
      obtain rfl := Option.some.inj hslot
      cases c == '$'
      · exact .first
      · exact .callable
    | before slot =>
      obtain rfl := Option.some.inj hslot
      exact h
    | value =>
      obtain rfl : p = .value := h
      obtain rfl := Option.some.inj hslot
      exact .source
    | comment | word | mark | sigil | name | after | paren | body | digits | quote | unquote | ending => cases hslot
  exact hbefore.exists_after

/-- **A word leads to the place behind its token.** -/
theorem Fits.reads (h : m.Fits p) (hreads : m.Reads kind w m') : ∃ q, p.next? kind = some q ∧ m'.Fits q := by
  cases hreads with
  | @keyword k =>
    obtain rfl : p = .start := h
    exact fits_slotAfter k
  | ident hslot => exact h.ident hslot
  | number =>
    obtain rfl : p = .value := h
    exact ⟨.ending, rfl, rfl⟩
  | character =>
    obtain rfl : p = .value := h
    exact ⟨.ending, rfl, rfl⟩
  | closeBrace =>
    obtain rfl : p = .start := h
    exact ⟨.start, rfl, rfl⟩
  -- behind an identifier the slot says which place that was
  | equals =>
    obtain ⟨q, hq, hident⟩ := h
    cases hq <;> cases hident <;> exact ⟨.value, rfl, rfl⟩
  | openArguments =>
    obtain ⟨q, hq, hident⟩ := h
    cases hq
    cases hident
    exact ⟨.arguments, rfl, .argument true⟩
  | openParameters =>
    obtain ⟨q, hq, hident⟩ := h
    cases hq
    cases hident
    exact ⟨.parameters, rfl, .parameter true⟩
  | openBlock =>
    obtain ⟨q, hq, hident⟩ := h
    cases hq
    cases hident
    exact ⟨.start, rfl, rfl⟩
  | openBody =>
    obtain rfl : p = .braced := h
    exact ⟨.start, rfl, rfl⟩
  | closeParen hm =>
    obtain rfl | ⟨rfl, hparens⟩ | ⟨rfl, hmiss⟩ := hm
    · exact Slot.Listed.closed h
    · exact (Slot.After.listed h hparens).closed
    · exact (Slot.Before.listed h hmiss).closed
  | semicolon hm =>
    obtain rfl | rfl | rfl | rfl := hm
    · obtain rfl : p = .ending := h
      exact ⟨.start, rfl, rfl⟩
    all_goals
      obtain ⟨q, hq, hident⟩ := h
      cases hq
      cases hident
      exact ⟨.start, rfl, rfl⟩

theorem Reads.ne_finish (h : m.Reads kind w m') : kind ≠ .finish := by
  cases h <;> simp

theorem Reads.spelled (h : m.Reads kind w m') (pos : ℕ) : Token.Spelled ⟨kind, String.ofList w, pos⟩ := by
  obtain ⟨c, w', rfl⟩ := h.exists_cons
  have hne : String.ofList (c :: w') ≠ "" := by simp
  refine ⟨fun hkind => ⟨hne, ?_⟩, fun _ => hne⟩
  obtain rfl : kind = .number := hkind
  cases h with
  | number hw => simpa using hw

end Mode

/-! ## Sources -/

/-- Characters that are laid out from a mode flow from the places that it fits. -/
theorem Laid.flows {m : Mode} {pos : ℕ} {cs : List Char} {ts : List Token} {p : Place} (h : Laid m pos cs ts)
    (hm : m.Fits p) : Flows p ts := by
  induction h generalizing p with
  | finish hend =>
    obtain rfl : p = .start := by obtain rfl | rfl := hend <;> exact hm
    exact .finish rfl
  | fault ht => exact .error ht
  | skip hskip _ ih => exact ih (hm.skip hskip)
  | token hreads _ ih =>
    obtain ⟨q, hnext, hq⟩ := hm.reads hreads
    exact .cons hnext hreads.ne_finish (hreads.spelled _) (ih hq)

/-- **Scanned tokens follow from the start.** -/
theorem scan_flows (source : String) : Flows .start (scan source) :=
  (scan_laid source).flows rfl

end TapeCompiler
