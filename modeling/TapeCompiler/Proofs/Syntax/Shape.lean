import Mathlib.Tactic.Common
import TapeCompiler.Proofs.Syntax.Trivia

/-!
# The shape of a scan

The tokens of a source are pieces of it from left to right, and the last one is its end or a fault. How an
identifier may be written depends on its place in the statement, and the place can be told from the tokens around it:
from the last one before it that is no identifier, and for a function that is called from the parenthesis behind it.

* `Token.StandsIn`: the text of a token is what stands in the source at its offset.
* `IsIdent`: a name with a mark or without; `opener`: what the list of an identifier comes behind.
* `Token.Shaped`: how a token is written, given the tokens around it.
* `Mode.Stands`: what the mode of a scan says about the tokens before; `Stands.skip` and `Stands.token` for one step.
* `Laid.shaped`: **all tokens are well spelled**, by induction along the layout.
* `scan_shape`: **the shape of the tokens of every source.**
-/

namespace TapeCompiler

/-! ## Spans -/

/-- The text of a token stands in the source at its offset. -/
structure Token.StandsIn (t : Token) (cs : List Char) : Prop where
  nonneg : 0 ≤ t.offset
  stop_le : t.stop ≤ cs.length
  text : (cs.drop t.offset.toNat).take t.text.length = t.text.toList

theorem Token.standsIn_word (kind : TokenKind) (pre w cs : List Char) :
    Token.StandsIn ⟨kind, String.ofList w, pre.length⟩ (pre ++ (w ++ cs)) where
  nonneg := Int.natCast_nonneg _
  stop_le := by
    simp only [stop, String.length_ofList, List.length_append]
    omega
  text := by simp

namespace Laid

variable {m : Mode} {pos : ℕ} {cs : List Char} {ts : List Token}

/-- **All tokens but a fault stand in the source.** The characters `pre` are what came before. -/
theorem standsIn (h : Laid m pos cs ts) (pre : List Char) (hpos : pre.length = pos) :
    ∀ t ∈ ts, t.kind ≠ .error → t.StandsIn (pre ++ cs) := by
  induction h generalizing pre with
  | finish =>
    intro t ht _
    rw [List.mem_singleton.1 ht, ← hpos]
    exact Token.standsIn_word .finish pre [] []
  | fault ht =>
    intro t hmem hkind
    rw [List.mem_singleton.1 hmem] at hkind
    exact absurd ht hkind
  | @skip _ _ _ c cs _ _ _ ih =>
    have hrest := ih (pre ++ [c]) (by rw [List.length_append, hpos]; rfl)
    rwa [List.append_assoc, List.singleton_append] at hrest
  | @token _ _ _ kind w cs _ _ _ ih =>
    have hrest := ih (pre ++ w) (by rw [List.length_append, hpos])
    rw [List.append_assoc] at hrest
    refine List.forall_mem_cons.2 ⟨fun _ => ?_, hrest⟩
    rw [← hpos]
    exact Token.standsIn_word kind pre w cs

/-- **Every token ends before the next one begins.** -/
theorem pairwise_stop_le (h : Laid m pos cs ts) : ts.Pairwise fun a b => a.stop ≤ b.offset := by
  induction h with
  | finish | fault => exact List.pairwise_singleton _ _
  | skip _ _ ih => exact ih
  | token _ hts ih =>
    refine List.pairwise_cons.2 ⟨?_, ih⟩
    intro b hb
    have hle := hts.le_offset b hb
    simp only [Token.stop, String.length_ofList]
    omega

/-- **One token ends a scan**, and it is the last one: the end, which is empty and stands behind all characters, or a
fault. -/
theorem ends (h : Laid m pos cs ts) : ∃ front last, ts = front ++ [last] ∧
    (∀ t ∈ front, t.kind ≠ .finish ∧ t.kind ≠ .error ∧ t.text ≠ "") ∧
    (last.kind = .finish ∧ last.text = "" ∧ last.offset = ((pos + cs.length : ℕ) : Int) ∨
      last.kind = .error ∧ last.offset ≤ ((pos + cs.length : ℕ) : Int)) := by
  induction h with
  | finish => exact ⟨[], _, rfl, by simp, .inl ⟨rfl, rfl, rfl⟩⟩
  | fault ht _ hhigh => exact ⟨[], _, rfl, by simp, .inr ⟨ht, by push_cast; exact hhigh⟩⟩
  | @skip _ _ pos _ cs _ _ _ ih =>
    obtain ⟨front, last, hts, hfront, hlast⟩ := ih
    refine ⟨front, last, hts, hfront, ?_⟩
    rwa [List.length_cons, show pos + (cs.length + 1) = pos + 1 + cs.length by omega]
  | @token _ _ pos kind w cs _ hreads _ ih =>
    obtain ⟨front, last, hts, hfront, hlast⟩ := ih
    have hkind : kind ≠ .finish ∧ kind ≠ .error := by
      cases hreads <;> exact ⟨nofun, nofun⟩
    have htext : String.ofList w ≠ "" := by
      obtain ⟨c, w', rfl⟩ := hreads.exists_cons
      simp
    refine ⟨⟨kind, String.ofList w, pos⟩ :: front, last, by rw [hts]; rfl, ?_, ?_⟩
    · exact List.forall_mem_cons.2 ⟨⟨hkind.1, hkind.2, htext⟩, hfront⟩
    · rwa [List.length_append, ← Nat.add_assoc]

end Laid

/-! ## Spelling -/

/-- A name: `$`, a letter, and letters, digits and underscores. -/
def IsName (w : List Char) : Prop :=
  ∃ c cs, w = '$' :: c :: cs ∧ isLetter c = true ∧ ∀ d ∈ cs, isNameChar d = true

/-- A name with one of some marks in front of it, or with none. -/
def IsIdent (marks w : List Char) : Prop :=
  IsName w ∨ ∃ m ∈ marks, ∃ name, w = m :: name ∧ IsName name

/-- The marks that may stand in a slot. -/
def Slot.marks : Slot → List Char
  | target _ => ['+', '-']
  | passed | subject | source => ['+', '-', '_']
  | declared | function | parameter _ | argument _ => []

theorem Slot.mem_marks {slot : Slot} {c : Char} (h : slot.allowsMark c = true) : c ∈ slot.marks := by
  cases slot with
  | declared | function | parameter _ | argument _ => cases h
  | target _ | passed | subject | source => simpa [allowsMark, marks, or_assoc] using h

theorem Slot.Spells.isIdent {slot : Slot} {marks w : List Char} (h : slot.Spells w) (hmarks : slot.marks ⊆ marks) :
    IsIdent marks w := by
  cases h with
  | plain hc hcs => exact .inl ⟨_, _, rfl, hc, hcs⟩
  | @marked m _ _ hm hc hcs => exact .inr ⟨m, hmarks (mem_marks hm), _, rfl, _, _, rfl, hc, hcs⟩

/-- The last kind of a token that is no identifier: behind it the list begins to which a next identifier belongs. -/
def opener (ts : List Token) : Option TokenKind :=
  (ts.reverse.find? fun t => t.kind != .ident).map Token.kind

theorem opener_concat (ts : List Token) (t : Token) :
    opener (ts ++ [t]) = if t.kind = .ident then opener ts else some t.kind := by
  by_cases ht : t.kind = .ident <;> simp [opener, ht]

/-- What opens the list of an identifier that takes no mark: a declaration, a definition, or a parenthesis, behind
which parameters or arguments stand. A function that is called is known by the parenthesis behind it. -/
def TakesNoMark (before behind : List Token) : Prop :=
  opener before = some (.keyword .declare) ∨ opener before = some (.keyword .define) ∨
    opener before = some .openParen ∨ behind.head?.map Token.kind = some .openParen

/-- What a statement begins behind. -/
def LeadsStatement (before : List Token) : Prop :=
  opener before ∈ [none, some .semicolon, some .openBrace, some .closeBrace]

/-- How a token is written that stands between other tokens. -/
def Token.Shaped (t : Token) (before behind : List Token) : Prop :=
  match t.kind with
  | .ident => IsIdent ['+', '-', '_'] t.text.toList ∧
      (TakesNoMark before behind → IsIdent [] t.text.toList) ∧
      (LeadsStatement before → IsIdent ['+', '-'] t.text.toList)
  | .number => t.text ≠ "" ∧ ∀ d ∈ t.text.toList, isDigit d = true
  | .character => ∃ c, t.text = String.ofList [c] ∧ c ≠ '\''
  | .keyword k => t.text = k.spelling
  | .openParen => t.text = "("
  | .closeParen => t.text = ")"
  | .openBrace => t.text = "\x7b"
  | .closeBrace => t.text = "\x7d"
  | .semicolon => t.text = ";"
  | .equals => t.text = "="
  | .finish => t.text = ""
  | .error => True

/-! ## Places of identifiers -/

/-- What can open the list of an identifier in a slot. -/
def Slot.openers : Slot → List (Option TokenKind)
  | declared => [some (.keyword .declare)]
  | passed => [some (.keyword .print), some (.keyword .read)]
  | target _ => [none, some .semicolon, some .openBrace, some .closeBrace]
  | subject => [some (.keyword .branch), some (.keyword .loop)]
  | source => [some .equals]
  | function => [some (.keyword .define)]
  | parameter _ | argument _ => [some .openParen]

theorem Slot.marks_of_opener {slot : Slot} {kind : Option TokenKind} (h : kind ∈ slot.openers)
    (hkind : kind ∈ [some (.keyword .declare), some (.keyword .define), some .openParen]) : slot.marks ⊆ [] := by
  cases slot with
  | declared | function | parameter _ | argument _ => exact List.Subset.refl _
  | passed | target _ | subject | source =>
    simp only [openers, List.mem_cons, List.not_mem_nil, or_false] at h hkind
    rcases hkind with rfl | rfl | rfl <;> simp at h

theorem Slot.marks_of_leading {slot : Slot} {kind : Option TokenKind} (h : kind ∈ slot.openers)
    (hkind : kind ∈ [none, some .semicolon, some .openBrace, some .closeBrace]) : slot.marks ⊆ ['+', '-'] := by
  cases slot with
  | target _ => exact List.Subset.refl _
  | declared | function | parameter _ | argument _ => exact List.nil_subset _
  | passed | subject | source =>
    simp only [openers, List.mem_cons, List.not_mem_nil, or_false] at h hkind
    rcases hkind with rfl | rfl | rfl | rfl <;> simp at h

/-- What the mode of a scan says about the tokens that were made before. A function that is called is the first
identifier of its statement, so none is looked for in the middle of a list. -/
def Mode.Stands (ts : List Token) : Mode → Prop
  | statement | comment => LeadsStatement ts
  | before slot => opener ts ∈ slot.openers ∧ slot ≠ .target true
  | after slot => opener ts ∈ slot.openers
  | value => opener ts = some .equals
  | word | mark _ | sigil _ | name _ | paren _ | body | digits | quote | unquote | ending => True

namespace Mode.Stands

variable {m m' : Mode} {c : Char} {w : List Char} {ts : List Token} {kind : TokenKind}

/-- One character that is passed over. -/
theorem skip (h : m.Stands ts) (hskip : m.Skips c m') : m'.Stands ts := by
  cases hskip with
  | blank => exact h
  | hash | remark | lineEnd => exact h
  | @comma slot next hnext =>
    -- a comma goes on with the same list
    have hlist : next.openers = slot.openers ∧ next ≠ .target true := by
      cases slot <;> cases hnext <;> exact ⟨rfl, nofun⟩
    exact ⟨hlist.1 ▸ h, hlist.2⟩
  | openQuote | closeQuote | sigil => trivial

/-- The slot of an identifier that is read next. -/
theorem opener_mem {slot : Slot} (h : m.Stands ts) (hslot : m.slot? c = some slot) : opener ts ∈ slot.openers := by
  cases m with
  | statement =>
    obtain rfl := Option.some.inj hslot
    exact h
  | before =>
    obtain rfl := Option.some.inj hslot
    exact h.1
  | value =>
    obtain rfl := Option.some.inj hslot
    exact List.mem_singleton.2 h
  | comment | word | mark | sigil | name | after | paren | body | digits | quote | unquote | ending => cases hslot

/-- A function that is called has no mark. -/
theorem eq_sigil (h : m.Stands ts) (hslot : m.slot? c = some (.target true)) : c = '$' := by
  cases m with
  | statement => simpa [slot?] using hslot
  | before => exact absurd (Option.some.inj hslot) h.2
  | value | comment | word | mark | sigil | name | after | paren | body | digits | quote | unquote | ending =>
    cases hslot

/-- One token. -/
theorem token (h : m.Stands ts) (hreads : m.Reads kind w m') (pos : ℕ) :
    m'.Stands (ts ++ [⟨kind, String.ofList w, pos⟩]) := by
  cases hreads with
  | ident hslot =>
    rw [Stands, opener_concat, if_pos rfl]
    exact h.opener_mem hslot
  | @keyword k => cases k <;> simp [Stands, opener_concat, Scanner.slotAfter, Slot.openers]
  | equals => simp [Stands, opener_concat]
  | openArguments | openParameters => simp [Stands, opener_concat, Slot.openers]
  | closeBrace | openBlock | openBody | semicolon => simp [Stands, LeadsStatement, opener_concat]
  | @closeParen _ slot => cases slot <;> trivial
  | number | character => trivial

end Mode.Stands

/-- Behind an identifier a parenthesis opens only if it is a function. -/
theorem Laid.slot_of_openParen {slot : Slot} {pos : ℕ} {cs : List Char} {ts : List Token}
    (h : Laid (.after slot) pos cs ts) (hparen : ts.head?.map Token.kind = some .openParen) :
    slot = .target true ∨ slot = .function := by
  generalize hm : Mode.after slot = m at h
  -- what is passed over does not leave these modes, and the last two of them read no such token
  replace hm : m = .after slot ∨ (∃ s, m = .before s) ∨ ∃ s, m = .paren s := .inl hm.symm
  induction h with
  | finish => cases hparen
  | fault ht =>
    rw [List.head?_cons, Option.map_some, ht] at hparen
    cases hparen
  | skip hskip _ ih =>
    refine ih hparen ?_
    obtain rfl | ⟨s, rfl⟩ | ⟨s, rfl⟩ := hm
    · cases hskip with
      | blank => exact .inl rfl
      | comma => exact .inr (.inl ⟨_, rfl⟩)
    · cases hskip with
      | blank => exact .inr (.inl ⟨s, rfl⟩)
      | sigil => exact .inr (.inr ⟨s, rfl⟩)
    · cases hskip with
      | blank => exact .inr (.inr ⟨s, rfl⟩)
  | token hreads =>
    obtain rfl := Option.some.inj hparen
    cases hreads with
    | openArguments =>
      obtain hm | ⟨s, hm⟩ | ⟨s, hm⟩ := hm <;> cases hm
      exact .inl rfl
    | openParameters =>
      obtain hm | ⟨s, hm⟩ | ⟨s, hm⟩ := hm <;> cases hm
      exact .inr rfl

/-- **One token is well spelled**, given the tokens before it and how those behind it are laid out. -/
theorem Mode.Stands.shaped {m m' : Mode} {kind : TokenKind} {w cs : List Char} {before behind : List Token} {pos : ℕ}
    (h : m.Stands before) (hreads : m.Reads kind w m') (hbehind : Laid m' (pos + w.length) cs behind) :
    Token.Shaped ⟨kind, String.ofList w, pos⟩ before behind := by
  cases hreads with
  | @ident _ slot c w hslot hspells =>
    have hopener := h.opener_mem hslot
    simp only [Token.Shaped, String.toList_ofList]
    refine ⟨hspells.isIdent ?_, ?_, ?_⟩
    · cases slot <;> simp [Slot.marks]
    · -- the slot is known from the tokens around
      intro hplace
      by_cases hcall : slot = .target true
      · rw [hcall] at hslot hspells
        obtain rfl := h.eq_sigil hslot
        cases hspells with
        | plain hc hcs => exact .inl ⟨_, _, rfl, hc, hcs⟩
        | marked hm => cases hm
      · refine hspells.isIdent ?_
        rcases hplace with hplace | hplace | hplace | hparen
        · exact Slot.marks_of_opener hopener (by simp [hplace])
        · exact Slot.marks_of_opener hopener (by simp [hplace])
        · exact Slot.marks_of_opener hopener (by simp [hplace])
        · rw [(hbehind.slot_of_openParen hparen).resolve_left hcall]
          simp [Slot.marks]
    · intro hleads
      exact hspells.isIdent (Slot.marks_of_leading hopener hleads)
  | number hw => exact ⟨by simp, by simpa using hw⟩
  | character hc => exact ⟨_, rfl, hc⟩
  | @keyword k _ hw =>
    obtain rfl := hw
    exact String.ofList_toList
  | closeBrace | equals | openArguments | openParameters | openBlock | openBody | closeParen | semicolon => rfl

/-- **All tokens are well spelled.** The tokens `before` are what came before. -/
theorem Laid.shaped {m : Mode} {pos : ℕ} {cs : List Char} {ts before : List Token} (h : Laid m pos cs ts)
    (hstands : m.Stands before) {front behind : List Token} {t : Token} (hts : ts = front ++ t :: behind) :
    t.Shaped (before ++ front) behind := by
  induction h generalizing before front with
  | finish =>
    obtain ⟨rfl, hcons⟩ := List.append_eq_singleton_iff.1 hts.symm |>.resolve_right (by simp)
    obtain ⟨rfl, -⟩ := List.cons.inj hcons
    rfl
  | fault ht =>
    obtain ⟨rfl, hcons⟩ := List.append_eq_singleton_iff.1 hts.symm |>.resolve_right (by simp)
    obtain ⟨rfl, -⟩ := List.cons.inj hcons
    rw [Token.Shaped, ht]
    trivial
  | skip hskip _ ih => exact ih (hstands.skip hskip) hts
  | @token _ _ pos kind w _ ts' hreads hrest ih =>
    cases front with
    | nil =>
      obtain ⟨rfl, rfl⟩ := List.cons.inj hts
      rw [List.append_nil]
      exact hstands.shaped hreads hrest
    | cons first front =>
      obtain ⟨rfl, hts'⟩ := List.cons.inj hts
      have hlater := ih (hstands.token hreads pos) hts'
      rwa [List.append_assoc, List.singleton_append] at hlater

/-! ## The whole scan -/

/-- **The shape of a scan.** The last token, and no other, is the end of the source, empty and behind all characters,
or a fault, which is reported inside of the source. All other tokens are the pieces of the source at their offsets; each
ends before the next one begins, the fault included. All are spelled as their kind and their place demand. -/
theorem scan_shape (source : String) : ∃ front last, scan source = front ++ [last] ∧
    (∀ t ∈ front, t.kind ≠ .finish ∧ t.kind ≠ .error ∧ t.text ≠ "") ∧
    (last.kind = .finish ∧ last.text = "" ∧ last.offset = (source.length : Int) ∨
      last.kind = .error ∧ 0 ≤ last.offset ∧ last.offset ≤ (source.length : Int)) ∧
    (∀ t ∈ scan source, t.kind ≠ .error → t.StandsIn source.toList) ∧
    ((scan source).Pairwise fun a b => a.stop ≤ b.offset) ∧
    ∀ before t behind, scan source = before ++ t :: behind → t.Shaped before behind := by
  have hlaid := scan_laid source
  have hstart : Mode.statement.Stands [] := by
    rw [Mode.Stands, LeadsStatement]
    decide
  obtain ⟨front, last, hts, hfront, hlast⟩ := hlaid.ends
  have hnonneg : 0 ≤ last.offset := by
    have hle := hlaid.le_offset last (by simp [hts])
    simpa using hle
  rw [Nat.zero_add, String.length_toList] at hlast
  refine ⟨front, last, hts, hfront, ?_, hlaid.standsIn [] rfl, hlaid.pairwise_stop_le, ?_⟩
  · rcases hlast with hlast | ⟨hkind, hle⟩
    · exact .inl hlast
    · exact .inr ⟨hkind, hnonneg, hle⟩
  · intro before t behind hsplit
    exact hlaid.shaped hstart hsplit

/-- A call whose list of arguments is not closed, behind an assignment. -/
theorem scan_shape_call : ∃ before behind,
    scan "-$x = 7; $f($x" = before ++ ⟨.ident, "$f", 9⟩ :: behind ∧ LeadsStatement before ∧ TakesNoMark before behind ∧
      IsIdent [] "$f".toList ∧ behind.getLast?.map Token.offset = some 14 := by
  have htokens : scan "-$x = 7; $f($x" =
      [⟨.ident, "-$x", 0⟩, ⟨.equals, "=", 4⟩, ⟨.number, "7", 6⟩, ⟨.semicolon, ";", 7⟩] ++ ⟨.ident, "$f", 9⟩ ::
        [⟨.openParen, "(", 11⟩, ⟨.ident, "$x", 12⟩, ⟨.error, "Message: Expected close paren\nToken: ", 14⟩] := by
    decide +kernel
  have hleads : LeadsStatement
      [⟨.ident, "-$x", 0⟩, ⟨.equals, "=", 4⟩, ⟨.number, "7", 6⟩, ⟨.semicolon, ";", 7⟩] := by
    unfold LeadsStatement
    decide
  obtain ⟨-, -, -, -, -, -, -, hshaped⟩ := scan_shape "-$x = 7; $f($x"
  obtain ⟨-, hunmarked, -⟩ := hshaped _ _ _ htokens
  have hcall : TakesNoMark [⟨.ident, "-$x", 0⟩, ⟨.equals, "=", 4⟩, ⟨.number, "7", 6⟩, ⟨.semicolon, ";", 7⟩]
      [⟨.openParen, "(", 11⟩, ⟨.ident, "$x", 12⟩, ⟨.error, "Message: Expected close paren\nToken: ", 14⟩] :=
    .inr (.inr (.inr rfl))
  exact ⟨_, _, htokens, hleads, hcall, hunmarked hcall, rfl⟩

end TapeCompiler
