import Mathlib.Data.Nat.Digits.Defs
import TapeCompiler.Proofs.Syntax.Agreement

/-!
# Programs that can be written

Not every program is one of a source: a list of names is never empty there, a name begins with `$`, and a number
is not negative. Each identifier has to be read back from its text in the slot in which it stands.

* `Slot.Takes`: an identifier that a slot takes and that is read back from its text.
* `Stmt.Writable`: a statement that can be written in a source.
* `Lexed`: tokens that can follow in a mode.
* `parse_writable`: **the statements of a source that is parsed can be written.**
* `parse_unfloored`: so they have no target with a floor, although the grammar allows it.
-/

namespace TapeCompiler

open Grammar

/-! ## Numerals -/

theorem decimal_lt {text : String} (h : ∀ c ∈ text.toList, isDigit c = true) : decimal text < 10 ^ text.length := by
  have hlt := Nat.ofDigits_lt_base_pow_length (b := 10)
    (l := text.toList.reverse.map fun c => c.toNat - '0'.toNat) (by decide) (by
      intro d hd
      obtain ⟨c, hc, rfl⟩ := List.mem_map.1 hd
      have hdigit := toNat_of_isDigit (h c (List.mem_reverse.1 hc))
      have hzero : '0'.toNat = 48 := rfl
      omega)
  rwa [List.length_map, List.length_reverse, String.length_toList] at hlt

theorem decimal_repr (n : ℕ) : decimal n.repr = n := by
  have hfold : decimal n.repr = Nat.ofDigitChars 10 (Nat.toDigits 10 n) 0 := by
    rw [decimal, Nat.ofDigits_eq_foldr, Nat.ofDigitChars_eq_foldl, Nat.toList_repr, ← List.foldr_reverse,
      List.foldr_map]
    congr 1
    funext c m
    rw [Nat.cast_id]
    omega
  rw [hfold, Nat.ofDigitChars_ten_toDigits]

theorem isDigit_repr {n : ℕ} {c : Char} (hc : c ∈ n.repr.toList) : isDigit c = true := by
  rw [Nat.toList_repr] at hc
  have hdigit := Nat.isDigit_of_mem_toDigits (by decide) (by decide) hc
  simpa [isDigit, Char.isDigit, Char.le_def] using hdigit

/-- A number below the bound is written with few enough digits. -/
theorem isNumeral_repr {n : ℕ} (h : n < 10 ^ maxDigits) : IsNumeral n.repr where
  ne_empty := by
    intro hempty
    have hnil := String.toList_eq_nil_iff.2 hempty
    rw [Nat.toList_repr] at hnil
    exact Nat.toDigits_ne_nil hnil
  digits _ hc := isDigit_repr hc
  length_le := Nat.repr_length n maxDigits (by decide) h

/-! ## Identifiers -/

/-- An identifier that a slot takes, and that is read back from its text. -/
structure Slot.Takes (slot : Slot) (i : Ident) : Prop where
  spells : slot.Spells i.text.toList
  ofText : Ident.ofText i.text = i

theorem Slot.Spells.text_ofText {slot : Slot} {text : String} (h : slot.Spells text.toList) :
    (Ident.ofText text).text = text := by
  have hsigil : Mark.ofChar? '$' = none := by decide
  apply String.toList_inj.1
  generalize hw : text.toList = w at h
  cases h with
  | plain =>
    have hmark : Mark.ofText text = .none := by simp [Mark.ofText, hw, hsigil]
    simp [Ident.text, Ident.ofText, hmark, Mark.text, hw, hsigil]
  | @marked m c cs hm =>
    have hmark : Mark.ofText text = (Mark.ofChar? m).getD .none := by simp [Mark.ofText, hw]
    rcases Slot.eq_of_allowsMark hm with rfl | rfl | rfl <;>
      simp [Ident.text, Ident.ofText, hmark, Mark.ofChar?, Mark.text, hw]

theorem Slot.Spells.takes {slot : Slot} {text : String} (h : slot.Spells text.toList) :
    slot.Takes (Ident.ofText text) := by
  have htext := h.text_ofText
  exact ⟨by rwa [htext], by rw [htext]⟩

/-- Only the marks of a slot matter. -/
theorem Slot.Spells.congr {slot slot' : Slot} {w : List Char} (h : slot.Spells w)
    (hmarks : ∀ m, slot.allowsMark m = slot'.allowsMark m) : slot'.Spells w := by
  cases h with
  | plain hc hcs => exact .plain hc hcs
  | marked hm hc hcs => exact .marked (hmarks _ ▸ hm) hc hcs

theorem Slot.allowsMark_of_afterComma? {slot next : Slot} (h : slot.afterComma? = some next) (m : Char) :
    next.allowsMark m = slot.allowsMark m := by
  cases slot <;> cases h <;> rfl

/-- Without a mark an identifier fits anywhere. -/
theorem Slot.Spells.of_sigil {slot : Slot} (slot' : Slot) {w : List Char} (h : slot.Spells w)
    (hhead : w.head? = some '$') : slot'.Spells w := by
  cases h with
  | plain hc hcs => exact .plain hc hcs
  | marked hm =>
    cases hhead
    cases slot <;> cases hm

/-! ## Statements -/

/-- An operand that can stand on the right of an assignment. -/
def Operand.Writable : Operand → Prop
  | .literal value => ∃ n : ℕ, value = n ∧ n < 10 ^ maxDigits
  | .ident i => Slot.source.Takes i ∧ (i.mark = .none ∨ i.mark = .floor)

mutual

/-- A statement that can be written in a source. -/
def Stmt.Writable : Stmt → Prop
  | .declare names => names ≠ [] ∧ ∀ i ∈ names, Slot.declared.Takes i
  | .print names | .read names => names ≠ [] ∧ ∀ i ∈ names, Slot.passed.Takes i
  | .assign targets value => (targets ≠ [] ∧ ∀ i ∈ targets, (Slot.target true).Takes i) ∧ value.Writable
  | .branch subject body | .loop subject body => Slot.subject.Takes subject ∧ Stmt.AllWritable body
  | .define name parameters body =>
    Slot.function.Takes name ∧ (∀ i ∈ parameters, (Slot.parameter true).Takes i) ∧ Stmt.AllWritable body
  | .call name arguments => Slot.function.Takes name ∧ ∀ i ∈ arguments, (Slot.argument true).Takes i
  | .wrap _ | .bare _ | .invalid _ => False

/-- Statements that can be written in a source. -/
def Stmt.AllWritable : List Stmt → Prop
  | [] => True
  | s :: ss => s.Writable ∧ Stmt.AllWritable ss

end

/-! ## Tokens of a scan -/

/-- The modes that a mode turns into while characters are passed over. -/
def Mode.Near : Mode → Mode → Prop
  | .statement, m | .comment, m => m = .statement ∨ m = .comment
  | .before slot, m => m = .before slot ∨ m = .paren slot
  | .after slot, m => m = .after slot ∨ ∃ next, slot.afterComma? = some next ∧ m = .before next
  | .value, m => m = .value ∨ m = .quote
  | .unquote, m => m = .unquote ∨ m = .ending
  | m₀, m => m = m₀

/-- Tokens without an error that can follow in a mode. -/
def Lexed (m : Mode) (ts : List Token) : Prop :=
  (∃ pos cs, Laid m pos cs ts) ∧ ∀ t ∈ ts, t.kind ≠ .error

theorem Mode.Near.refl (m : Mode) : m.Near m := by
  cases m <;> simp [Mode.Near]

theorem Mode.Near.skip {m₀ m m' : Mode} {c : Char} (h : m₀.Near m) (hskip : m.Skips c m') : m₀.Near m' := by
  cases hskip with
  | blank | remark => exact h
  | hash | lineEnd | openQuote | closeQuote => cases m₀ <;> simp_all [Mode.Near]
  | comma => cases m₀ <;> simp_all [Mode.Near]
  | sigil hmiss =>
    cases m₀ with
    | after slot => cases slot <;> simp_all [Mode.Near, Slot.afterComma?, Slot.mayMiss]
    | _ => simp_all [Mode.Near]

namespace Lexed

variable {m : Mode} {slot : Slot} {t : Token} {ts is : List Token}

/-- The next token is read in a mode near by. -/
theorem step (h : Lexed m (t :: ts)) (hfinish : t.kind ≠ .finish) :
    ∃ m₁ m', m.Near m₁ ∧ m₁.Reads t.kind t.text.toList m' ∧ Lexed m' ts := by
  obtain ⟨⟨pos, cs, hlaid⟩, hok⟩ := h
  obtain ⟨u, hts, hu, -⟩ | ⟨u, us, m₁, m', pos', cs', hts, hnear, hreads, -, hrest⟩ :=
    hlaid.uncons (P := m.Near) hok (.refl m) fun _ _ _ => Mode.Near.skip
  · obtain ⟨rfl, rfl⟩ := List.cons.inj hts
    exact absurd hu hfinish
  · obtain ⟨rfl, rfl⟩ := List.cons.inj hts
    exact ⟨m₁, m', hnear, hreads, ⟨pos', cs', hrest⟩, fun v hv => hok v (List.mem_cons_of_mem _ hv)⟩

theorem keyword {w : Keyword} (h : Lexed m (t :: ts)) (ht : t.kind = .keyword w) :
    Lexed (.before (Scanner.slotAfter w)) ts := by
  obtain ⟨m₁, m', -, hreads, hrest⟩ := h.step (by simp [ht])
  rw [ht] at hreads
  cases hreads with
  | keyword => exact hrest

/-- A semicolon and a brace end a statement or open a block. -/
theorem closed (h : Lexed m (t :: ts))
    (ht : t.kind = .semicolon ∨ t.kind = .openBrace ∨ t.kind = .closeBrace) : Lexed .statement ts := by
  obtain ⟨m₁, m', -, hreads, hrest⟩ := h.step (by rcases ht with ht | ht | ht <;> simp [ht])
  generalize t.text.toList = w at hreads
  rcases ht with ht | ht | ht <;> rw [ht] at hreads <;> cases hreads <;> exact hrest

theorem equals (h : Lexed m (t :: ts)) (ht : t.kind = .equals) : Lexed .value ts := by
  obtain ⟨m₁, m', -, hreads, hrest⟩ := h.step (by simp [ht])
  rw [ht] at hreads
  generalize t.text.toList = w at hreads
  cases hreads with
  | equals => exact hrest

/-- An identifier is read in the slot of a mode near by. -/
theorem ident (h : Lexed m (t :: ts)) (ht : t.kind = .ident) :
    ∃ m₁ c slot, m.Near m₁ ∧ m₁.slot? c = some slot ∧ t.text.toList.head? = some c ∧
      slot.Spells t.text.toList ∧ Lexed (.after slot) ts := by
  obtain ⟨m₁, m', hnear, hreads, hrest⟩ := h.step (by simp [ht])
  rw [ht] at hreads
  generalize t.text.toList = w at hreads ⊢
  cases hreads with
  | ident hm hw => exact ⟨m₁, _, _, hnear, hm, rfl, hw, hrest⟩

/-- At the start of a statement. -/
theorem lead (h : Lexed .statement (t :: ts)) (ht : t.kind = .ident) :
    ∃ callable, (Slot.target callable).Spells t.text.toList ∧
      (callable = true → t.text.toList.head? = some '$') ∧ Lexed (.after (.target callable)) ts := by
  obtain ⟨m₁, c, slot, rfl | rfl, hslot, hhead, hspells, hrest⟩ := h.ident ht
  · obtain rfl := Option.some.inj hslot
    refine ⟨c == '$', hspells, fun hc => ?_, hrest⟩
    rw [hhead, beq_iff_eq.1 hc]
  · cases hslot

theorem name (h : Lexed (.before slot) (t :: ts)) (ht : t.kind = .ident) :
    slot.Spells t.text.toList ∧ Lexed (.after slot) ts := by
  obtain ⟨m₁, c, slot', rfl | rfl, hslot, -, hspells, hrest⟩ := h.ident ht
  · obtain rfl := Option.some.inj hslot
    exact ⟨hspells, hrest⟩
  · cases hslot

/-- Behind another identifier, and so behind a comma. -/
theorem further (h : Lexed (.after slot) (t :: ts)) (ht : t.kind = .ident) :
    ∃ next, slot.afterComma? = some next ∧ slot.Spells t.text.toList ∧ Lexed (.after next) ts := by
  obtain ⟨m₁, c, slot', rfl | ⟨next, hnext, rfl⟩, hslot, -, hspells, hrest⟩ := h.ident ht
  · cases hslot
  · obtain rfl := Option.some.inj hslot
    exact ⟨next, hnext, hspells.congr (Slot.allowsMark_of_afterComma? hnext), hrest⟩

/-- All that follow. Behind the last one the slot is still that of the first or the one behind a comma. -/
theorem others (h : Lexed (.after slot) (is ++ ts)) (his : AllIdents is) :
    (∀ i ∈ names is, slot.Takes i) ∧
      ∃ last, (last = slot ∨ slot.afterComma? = some last) ∧ Lexed (.after last) ts := by
  induction is generalizing slot with
  | nil => exact ⟨by simp [names], slot, .inl rfl, h⟩
  | cons i is ih =>
    obtain ⟨hi, his⟩ := List.forall_mem_cons.1 his
    obtain ⟨next, hnext, hspells, hrest⟩ := h.further hi
    obtain ⟨htakes, last, hlast, hts⟩ := ih hrest his
    have hsame : next.afterComma? = some next := by cases slot <;> cases hnext <;> rfl
    have hmarks := Slot.allowsMark_of_afterComma? hnext
    refine ⟨List.forall_mem_cons.2 ⟨hspells.takes, fun j hj => ?_⟩, last, .inr ?_, hts⟩
    · exact ⟨(htakes j hj).spells.congr hmarks, (htakes j hj).ofText⟩
    · rcases hlast with rfl | hlast
      · exact hnext
      · rw [hsame] at hlast
        rwa [← hlast]

/-- A list of names that is not in parentheses has one. -/
theorem listed {e : Token} (h : Lexed (.before slot) (is ++ e :: ts)) (hslot : slot.mayMiss = false)
    (his : AllIdents is) (he : e.kind = .semicolon) :
    (names is ≠ [] ∧ ∀ i ∈ names is, slot.Takes i) ∧ Lexed .statement ts := by
  cases is with
  | nil =>
    obtain ⟨⟨pos, cs, hlaid⟩, hok⟩ := h
    obtain ⟨b, ts', hts, hb, -⟩ := hlaid.ident_next hok hslot
    obtain ⟨rfl, rfl⟩ := List.cons.inj hts
    rw [he] at hb
    cases hb
  | cons i is =>
    obtain ⟨hi, his⟩ := List.forall_mem_cons.1 his
    obtain ⟨hspells, hafter⟩ := h.name hi
    obtain ⟨htakes, last, -, hend⟩ := hafter.others his
    exact ⟨⟨by simp [names], List.forall_mem_cons.2 ⟨hspells.takes, htakes⟩⟩, hend.closed (.inl he)⟩

theorem openParen (h : Lexed (.after slot) (t :: ts)) (ht : t.kind = .openParen) :
    slot = .target true ∧ Lexed (.before (.argument true)) ts ∨
      slot = .function ∧ Lexed (.before (.parameter true)) ts := by
  obtain ⟨m₁, m', hnear, hreads, hrest⟩ := h.step (by simp [ht])
  rw [ht] at hreads
  generalize t.text.toList = w at hreads
  cases hreads with
  | openArguments =>
    rcases hnear with hm | ⟨_, -, hm⟩
    · obtain rfl := Mode.after.inj hm
      exact .inl ⟨rfl, hrest⟩
    · cases hm
  | openParameters =>
    rcases hnear with hm | ⟨_, -, hm⟩
    · obtain rfl := Mode.after.inj hm
      exact .inr ⟨rfl, hrest⟩
    · cases hm

theorem closeParen (h : Lexed m (t :: ts)) (ht : t.kind = .closeParen)
    (hm : m = .before slot ∨ m = .after slot) : Lexed (Scanner.afterParen slot) ts := by
  obtain ⟨m₁, m', hnear, hreads, hrest⟩ := h.step (by simp [ht])
  rw [ht] at hreads
  generalize t.text.toList = w at hreads
  cases hreads with
  | @closeParen _ slot' hslot =>
    rcases hm with rfl | rfl
    · rcases hnear with rfl | rfl <;> rcases hslot with hslot | ⟨hslot, -⟩ | ⟨hslot, -⟩ <;> cases hslot <;> exact hrest
    · rcases hnear with rfl | ⟨next, hnext, rfl⟩ <;>
        rcases hslot with hslot | ⟨hslot, -⟩ | ⟨hslot, hmiss⟩ <;> cases hslot
      · exact hrest
      · cases slot <;> cases hnext <;> cases hmiss

/-- A list of names in parentheses. -/
theorem enclosed {q : Token} (h : Lexed (.before slot) (is ++ q :: ts)) (his : AllIdents is)
    (hq : q.kind = .closeParen) : (∀ i ∈ names is, slot.Takes i) ∧ Lexed (Scanner.afterParen slot) ts := by
  cases is with
  | nil => exact ⟨by simp [names], h.closeParen hq (.inl rfl)⟩
  | cons i is =>
    obtain ⟨hi, his⟩ := List.forall_mem_cons.1 his
    obtain ⟨hspells, hafter⟩ := h.name hi
    obtain ⟨htakes, last, hlast, hend⟩ := hafter.others his
    refine ⟨List.forall_mem_cons.2 ⟨hspells.takes, htakes⟩, ?_⟩
    have hclosed := hend.closeParen hq (.inr rfl)
    rcases hlast with rfl | hlast
    · exact hclosed
    · cases slot <;> cases hlast <;> exact hclosed

theorem value {x : Operand} (h : Lexed .value (t :: ts)) (hx : Value t x) : x.Writable ∧ ∃ m, Lexed m ts := by
  cases hx with
  | number ht hn =>
    obtain ⟨_, m', -, -, hrest⟩ := h.step (by simp [ht])
    refine ⟨⟨decimal t.text, rfl, ?_⟩, m', hrest⟩
    calc decimal t.text < 10 ^ t.text.length := decimal_lt hn.digits
      _ ≤ 10 ^ maxDigits := Nat.pow_le_pow_right (by decide) hn.length_le
  | @character c _ ht =>
    obtain ⟨_, m', -, -, hrest⟩ := h.step (by simp [ht])
    refine ⟨⟨c.toNat, rfl, ?_⟩, m', hrest⟩
    have hc : c.toNat < 10 ^ 10 := by
      have hword : c.toNat < 2 ^ 32 := c.val.toNat_lt
      omega
    exact hc.trans_le (Nat.pow_le_pow_right (by decide) (by decide))
  | ident ht hsign =>
    obtain ⟨m₁, c, slot, rfl | rfl, hslot, -, hspells, hrest⟩ := h.ident ht
    · obtain rfl := Option.some.inj hslot
      exact ⟨⟨hspells.takes, Parse.mark_of_not_signed hsign⟩, _, hrest⟩
    · cases hslot

end Lexed

/-- **Statements that are derived from tokens of a scan can be written.** -/
theorem Grammar.Statements.writable {ts rest : List Token} {ss : List Stmt} (h : Statements ts ss)
    (hlexed : Lexed .statement (ts ++ rest)) : Stmt.AllWritable ss ∧ Lexed .statement rest := by
  -- along the derivation: each statement leaves the scanner between statements, where the next one begins
  refine @Statements.rec
    (fun ts s _ => ∀ rest, Lexed .statement (ts ++ rest) → s.Writable ∧ Lexed .statement rest)
    (fun ts ss _ => ∀ rest, Lexed .statement (ts ++ rest) → Stmt.AllWritable ss ∧ Lexed .statement rest)
    ?listing ?define ?control ?call ?assign ?nil ?cons ts ss h rest hlexed
  case listing =>
    intro k e is w make hk hw his he rest hlexed
    simp only [List.cons_append, List.append_assoc, List.nil_append] at hlexed
    have hnames := hlexed.keyword hk
    cases w <;> cases hw <;> exact hnames.listed rfl his he
  case define =>
    intro k i p q o c is body ss hk hi hp his hq ho _ hc ih rest hlexed
    simp only [List.cons_append, List.append_assoc, List.nil_append] at hlexed
    obtain ⟨hname, hparen⟩ := (hlexed.keyword hk).name hi
    obtain ⟨hslot, -⟩ | ⟨-, hparameters⟩ := hparen.openParen hp
    · cases hslot
    · obtain ⟨htakes, hbrace⟩ := hparameters.enclosed his hq
      obtain ⟨hbody, hend⟩ := ih _ (hbrace.closed (.inr (.inl ho)))
      exact ⟨⟨hname.takes, htakes, hbody⟩, hend.closed (.inr (.inr hc))⟩
  case control =>
    intro k i o c body ss w make hk hw hi ho _ hc ih rest hlexed
    simp only [List.cons_append, List.append_assoc, List.nil_append] at hlexed
    have hsubject := hlexed.keyword hk
    cases w <;> cases hw <;>
    · obtain ⟨hspells, hbrace⟩ := hsubject.name hi
      obtain ⟨hbody, hend⟩ := ih _ (hbrace.closed (.inr (.inl ho)))
      exact ⟨⟨hspells.takes, hbody⟩, hend.closed (.inr (.inr hc))⟩
  case call =>
    intro i p q e is hi hp his hq he rest hlexed
    simp only [List.cons_append, List.append_assoc, List.nil_append] at hlexed
    obtain ⟨callable, hspells, hplain, hparen⟩ := hlexed.lead hi
    obtain ⟨hslot, harguments⟩ | ⟨hslot, -⟩ := hparen.openParen hp
    · have hname := hspells.of_sigil .function (hplain (Slot.target.inj hslot))
      obtain ⟨htakes, hend⟩ := harguments.enclosed his hq
      exact ⟨⟨hname.takes, htakes⟩, hend.closed (.inl he)⟩
    · cases hslot
  case assign =>
    intro i a v e is x hi his ha hv he rest hlexed
    simp only [List.cons_append, List.append_assoc, List.nil_append] at hlexed
    obtain ⟨callable, hspells, -, hafter⟩ := hlexed.lead hi
    obtain ⟨hothers, last, -, hequals⟩ := hafter.others his
    obtain ⟨hvalue, m, hend⟩ := (hequals.equals ha).value hv
    have htarget (j : Ident) (hj : (Slot.target callable).Takes j) : (Slot.target true).Takes j :=
      ⟨hj.spells.congr fun _ => rfl, hj.ofText⟩
    refine ⟨⟨⟨by simp [names], List.forall_mem_cons.2 ⟨htarget _ hspells.takes, ?_⟩⟩, hvalue⟩, hend.closed (.inl he)⟩
    exact fun j hj => htarget j (hothers j hj)
  case nil => exact fun rest hlexed => ⟨trivial, hlexed⟩
  case cons =>
    intro ts us s ss _ _ hs hss rest hlexed
    rw [List.append_assoc] at hlexed
    obtain ⟨hfirst, hmiddle⟩ := hs _ hlexed
    obtain ⟨hothers, hend⟩ := hss _ hmiddle
    exact ⟨⟨hfirst, hothers⟩, hend⟩

/-- **The statements of a source that is parsed can be written.** -/
theorem parse_writable {source : String} {program : List Stmt} (h : parse source (scan source) = .ok program) :
    Stmt.AllWritable program := by
  obtain ⟨pre, ⟨post, hsplit⟩, hprogram⟩ := (parse_eq_ok_iff (wellFormed_of_parse h)).1 h
  have hlaid := scan_laid source
  cases hprogram with
  | @intro ts _ e hss he =>
    rw [← hsplit] at hlaid
    have hok := hlaid.ne_error (e := e) (by simp) he
    rw [List.append_assoc] at hlaid hok
    exact (hss.writable ⟨⟨0, _, hlaid⟩, hok⟩).1

/-! ## Targets -/

mutual

/-- No target of the statement has a floor. -/
def Stmt.Unfloored : Stmt → Prop
  | .assign targets _ => ∀ i ∈ targets, i.mark ≠ .floor
  | .branch _ body | .loop _ body | .define _ _ body => Stmt.AllUnfloored body
  | .wrap inner => inner.Unfloored
  | .declare _ | .print _ | .read _ | .call _ _ | .bare _ | .invalid _ => True

/-- No target of the statements has a floor. -/
def Stmt.AllUnfloored : List Stmt → Prop
  | [] => True
  | s :: ss => s.Unfloored ∧ Stmt.AllUnfloored ss

end

/-- The mark of an identifier is one that its slot allows. -/
theorem Slot.Takes.mark_ne_floor {slot : Slot} {i : Ident} (h : slot.Takes i) (hslot : slot.allowsMark '_' = false) :
    i.mark ≠ .floor := by
  intro hmark
  have htext : i.text.toList = '_' :: i.name.toList := by simp [Ident.text, hmark, Mark.text]
  have hspells := h.spells
  rw [htext] at hspells
  generalize i.name.toList = w at hspells
  cases hspells with
  | marked hm =>
    rw [hslot] at hm
    cases hm

mutual

theorem Stmt.Writable.unfloored : ∀ {s : Stmt}, s.Writable → s.Unfloored
  | .assign _ _, h => fun i hi => (h.1.2 i hi).mark_ne_floor rfl
  | .branch _ _, h | .loop _ _, h => Stmt.AllWritable.unfloored h.2
  | .define _ _ _, h => Stmt.AllWritable.unfloored h.2.2
  | .declare _, _ | .print _, _ | .read _, _ | .call _ _, _ | .bare _, _ | .invalid _, _ => trivial
  | .wrap _, h => h.elim

theorem Stmt.AllWritable.unfloored : ∀ {ss : List Stmt}, Stmt.AllWritable ss → Stmt.AllUnfloored ss
  | [], _ => trivial
  | _ :: _, h => ⟨Stmt.Writable.unfloored h.1, Stmt.AllWritable.unfloored h.2⟩

end

/-- **The statements of a source that is parsed have no target with a floor.** -/
theorem parse_unfloored {source : String} {program : List Stmt} (h : parse source (scan source) = .ok program) :
    Stmt.AllUnfloored program :=
  (parse_writable h).unfloored

end TapeCompiler
