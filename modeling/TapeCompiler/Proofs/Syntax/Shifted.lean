import TapeCompiler.Proofs.Syntax.Agreement

/-!
# Sources one after another

A scan comes to the end of its source only between two statements or in a comment. Whatever is added on a new
line is then scanned as it would be alone, and its tokens stand further on.

* `Token.shift`: a token that stands further on.
* `Scanner.scanFrom_shift`: **a scan that starts further on makes the same tokens, further on.**
* `Scanner.exists_resume`: a scan that comes to its end has nothing pending there.
* `scan_joined`: **the tokens of two sources on different lines.**
* `Grammar.Statements.congr`: **what tokens derive does not depend on where they stand.**
* `parse_joined`: **if both parse, so do they together, and the statements follow one another.**
-/

namespace TapeCompiler

/-- The token, `k` characters further on. -/
def Token.shift (k : ℕ) (t : Token) : Token :=
  { t with offset := t.offset + k }

/-- The scanner, `k` characters further on. -/
def Scanner.shift (k : ℕ) (s : Scanner) : Scanner :=
  { s with start := s.start + k }

/-- What a symbol brings, `k` characters further on. -/
def Advance.shift (k : ℕ) (a : Advance) : Advance :=
  ⟨a.tokens.map (Token.shift k), a.next.map (Scanner.shift k)⟩

/-! ## Scans further on -/

namespace Advance

variable (k : ℕ) (m : Mode) (pos : ℕ) (c : Char) (sym : Option Char)

theorem shift_into : (into m pos).shift k = into m (pos + k) := rfl

theorem shift_opening : (opening m pos c).shift k = opening m (pos + k) c := rfl

theorem shift_single (kind : TokenKind) : (single kind c m pos).shift k = single kind c m (pos + k) := by
  simp [single, shift, Token.shift, Scanner.shift, Nat.add_right_comm]

theorem shift_fault (cause : ScanFault) (lexeme : String) :
    (fault cause lexeme pos).shift k = fault cause lexeme (pos + k) := by
  simp [fault, shift, Token.shift]

theorem shift_wrong (cause : ScanFault) : (wrong cause pos sym).shift k = wrong cause (pos + k) sym := by
  cases sym with
  | none => exact shift_fault k pos cause ""
  | some c =>
    rw [wrong, wrong, shift_fault, Nat.add_right_comm]

theorem shift_withToken (kind : TokenKind) (text : String) (start : ℕ) (a : Advance) :
    (withToken ⟨kind, text, start⟩ a).shift k = withToken ⟨kind, text, (start + k : ℕ)⟩ (a.shift k) := by
  simp [withToken, shift, Token.shift]

end Advance

namespace Scanner

open Advance

variable (k : ℕ) (slot : Slot) (pos : ℕ) (sym : Option Char)

theorem shift_atStatement : (atStatement pos sym).shift k = atStatement (pos + k) sym := by
  cases sym with
  | none => simp [atStatement, Advance.shift, Token.shift]
  | some c =>
    simp only [atStatement, apply_ite (Advance.shift k), shift_into, shift_single, shift_opening, shift_wrong,
      Nat.add_right_comm pos 1 k]

theorem shift_atComment : (atComment pos sym).shift k = atComment (pos + k) sym := by
  cases sym with
  | none => exact shift_atStatement k pos none
  | some c => rw [atComment, atComment, shift_into, Nat.add_right_comm]

theorem shift_atEnding : (atEnding pos sym).shift k = atEnding (pos + k) sym := by
  cases sym with
  | none => exact shift_fault k pos _ ""
  | some c =>
    simp only [atEnding, apply_ite (Advance.shift k), shift_into, shift_single, shift_fault,
      Nat.add_right_comm pos 1 k]

theorem shift_atBody : (atBody pos sym).shift k = atBody (pos + k) sym := by
  cases sym with
  | none => exact shift_wrong k pos none _
  | some c =>
    simp only [atBody, apply_ite (Advance.shift k), shift_into, shift_single, shift_wrong,
      Nat.add_right_comm pos 1 k]

theorem shift_atParen : (atParen slot pos sym).shift k = atParen slot (pos + k) sym := by
  cases sym with
  | none => exact shift_wrong k pos none _
  | some c =>
    simp only [atParen, apply_ite (Advance.shift k), shift_into, shift_single, shift_wrong,
      Nat.add_right_comm pos 1 k]

theorem shift_atFollower : (atFollower slot pos sym).shift k = atFollower slot (pos + k) sym := by
  cases slot <;>
    simp only [atFollower, apply_ite (Advance.shift k), shift_single, shift_wrong, shift_atEnding, shift_atParen]

theorem shift_atAfter : (atAfter slot pos sym).shift k = atAfter slot (pos + k) sym := by
  cases sym with
  | none => exact shift_atFollower k slot pos none
  | some c =>
    simp only [atAfter, apply_ite (Advance.shift k), shift_into, Nat.add_right_comm pos 1 k]
    congr 1
    split
    · rw [shift_into, Nat.add_right_comm]
    · exact shift_atFollower k slot pos (some c)

theorem shift_atMissing (lexeme : String) :
    (atMissing slot lexeme pos sym).shift k = atMissing slot lexeme (pos + k) sym := by
  unfold atMissing
  split <;> first | exact shift_fault k pos _ lexeme | exact shift_atParen k _ pos sym

theorem shift_atBefore : (atBefore slot pos sym).shift k = atBefore slot (pos + k) sym := by
  cases sym with
  | none => exact shift_atMissing k slot pos none ""
  | some c =>
    simp only [atBefore, apply_ite (Advance.shift k), shift_into, shift_opening, shift_atMissing,
      Nat.add_right_comm pos 1 k]

theorem shift_atValue : (atValue pos sym).shift k = atValue (pos + k) sym := by
  cases sym with
  | none => exact shift_atBefore k .source pos none
  | some c =>
    simp only [atValue, apply_ite (Advance.shift k), shift_into, shift_opening, shift_atBefore,
      Nat.add_right_comm pos 1 k]

theorem shift_atQuote : (atQuote pos sym).shift k = atQuote (pos + k) sym := by
  cases sym with
  | none => exact shift_fault k pos _ ""
  | some c => simp only [atQuote, apply_ite (Advance.shift k), shift_single, shift_wrong]

theorem shift_atUnquote : (atUnquote pos sym).shift k = atUnquote (pos + k) sym := by
  simp only [atUnquote, apply_ite (Advance.shift k), shift_into, shift_wrong, Nat.add_right_comm pos 1 k]

variable (s : Scanner)

theorem shift_atWordEnd : (s.atWordEnd pos sym).shift k = (s.shift k).atWordEnd (pos + k) sym := by
  unfold atWordEnd
  simp only [Scanner.shift]
  split
  · exact shift_fault k pos _ _
  · rw [shift_withToken, shift_atBefore]

theorem shift_grow (m : Mode) (c : Char) : (s.grow m c).shift k = (s.shift k).grow m c := rfl

/-- A symbol that stands further on brings the same, further on. -/
theorem shift_step : (s.step pos sym).shift k = (s.shift k).step (pos + k) sym := by
  unfold step
  have hmode : (s.shift k).mode = s.mode := rfl
  have hlexeme : (s.shift k).lexeme = s.lexeme := rfl
  have hstart : (s.shift k).start = s.start + k := rfl
  rw [hmode, hlexeme, hstart]
  cases s.mode <;> simp only
  case statement => exact shift_atStatement k pos sym
  case comment => exact shift_atComment k pos sym
  case word => cases sym <;> simp only [apply_ite (Advance.shift k), shift_grow, shift_atWordEnd]
  case before slot => exact shift_atBefore k slot pos sym
  case mark slot => simp only [apply_ite (Advance.shift k), shift_grow, shift_atMissing]
  case sigil slot => cases sym <;> simp only [apply_ite (Advance.shift k), shift_grow, shift_atMissing]
  case name slot =>
    cases sym <;> simp only [apply_ite (Advance.shift k), shift_grow, shift_withToken, shift_atAfter]
  case after slot => exact shift_atAfter k slot pos sym
  case paren slot => exact shift_atParen k slot pos sym
  case body => exact shift_atBody k pos sym
  case value => exact shift_atValue k pos sym
  case digits => cases sym <;> simp only [apply_ite (Advance.shift k), shift_grow, shift_withToken, shift_atEnding]
  case quote => exact shift_atQuote k pos sym
  case unquote => exact shift_atUnquote k pos sym
  case ending => exact shift_atEnding k pos sym

/-- **A scan that starts further on makes the same tokens, further on.** -/
theorem scanFrom_shift (cs : List Char) :
    (s.shift k).scanFrom (pos + k) cs = (s.scanFrom pos cs).map (Token.shift k) := by
  induction cs generalizing s pos with
  | nil =>
    rw [scanFrom, scanFrom, ← shift_step]
    rfl
  | cons c cs ih =>
    rw [scanFrom_cons, scanFrom_cons, ← shift_step]
    simp only [onward, Advance.shift, List.map_append]
    congr 1
    cases (s.step pos (some c)).next with
    | none => rfl
    | some s' =>
      have hrest := ih (pos + 1) s'
      rwa [Nat.add_right_comm] at hrest

end Scanner

/-! ## The end of a source -/

/-- Nothing tells the end of the source. -/
def Advance.Unfinished (a : Advance) : Prop :=
  ∀ t ∈ a.tokens, t.kind ≠ .finish

namespace Advance

variable {m : Mode} {pos : ℕ} {c : Char} {sym : Option Char}

theorem unfinished_into : (into m pos).Unfinished := by
  simp [Unfinished, into]

theorem unfinished_opening : (opening m pos c).Unfinished := by
  simp [Unfinished, opening]

theorem unfinished_single {kind : TokenKind} (hkind : kind ≠ .finish := by decide) :
    (single kind c m pos).Unfinished := by
  simpa [Unfinished, single] using hkind

theorem unfinished_fault {cause : ScanFault} {lexeme : String} : (fault cause lexeme pos).Unfinished := by
  simp [Unfinished, fault]

theorem unfinished_wrong {cause : ScanFault} : (wrong cause pos sym).Unfinished := by
  cases sym <;> exact unfinished_fault

theorem Unfinished.withToken {a : Advance} {t : Token} (h : a.Unfinished) (ht : t.kind ≠ .finish) :
    (withToken t a).Unfinished :=
  List.forall_mem_cons.2 ⟨ht, h⟩

end Advance

namespace Scanner

open Advance

variable {slot : Slot} {pos : ℕ} {sym : Option Char} {s : Scanner}

theorem unfinished_atStatement (c : Char) : (atStatement pos (some c)).Unfinished := by
  simp only [atStatement]
  split_ifs
  · exact unfinished_into
  · exact unfinished_single
  · exact unfinished_into
  · exact unfinished_opening
  · exact unfinished_opening
  · exact unfinished_opening
  · exact unfinished_wrong

theorem unfinished_atEnding : (atEnding pos sym).Unfinished := by
  unfold atEnding
  split
  · exact unfinished_fault
  · split_ifs
    · exact unfinished_into
    · exact unfinished_single
    · exact unfinished_fault

theorem unfinished_atBody : (atBody pos sym).Unfinished := by
  unfold atBody
  split
  · exact unfinished_wrong
  · split_ifs
    · exact unfinished_into
    · exact unfinished_single
    · exact unfinished_wrong

theorem unfinished_atParen : (atParen slot pos sym).Unfinished := by
  unfold atParen
  split
  · exact unfinished_wrong
  · split_ifs
    · exact unfinished_into
    · exact unfinished_single
    · exact unfinished_wrong

theorem unfinished_atFollower : (atFollower slot pos sym).Unfinished := by
  unfold atFollower
  split
  · exact unfinished_atEnding
  · exact unfinished_atEnding
  · exact unfinished_atEnding
  · split_ifs
    · exact unfinished_single
    · exact unfinished_single
    · exact unfinished_wrong
  · split_ifs
    · exact unfinished_single
    · exact unfinished_wrong
  · split_ifs
    · exact unfinished_single
    · exact unfinished_wrong
  · exact unfinished_atParen
  · exact unfinished_atParen

theorem unfinished_atAfter : (atAfter slot pos sym).Unfinished := by
  unfold atAfter
  split
  · exact unfinished_atFollower
  · split
    · exact unfinished_into
    · split
      · exact unfinished_into
      · exact unfinished_atFollower

theorem unfinished_atMissing {lexeme : String} : (atMissing slot lexeme pos sym).Unfinished := by
  unfold atMissing
  split <;> first | exact unfinished_fault | exact unfinished_atParen

theorem unfinished_atBefore : (atBefore slot pos sym).Unfinished := by
  unfold atBefore
  split
  · exact unfinished_atMissing
  · split_ifs
    · exact unfinished_into
    · exact unfinished_opening
    · exact unfinished_opening
    · exact unfinished_atMissing

theorem unfinished_atValue : (atValue pos sym).Unfinished := by
  unfold atValue
  split
  · exact unfinished_atBefore
  · split_ifs
    · exact unfinished_into
    · exact unfinished_opening
    · exact unfinished_into
    · exact unfinished_atBefore

theorem unfinished_atQuote : (atQuote pos sym).Unfinished := by
  unfold atQuote
  split
  · exact unfinished_fault
  · split_ifs
    · exact unfinished_wrong
    · exact unfinished_single

theorem unfinished_atUnquote : (atUnquote pos sym).Unfinished := by
  unfold atUnquote
  split_ifs
  · exact unfinished_into
  · exact unfinished_wrong

theorem unfinished_atWordEnd : (s.atWordEnd pos sym).Unfinished := by
  unfold atWordEnd
  split
  · exact unfinished_fault
  · exact .withToken unfinished_atBefore nofun

theorem unfinished_grow {m : Mode} {c : Char} : (s.grow m c).Unfinished := by
  simp [Unfinished, grow]

/-- Nothing is pending where the end of the source may come. -/
def AtRest (s : Scanner) : Prop :=
  s.mode = .statement ∨ s.mode = .comment

/-- Only at rest, and only where the source ends, a scan comes to its end. -/
theorem unfinished_step (h : sym = none → ¬ s.AtRest) : (s.step pos sym).Unfinished := by
  unfold AtRest at h
  unfold step
  cases hmode : s.mode <;> rw [hmode] at h <;> simp only
  case statement =>
    cases sym with
    | none => simp at h
    | some c => exact unfinished_atStatement c
  case comment =>
    cases sym with
    | none => simp at h
    | some c => exact unfinished_into
  case word =>
    split
    · split_ifs
      · exact unfinished_grow
      · exact unfinished_atWordEnd
    · exact unfinished_atWordEnd
  case before => exact unfinished_atBefore
  case mark =>
    split_ifs
    · exact unfinished_grow
    · exact unfinished_atMissing
  case sigil =>
    split
    · split_ifs
      · exact unfinished_grow
      · exact unfinished_atMissing
    · exact unfinished_atMissing
  case name =>
    split
    · split_ifs
      · exact unfinished_grow
      · exact .withToken unfinished_atAfter nofun
    · exact .withToken unfinished_atAfter nofun
  case after => exact unfinished_atAfter
  case paren => exact unfinished_atParen
  case body => exact unfinished_atBody
  case value => exact unfinished_atValue
  case digits =>
    split
    · split_ifs
      · exact unfinished_grow
      · exact .withToken unfinished_atEnding nofun
    · exact .withToken unfinished_atEnding nofun
  case quote => exact unfinished_atQuote
  case unquote => exact unfinished_atUnquote
  case ending => exact unfinished_atEnding

/-- A character never tells the end of the source. -/
theorem unfinished_step_some (c : Char) : (s.step pos (some c)).Unfinished :=
  unfinished_step nofun

theorem AtRest.step_none (h : s.AtRest) : (s.step pos none).tokens = [⟨.finish, "", pos⟩] := by
  obtain h | h := h <;> rw [step, h] <;> rfl

/-- At rest a new line begins like a source. -/
theorem AtRest.scanFrom_newline (h : s.AtRest) (cs : List Char) :
    s.scanFrom pos ('\n' :: cs) = (initial.shift (pos + 1)).scanFrom (0 + (pos + 1)) cs := by
  have hstep : s.step pos (some '\n') = into .statement (pos + 1) := by
    obtain h | h := h <;> rw [step, h] <;> rfl
  rw [scanFrom_cons, hstep, Nat.zero_add]
  simp [onward, into, initial, Scanner.shift]

/-- A scan that comes to its end is at rest there, and goes on from there if the source does. -/
theorem exists_resume (cs : List Char) {t : Token} (ht : t ∈ s.scanFrom pos cs) (hfinish : t.kind = .finish) :
    ∃ ts, ∃ s' : Scanner, s'.AtRest ∧ s.scanFrom pos cs = ts ++ [⟨.finish, "", (pos + cs.length : ℕ)⟩] ∧
      ∀ ds, s.scanFrom pos (cs ++ ds) = ts ++ s'.scanFrom (pos + cs.length) ds := by
  induction cs generalizing s pos with
  | nil =>
    have hrest : s.AtRest := by
      by_contra hpending
      exact unfinished_step (fun _ => hpending) t ht hfinish
    exact ⟨[], s, hrest, hrest.step_none, fun _ => rfl⟩
  | cons c cs ih =>
    -- a step over a character emits no end, so the end comes from the characters behind it
    have hfirst : (s.step pos (some c)).Unfinished := unfinished_step_some c
    simp only [List.cons_append, scanFrom_cons, onward] at ht ⊢
    cases hnext : (s.step pos (some c)).next with
    | none =>
      rw [hnext, List.append_nil] at ht
      exact absurd hfinish (hfirst t ht)
    | some s₁ =>
      rw [hnext, List.mem_append] at ht
      obtain ⟨ts, s', hrest, hscan, hgoes⟩ := ih (ht.resolve_left fun h => hfirst t h hfinish)
      have hlength : pos + 1 + cs.length = pos + (c :: cs).length := by
        rw [List.length_cons]
        omega
      rw [hlength] at hscan hgoes
      refine ⟨(s.step pos (some c)).tokens ++ ts, s', hrest, ?_, fun ds => ?_⟩
      · simp only [hscan, List.append_assoc]
      · simp only [hgoes ds, List.append_assoc]

end Scanner

/-- **Tokens of two sources on different lines.** If the scan of the first comes to its end, the tokens of the
second follow as they are, only further on. -/
theorem scan_joined {first : String} (hend : (scan first).getLast?.map Token.kind = some .finish) (second : String) :
    scan (first ++ "\n" ++ second) =
      (scan first).dropLast ++ (scan second).map (Token.shift (first.length + 1)) := by
  obtain ⟨t, hlast, hfinish⟩ := Option.map_eq_some_iff.1 hend
  obtain ⟨ts, s, hrest, hscan, hgoes⟩ := Scanner.exists_resume first.toList (List.mem_of_getLast? hlast) hfinish
  have hsource : (first ++ "\n" ++ second).toList = first.toList ++ '\n' :: second.toList := by simp
  rw [Nat.zero_add, String.length_toList] at hgoes
  rw [scan, hsource, hgoes, hrest.scanFrom_newline, Scanner.scanFrom_shift, scan, hscan, List.dropLast_concat]
  rfl

/-! ## Statements further on -/

/-- What the grammar sees of a token: everything but its place. -/
def Token.content (t : Token) : TokenKind × String :=
  (t.kind, t.text)

theorem Token.kind_of_content {t u : Token} (h : t.content = u.content) : t.kind = u.kind :=
  congrArg Prod.fst h

theorem Token.text_of_content {t u : Token} (h : t.content = u.content) : t.text = u.text :=
  congrArg Prod.snd h

theorem map_content_shift (k : ℕ) (ts : List Token) :
    (ts.map (Token.shift k)).map Token.content = ts.map Token.content := by
  rw [List.map_map]
  rfl

namespace Grammar

theorem AllIdents.congr {ts us : List Token} (h : AllIdents ts) (hsame : us.map Token.content = ts.map Token.content) :
    AllIdents us := by
  intro u hu
  have hmem : u.content ∈ ts.map Token.content := hsame ▸ List.mem_map_of_mem hu
  obtain ⟨t, ht, hcontent⟩ := List.mem_map.1 hmem
  rw [← Token.kind_of_content hcontent]
  exact h t ht

theorem names_congr {ts us : List Token} (hsame : us.map Token.content = ts.map Token.content) :
    names us = names ts := by
  have hnames (ts : List Token) : names ts = (ts.map Token.content).map fun x => Ident.ofText x.2 := by
    rw [List.map_map]
    rfl
  rw [hnames, hnames, hsame]

theorem Value.congr {t u : Token} {x : Operand} (h : Value t x) (hsame : u.content = t.content) : Value u x := by
  have hkind := Token.kind_of_content hsame
  have htext := Token.text_of_content hsame
  cases h with
  | number ht hn => exact htext ▸ .number (hkind.trans ht) (htext ▸ hn)
  | character ht hc => exact .character (hkind.trans ht) (htext ▸ hc)
  | ident ht hsign =>
    have hsigned : ¬ u.Signed := by
      unfold Token.Signed
      rw [htext]
      exact hsign
    exact htext ▸ .ident (hkind.trans ht) hsigned

/-- **What tokens derive does not depend on where they stand.** -/
theorem Statements.congr {ts us : List Token} {ss : List Stmt} (h : Statements ts ss)
    (hsame : us.map Token.content = ts.map Token.content) : Statements us ss := by
  have hkind {t u : Token} {kind : TokenKind} (ht : t.kind = kind) (hu : u.content = t.content) : u.kind = kind :=
    (Token.kind_of_content hu).trans ht
  -- the other tokens are cut into the same parts
  refine @Statements.rec (fun ts s _ => ∀ us, us.map Token.content = ts.map Token.content → Statement us s)
    (fun ts ss _ => ∀ us, us.map Token.content = ts.map Token.content → Statements us ss)
    ?listing ?define ?control ?call ?assign ?nil ?cons ts ss h us hsame
  case listing =>
    intro t e is w make ht hw his he us hsame
    simp only [List.map_cons, List.map_append, List.map_nil, List.map_eq_cons_iff, List.map_eq_append_iff,
      List.map_eq_nil_iff] at hsame
    obtain ⟨t', _, rfl, ht', is', _, rfl, his', e', _, rfl, he', rfl⟩ := hsame
    rw [← names_congr his']
    exact .listing (hkind ht ht') hw (his.congr his') (hkind he he')
  case define =>
    intro t i p q o c is body ss ht hi hp his hq ho _ hc hbody us hsame
    simp only [List.map_cons, List.map_append, List.map_nil, List.map_eq_cons_iff, List.map_eq_append_iff,
      List.map_eq_nil_iff] at hsame
    obtain ⟨t', _, rfl, ht', i', _, rfl, hi', p', _, rfl, hp', is', _, rfl, his', q', _, rfl, hq', o', _, rfl, ho',
      body', _, rfl, hbody', c', _, rfl, hc', rfl⟩ := hsame
    rw [← names_congr his', ← Token.text_of_content hi']
    exact .define (hkind ht ht') (hkind hi hi') (hkind hp hp') (his.congr his') (hkind hq hq') (hkind ho ho')
      (hbody body' hbody') (hkind hc hc')
  case control =>
    intro t i o c body ss w make ht hw hi ho _ hc hbody us hsame
    simp only [List.map_cons, List.map_append, List.map_nil, List.map_eq_cons_iff, List.map_eq_append_iff,
      List.map_eq_nil_iff] at hsame
    obtain ⟨t', _, rfl, ht', i', _, rfl, hi', o', _, rfl, ho', body', _, rfl, hbody', c', _, rfl, hc', rfl⟩ := hsame
    rw [← Token.text_of_content hi']
    exact .control (hkind ht ht') hw (hkind hi hi') (hkind ho ho') (hbody body' hbody') (hkind hc hc')
  case call =>
    intro i p q e is hi hp his hq he us hsame
    simp only [List.map_cons, List.map_append, List.map_nil, List.map_eq_cons_iff, List.map_eq_append_iff,
      List.map_eq_nil_iff] at hsame
    obtain ⟨i', _, rfl, hi', p', _, rfl, hp', is', _, rfl, his', q', _, rfl, hq', e', _, rfl, he', rfl⟩ := hsame
    rw [← names_congr his', ← Token.text_of_content hi']
    exact .call (hkind hi hi') (hkind hp hp') (his.congr his') (hkind hq hq') (hkind he he')
  case assign =>
    intro i a v e is x hi his ha hv he us hsame
    simp only [List.map_cons, List.map_append, List.map_nil, List.map_eq_cons_iff, List.map_eq_append_iff,
      List.map_eq_nil_iff] at hsame
    obtain ⟨i', _, rfl, hi', is', _, rfl, his', a', _, rfl, ha', v', _, rfl, hv', e', _, rfl, he', rfl⟩ := hsame
    have htargets : names (i' :: is') = names (i :: is) := names_congr (by rw [List.map_cons, List.map_cons, hi', his'])
    rw [← htargets]
    exact .assign (hkind hi hi') (his.congr his') (hkind ha ha') (hv.congr hv') (hkind he he')
  case nil =>
    intro us hsame
    rw [List.map_nil, List.map_eq_nil_iff] at hsame
    rw [hsame]
    exact .nil
  case cons =>
    intro ts ts' s ss _ _ hs hss us hsame
    rw [List.map_append, List.map_eq_append_iff] at hsame
    obtain ⟨vs, vs', rfl, hvs, hvs'⟩ := hsame
    exact .cons (hs vs hvs) (hss vs' hvs')

theorem Statements.append {ts us : List Token} {ss rs : List Stmt} (h : Statements ts ss) (h' : Statements us rs) :
    Statements (ts ++ us) (ss ++ rs) := by
  induction ss generalizing ts with
  | nil =>
    cases h
    exact h'
  | cons s ss ih =>
    cases h with
    | cons hs hss =>
      rw [List.append_assoc]
      exact .cons hs (ih hss)

end Grammar

/-- Behind the end of the source there is no token. -/
theorem Flows.eq_nil_of_finish {p : Place} {ts us : List Token} {e : Token} (h : Flows p (ts ++ e :: us))
    (he : e.kind = .finish) : us = [] := by
  induction ts generalizing p with
  | nil =>
    cases h with
    | finish | error => rfl
    | cons _ hfinish => exact absurd he hfinish
  | cons t ts ih =>
    generalize hsplit : t :: ts ++ e :: us = all at h
    cases h with
    | finish | error => simp at hsplit
    | cons _ _ _ hts =>
      obtain ⟨-, rfl⟩ := List.cons.inj hsplit
      exact ih hts

/-- All tokens of a source that is parsed derive its program. -/
theorem scan_of_parse {source : String} {program : List Stmt} (h : parse source (scan source) = .ok program) :
    ∃ ts e, scan source = ts ++ [e] ∧ e.kind = .finish ∧ Grammar.Statements ts program := by
  obtain ⟨pre, ⟨post, hsplit⟩, hprogram⟩ := (parse_eq_ok_iff (wellFormed_of_parse h)).1 h
  cases hprogram with
  | @intro ts _ e hss he =>
    have hflows := scan_flows source
    rw [← hsplit, List.append_assoc] at hflows
    obtain rfl : post = [] := hflows.eq_nil_of_finish he
    exact ⟨ts, e, by rw [← hsplit, List.append_nil], he, hss⟩

/-- **If two sources parse, so do they together, and the statements follow one another.** -/
theorem parse_joined {first second : String} {program program' : List Stmt}
    (h : parse first (scan first) = .ok program) (h' : parse second (scan second) = .ok program') :
    parse (first ++ "\n" ++ second) (scan (first ++ "\n" ++ second)) = .ok (program ++ program') := by
  obtain ⟨ts, e, hscan, he, hss⟩ := scan_of_parse h
  obtain ⟨us, e', hscan', he', hss'⟩ := scan_of_parse h'
  have hend : (scan first).getLast?.map Token.kind = some .finish := by simp [hscan, he]
  have hjoined : scan (first ++ "\n" ++ second) =
      ts ++ us.map (Token.shift (first.length + 1)) ++ [e'.shift (first.length + 1)] ++ [] := by
    rw [scan_joined hend, hscan, hscan', List.dropLast_concat]
    simp
  rw [hjoined]
  exact parse_of_program (.intro (hss.append (hss'.congr (map_content_shift _ us))) he')

end TapeCompiler
