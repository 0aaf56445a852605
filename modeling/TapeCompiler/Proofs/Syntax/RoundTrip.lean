import Mathlib.Tactic.Common
import TapeCompiler.Program.Render
import TapeCompiler.Proofs.Syntax.Rescan
import TapeCompiler.Proofs.Syntax.Writable

/-!
# Reading back what is rendered

A rendered program has a semicolon behind every statement, also behind the brace of a block, where a source has
none. Without those it is a source of the same program.

* `mendBlocks`: a text without the semicolons behind closing braces.
* `Lays`: characters that lead from one mode to another, whatever follows them.
* `Stmt.written`: a statement as it stands in a source.
* `Stmt.Writable.lays`: **what is written for a statement derives the statement**, by induction on it.
* `parse_render`: **the rendered program of a source is parsed back**, and no other program is rendered the same.
-/

namespace TapeCompiler

open Grammar

/-! ## Semicolons behind blocks -/

/-- Drops each semicolon that stands right behind a closing brace. -/
def dropBlockEnds : List Char → List Char
  | '}' :: ';' :: cs => '}' :: dropBlockEnds cs
  | c :: cs => c :: dropBlockEnds cs
  | [] => []

/-- The text with `}` for each `};`. -/
def mendBlocks (text : String) : String :=
  String.ofList (dropBlockEnds text.toList)

theorem dropBlockEnds_cons {c : Char} (hc : c ≠ '}') (cs : List Char) :
    dropBlockEnds (c :: cs) = c :: dropBlockEnds cs := by
  rw [dropBlockEnds]
  intro _ h
  exact absurd h hc

theorem dropBlockEnds_append {cs : List Char} (hcs : '}' ∉ cs) (ds : List Char) :
    dropBlockEnds (cs ++ ds) = cs ++ dropBlockEnds ds := by
  induction cs with
  | nil => rfl
  | cons c cs ih =>
    obtain ⟨hc, hcs⟩ := List.ne_and_not_mem_of_not_mem_cons hcs
    rw [List.cons_append, dropBlockEnds_cons hc.symm, ih hcs, List.cons_append]

theorem Slot.Spells.braceless {slot : Slot} {w : List Char} (h : slot.Spells w) : '}' ∉ w := by
  have hname (cs : List Char) (hcs : ∀ d ∈ cs, isNameChar d = true) : '}' ∉ cs :=
    fun hmem => absurd (hcs _ hmem) (by decide)
  have hletter {c : Char} (hc : isLetter c = true) : '}' ≠ c := by
    rintro rfl
    exact absurd hc (by decide)
  cases h with
  | plain hc hcs => simp [hletter hc, hname _ hcs]
  | marked hm hc hcs =>
    have hmark : ∀ m, slot.allowsMark m = true → '}' ≠ m := by
      rintro m hm rfl
      cases slot <;> cases hm
    simp [hmark _ hm, hletter hc, hname _ hcs]

theorem braceless_idents {slot : Slot} {is : List Ident} (h : ∀ i ∈ is, slot.Takes i) :
    '}' ∉ (identsText is).toList := by
  induction is with
  | nil => simp [identsText]
  | cons i is ih =>
    obtain ⟨hi, his⟩ := List.forall_mem_cons.1 h
    cases is with
    | nil => simpa [identsText] using hi.spells.braceless
    | cons j js =>
      have hrest := ih his
      simp only [identsText, List.map_cons, String.intercalate_cons_cons, String.toList_append, List.mem_append,
        not_or] at hrest ⊢
      exact ⟨⟨hi.spells.braceless, by decide⟩, hrest⟩

theorem Operand.Writable.braceless {x : Operand} (h : x.Writable) : '}' ∉ x.text.toList := by
  cases x with
  | literal value =>
    obtain ⟨n, rfl, -⟩ := h
    intro hmem
    exact absurd (isDigit_repr hmem) (by decide)
  | ident i => exact h.1.spells.braceless

/-- A block behind its head. -/
def braced (head body : List Char) : List Char :=
  head ++ (" \x7b ".toList ++ body ++ " \x7d".toList)

/-- A statement with a semicolon behind it. -/
def Stmt.ended (s : Stmt) : List Char :=
  s.text.toList ++ [';']

mutual

/-- A statement as it stands in a source: a block ends with its brace, any other statement with a semicolon. -/
def Stmt.written : Stmt → List Char
  | .branch subject body => braced ("if " ++ subject.text).toList (Stmt.allWritten body)
  | .loop subject body => braced ("while " ++ subject.text).toList (Stmt.allWritten body)
  | .define name parameters body =>
    braced ("def " ++ name.text ++ "(" ++ identsText parameters ++ ")").toList (Stmt.allWritten body)
  | s => s.ended

/-- Statements as they stand in a source. -/
def Stmt.allWritten : List Stmt → List Char
  | [] => []
  | s :: ss => s.written ++ Stmt.allWritten ss

end

theorem dropBlockEnds_flat {cs : List Char} (hcs : '}' ∉ cs) (rest : List Char) :
    dropBlockEnds (cs ++ ';' :: rest) = cs ++ [';'] ++ dropBlockEnds rest := by
  rw [dropBlockEnds_append hcs, dropBlockEnds_cons (by decide), List.append_assoc, List.singleton_append]

/-- A block keeps its brace and loses the semicolon behind it. -/
theorem dropBlockEnds_braced {head cs body : List Char} (hhead : '}' ∉ head)
    (hbody : ∀ rest, dropBlockEnds (cs ++ rest) = body ++ dropBlockEnds rest) (rest : List Char) :
    dropBlockEnds (braced head cs ++ ';' :: rest) = braced head body ++ dropBlockEnds rest := by
  have hopen : '}' ∉ " \x7b ".toList := by decide
  have hclose : dropBlockEnds (" \x7d".toList ++ ';' :: rest) = " \x7d".toList ++ dropBlockEnds rest := rfl
  simp only [braced, List.append_assoc]
  rw [dropBlockEnds_append hhead, dropBlockEnds_append hopen, hbody, hclose]

mutual

/-- **What is rendered for a statement becomes what is written for it.** -/
theorem Stmt.Writable.dropBlockEnds_text : ∀ {s : Stmt}, s.Writable →
    ∀ rest, dropBlockEnds (s.text.toList ++ ';' :: rest) = s.written ++ dropBlockEnds rest
  | .declare _, h, rest | .print _, h, rest | .read _, h, rest => by
    refine dropBlockEnds_flat ?_ rest
    simp only [Stmt.text, String.toList_append, List.mem_append, not_or]
    exact ⟨by decide, braceless_idents h.2⟩
  | .assign _ _, h, rest => by
    refine dropBlockEnds_flat ?_ rest
    simp only [Stmt.text, String.toList_append, List.mem_append, not_or]
    exact ⟨⟨braceless_idents h.1.2, by decide⟩, h.2.braceless⟩
  | .call _ _, h, rest => by
    refine dropBlockEnds_flat ?_ rest
    simp only [Stmt.text, String.toList_append, List.mem_append, not_or]
    exact ⟨⟨⟨h.1.spells.braceless, by decide⟩, braceless_idents h.2⟩, by decide⟩
  | .branch subject body, h, rest => by
    have hhead : '}' ∉ ("if " ++ subject.text).toList := by
      rw [String.toList_append, List.mem_append, not_or]
      exact ⟨by decide, h.1.spells.braceless⟩
    have htext : (Stmt.branch subject body).text.toList = braced ("if " ++ subject.text).toList (render body).toList := by
      simp only [Stmt.text, braced, String.toList_append, List.append_assoc]
    rw [htext, Stmt.written]
    exact dropBlockEnds_braced hhead h.2.dropBlockEnds_render rest
  | .loop subject body, h, rest => by
    have hhead : '}' ∉ ("while " ++ subject.text).toList := by
      rw [String.toList_append, List.mem_append, not_or]
      exact ⟨by decide, h.1.spells.braceless⟩
    have htext : (Stmt.loop subject body).text.toList = braced ("while " ++ subject.text).toList (render body).toList := by
      simp only [Stmt.text, braced, String.toList_append, List.append_assoc]
    rw [htext, Stmt.written]
    exact dropBlockEnds_braced hhead h.2.dropBlockEnds_render rest
  | .define name parameters body, h, rest => by
    have hhead : '}' ∉ ("def " ++ name.text ++ "(" ++ identsText parameters ++ ")").toList := by
      simp only [String.toList_append, List.mem_append, not_or]
      exact ⟨⟨⟨⟨by decide, h.1.spells.braceless⟩, by decide⟩, braceless_idents h.2.1⟩, by decide⟩
    have hbrace : ") \x7b ".toList = ")".toList ++ " \x7b ".toList := rfl
    have htext : (Stmt.define name parameters body).text.toList =
        braced ("def " ++ name.text ++ "(" ++ identsText parameters ++ ")").toList (render body).toList := by
      simp only [Stmt.text, braced, String.toList_append, List.append_assoc, hbrace]
    rw [htext, Stmt.written]
    exact dropBlockEnds_braced hhead h.2.2.dropBlockEnds_render rest

theorem Stmt.AllWritable.dropBlockEnds_render :
    ∀ {ss : List Stmt}, Stmt.AllWritable ss →
      ∀ rest, dropBlockEnds ((render ss).toList ++ rest) = Stmt.allWritten ss ++ dropBlockEnds rest
  | [], _, _ => rfl
  | s :: ss, h, rest => by
    simp only [render, Stmt.allWritten, String.toList_append, List.append_assoc]
    have hsemicolon : ";".toList ++ ((render ss).toList ++ rest) = ';' :: ((render ss).toList ++ rest) := rfl
    rw [hsemicolon, h.1.dropBlockEnds_text, h.2.dropBlockEnds_render]

end

/-! ## What is written is laid out -/

/-- Characters that lead from one mode to another, whatever follows, with a property of the tokens that they
make. -/
def Lays (m : Mode) (cs : List Char) (Q : List Token → Prop) (m' : Mode) : Prop :=
  ∀ pos rest ts, Laid m' (pos + cs.length) rest ts → ∃ us, Q us ∧ Laid m pos (cs ++ rest) (us ++ ts)

namespace Lays

variable {m m' m'' : Mode} {cs cs' : List Char} {Q Q' R : List Token → Prop} {slot next : Slot} {i : Ident}
  {is : List Ident}

theorem nil (hQ : Q []) : Lays m [] Q m :=
  fun _ _ _ h => ⟨[], hQ, h⟩

theorem append (h : Lays m cs Q m') (h' : Lays m' cs' Q' m'') :
    Lays m (cs ++ cs') (fun us => ∃ ts ts', us = ts ++ ts' ∧ Q ts ∧ Q' ts') m'' := by
  intro pos rest ts hlaid
  rw [List.length_append, ← Nat.add_assoc] at hlaid
  obtain ⟨us', hus', hmiddle⟩ := h' _ _ _ hlaid
  obtain ⟨us, hus, hwhole⟩ := h _ _ _ hmiddle
  refine ⟨us ++ us', ⟨us, us', rfl, hus, hus'⟩, ?_⟩
  rwa [List.append_assoc, List.append_assoc]

theorem skip {c : Char} (hskip : m.Skips c m') (h : Lays m' cs Q m'') : Lays m (c :: cs) Q m'' := by
  intro pos rest ts hlaid
  rw [List.length_cons, Nat.add_comm cs.length, ← Nat.add_assoc] at hlaid
  obtain ⟨us, hus, hrest⟩ := h _ _ _ hlaid
  exact ⟨us, hus, .skip hskip hrest⟩

theorem blank (hm : m.passesBlanks = true) (h : Lays m cs Q m') : Lays m (' ' :: cs) Q m' :=
  skip (.blank hm rfl) h

theorem mono (h : Lays m cs Q m') (hR : ∀ us, Q us → R us) : Lays m cs R m' := by
  intro pos rest ts hlaid
  obtain ⟨us, hus, hwhole⟩ := h _ _ _ hlaid
  exact ⟨us, hR us hus, hwhole⟩

/-- One token. -/
theorem word {kind : TokenKind} {w : List Char} (hreads : m.Reads kind w m') :
    Lays m w (fun us => ∃ t, us = [t] ∧ t.kind = kind ∧ t.text.toList = w) m' :=
  fun pos _ _ hlaid => ⟨[⟨kind, String.ofList w, pos⟩], ⟨_, rfl, rfl, String.toList_ofList⟩, .token hreads hlaid⟩

/-- An identifier, in a mode in which its first character is read in the slot. -/
theorem ident (hm : ∀ c ∈ i.text.toList.head?, m.slot? c = some slot) (hi : slot.Takes i) :
    Lays m i.text.toList (fun us => ∃ t, us = [t] ∧ t.kind = .ident ∧ Ident.ofText t.text = i) (.after slot) := by
  have hspells := hi.spells
  obtain ⟨c, w, hw⟩ : ∃ c w, i.text.toList = c :: w := by
    generalize i.text.toList = w at hspells
    cases hspells <;> exact ⟨_, _, rfl⟩
  have hreads : m.Reads .ident i.text.toList (.after slot) := by
    rw [hw] at hm hspells ⊢
    exact .ident (hm c rfl) hspells
  refine (word hreads).mono ?_
  rintro us ⟨t, rfl, ht, htext⟩
  exact ⟨t, rfl, ht, by rw [String.toList_inj.1 htext, hi.ofText]⟩

/-- **A list of identifiers.** Behind it the slot is that of the first one or the one behind a comma. -/
theorem idents (hm : ∀ c ∈ i.text.toList.head?, m.slot? c = some slot) (hnext : slot.afterComma? = some next)
    (hi : slot.Takes i) (his : ∀ j ∈ is, slot.Takes j) :
    ∃ last, (last = slot ∨ last = next) ∧
      Lays m (identsText (i :: is)).toList (fun us => AllIdents us ∧ names us = i :: is) (.after last) := by
  induction is generalizing m slot i with
  | nil =>
    refine ⟨slot, .inl rfl, ?_⟩
    have htext : (identsText [i]).toList = i.text.toList := by simp [identsText]
    rw [htext]
    refine (ident hm hi).mono ?_
    rintro us ⟨t, rfl, ht, hname⟩
    exact ⟨by simpa [AllIdents] using ht, by simpa [names] using hname⟩
  | cons j js ih =>
    -- behind a comma the slot may be another one, which takes the same identifiers and stays
    have hsame : next.afterComma? = some next := by cases slot <;> cases hnext <;> rfl
    have hmarks := Slot.allowsMark_of_afterComma? hnext
    have htakes (k : Ident) (hk : slot.Takes k) : next.Takes k :=
      ⟨hk.spells.congr fun c => (hmarks c).symm, hk.ofText⟩
    obtain ⟨hj, hjs⟩ := List.forall_mem_cons.1 his
    obtain ⟨last, hlast, hrest⟩ :=
      ih (m := .before next) (fun _ _ => rfl) hsame (htakes j hj) fun k hk => htakes k (hjs k hk)
    refine ⟨last, .inr (hlast.elim id id), ?_⟩
    have htext : (identsText (i :: j :: js)).toList = i.text.toList ++ ',' :: ' ' :: (identsText (j :: js)).toList := by
      simp [identsText, String.intercalate_cons_cons]
    rw [htext]
    refine ((ident hm hi).append (skip (.comma hnext) (blank rfl hrest))).mono ?_
    rintro _ ⟨_, ts, rfl, ⟨t, rfl, ht, rfl⟩, hts, hnames⟩
    exact ⟨List.forall_mem_cons.2 ⟨ht, hts⟩, congrArg (_ :: ·) hnames⟩

/-- A keyword with a list of names. -/
theorem listing {w : Keyword} {make : List Ident → Stmt} (hw : listing? w = some make) (hne : is ≠ [])
    (his : ∀ j ∈ is, (Scanner.slotAfter w).Takes j) :
    Lays .statement (w.spelling.toList ++ ' ' :: ((identsText is).toList ++ [';'])) (Statement · (make is)) .statement := by
  have hnext : (Scanner.slotAfter w).afterComma? = some (Scanner.slotAfter w) := by cases w <;> cases hw <;> rfl
  have hend : Mode.Reads (.after (Scanner.slotAfter w)) .semicolon [';'] .statement := by
    cases w <;> cases hw <;> exact .semicolon (by simp [Scanner.slotAfter])
  obtain ⟨i, is, rfl⟩ := List.exists_cons_of_ne_nil hne
  obtain ⟨hi, his⟩ := List.forall_mem_cons.1 his
  obtain ⟨last, hlast, hidents⟩ := idents (m := .before (Scanner.slotAfter w)) (fun _ _ => rfl) hnext hi his
  obtain rfl := hlast.elim id id
  refine ((word (.keyword rfl)).append (blank rfl (hidents.append (word hend)))).mono ?_
  rintro _ ⟨_, _, rfl, ⟨k, rfl, hk, -⟩, ts, _, rfl, ⟨hts, hnames⟩, e, rfl, he, -⟩
  rw [← hnames]
  exact .listing hk hw hts he

/-- A list of names in parentheses, which may be empty. -/
theorem enclosed (hslot : slot = .parameter true ∨ slot = .argument true) (his : ∀ j ∈ is, slot.Takes j) :
    Lays (.before slot) ((identsText is).toList ++ [')'])
      (fun us => ∃ ts q, us = ts ++ [q] ∧ AllIdents ts ∧ names ts = is ∧ q.kind = .closeParen)
      (Scanner.afterParen slot) := by
  have hmiss : slot.mayMiss = true := by rcases hslot with rfl | rfl <;> rfl
  cases is with
  | nil =>
    have htext : (identsText []).toList = [] := by simp [identsText]
    rw [htext]
    refine (word (.closeParen (.inr (.inr ⟨rfl, hmiss⟩)))).mono ?_
    rintro _ ⟨q, rfl, hq, -⟩
    exact ⟨[], q, rfl, by simp [AllIdents], rfl, hq⟩
  | cons i is =>
    obtain ⟨hi, his⟩ := List.forall_mem_cons.1 his
    obtain ⟨next, hnext⟩ : ∃ next, slot.afterComma? = some next := by rcases hslot with rfl | rfl <;> exact ⟨_, rfl⟩
    obtain ⟨last, hlast, hidents⟩ := idents (m := .before slot) (fun _ _ => rfl) hnext hi his
    have hclose : Mode.Reads (.after last) .closeParen [')'] (Scanner.afterParen slot) := by
      have hparen : last.inParens = true ∧ Scanner.afterParen last = Scanner.afterParen slot := by
        rcases hslot with rfl | rfl <;> cases hnext <;> rcases hlast with rfl | rfl <;> exact ⟨rfl, rfl⟩
      rw [← hparen.2]
      exact .closeParen (.inr (.inl ⟨rfl, hparen.1⟩))
    refine (hidents.append (word hclose)).mono ?_
    rintro _ ⟨ts, _, rfl, ⟨hts, hnames⟩, q, rfl, hq, -⟩
    exact ⟨ts, q, rfl, hts, hnames, hq⟩

/-- The right side of an assignment. -/
theorem value {x : Operand} (hx : x.Writable) :
    Lays .value (x.text.toList ++ [';']) (fun us => ∃ v e, us = [v, e] ∧ Value v x ∧ e.kind = .semicolon) .statement := by
  cases x with
  | literal value =>
    obtain ⟨n, rfl, hn⟩ := hx
    have hnumeral := isNumeral_repr hn
    have hreads : Mode.Reads .value .number n.repr.toList .ending := by
      obtain ⟨c, w, hw⟩ := List.exists_cons_of_ne_nil (mt String.toList_eq_nil_iff.1 hnumeral.ne_empty)
      have hdigits := hnumeral.digits
      rw [hw] at hdigits ⊢
      exact .number hdigits
    refine ((word hreads).append (word (.semicolon (.inl rfl)))).mono ?_
    rintro _ ⟨_, _, rfl, ⟨v, rfl, hv, htext⟩, e, rfl, he, -⟩
    have hvalue : Value v (.literal (decimal v.text)) := .number hv (by rwa [String.toList_inj.1 htext])
    rw [String.toList_inj.1 htext, decimal_repr] at hvalue
    exact ⟨v, e, rfl, hvalue, he⟩
  | ident i =>
    refine ((ident (fun _ _ => rfl) hx.1).append (word (.semicolon (.inr (.inr (.inr rfl)))))).mono ?_
    rintro _ ⟨_, _, rfl, ⟨v, rfl, hv, rfl⟩, e, rfl, he, -⟩
    exact ⟨v, e, rfl, .ident hv fun hsigned => Parse.mark_of_signed hsigned hx.2, he⟩

/-- A block, from the brace on. -/
theorem block {ss : List Stmt} (hm : m.passesBlanks = true) (hopen : m.Reads .openBrace ['{'] .statement)
    (hss : Lays .statement cs (Statements · ss) .statement) :
    Lays m (braced [] cs)
      (fun us => ∃ o ts c, us = o :: (ts ++ [c]) ∧ o.kind = .openBrace ∧ Statements ts ss ∧ c.kind = .closeBrace)
      .statement := by
  refine (blank hm ((word hopen).append (blank rfl (hss.append (blank rfl (word .closeBrace)))))).mono ?_
  rintro _ ⟨_, _, rfl, ⟨o, rfl, ho, -⟩, ts, _, rfl, hts, c, rfl, hc, -⟩
  exact ⟨o, ts, c, rfl, ho, hts, hc⟩

/-- A keyword with a subject and a block. -/
theorem control {w : Keyword} {make : Ident → List Stmt → Stmt} {ss : List Stmt} (hw : control? w = some make)
    (hi : Slot.subject.Takes i) (hss : Lays .statement cs (Statements · ss) .statement) :
    Lays .statement (w.spelling.toList ++ ' ' :: (i.text.toList ++ braced [] cs))
      (Statement · (make i ss)) .statement := by
  have hslot : Scanner.slotAfter w = .subject := by cases w <;> cases hw <;> rfl
  have hsubject : Lays (.before (Scanner.slotAfter w)) i.text.toList _ (.after .subject) :=
    ident (fun _ _ => by rw [hslot]; rfl) hi
  refine ((word (.keyword rfl)).append (blank rfl (hsubject.append (block rfl .openBlock hss)))).mono ?_
  rintro _ ⟨_, _, rfl, ⟨k, rfl, hk, -⟩, _, _, rfl, ⟨t, rfl, ht, rfl⟩, o, ts, c, rfl, ho, hts, hc⟩
  exact .control hk hw ht ho hts hc

/-- A definition of a function. -/
theorem define {ss : List Stmt} (hi : Slot.function.Takes i) (his : ∀ j ∈ is, (Slot.parameter true).Takes j)
    (hss : Lays .statement cs (Statements · ss) .statement) :
    Lays .statement
      (Keyword.define.spelling.toList ++ ' ' ::
        (i.text.toList ++ '(' :: ((identsText is).toList ++ [')'] ++ braced [] cs)))
      (Statement · (.define i is ss)) .statement := by
  have hkeyword : Lays .statement Keyword.define.spelling.toList _ (.before .function) :=
    word (.keyword (k := .define) rfl)
  have hname : Lays (.before .function) i.text.toList _ (.after .function) := ident (fun _ _ => rfl) hi
  have hparameters := (word .openParameters).append ((enclosed (.inl rfl) his).append (block rfl .openBody hss))
  refine (hkeyword.append (blank rfl (hname.append hparameters))).mono ?_
  rintro _ ⟨_, _, rfl, ⟨k, rfl, hk, -⟩, _, _, rfl, ⟨t, rfl, ht, rfl⟩, _, _, rfl, ⟨p, rfl, hp, -⟩, _, _, rfl,
    ⟨ts, q, rfl, hts, rfl, hq⟩, o, us, c, rfl, ho, hus, hc⟩
  have hdefine := Statement.define hk ht hp hts hq ho hus hc
  simpa using hdefine

/-- A call of a function, whose name has no mark. -/
theorem call (hi : Slot.function.Takes i) (his : ∀ j ∈ is, (Slot.argument true).Takes j) :
    Lays .statement (i.text.toList ++ '(' :: ((identsText is).toList ++ [')'] ++ [';']))
      (Statement · (.call i is)) .statement := by
  have hhead : i.text.toList.head? = some '$' := by
    have hspells := hi.spells
    generalize i.text.toList = w at hspells
    cases hspells with
    | plain => rfl
    | marked hm => cases hm
  have hslot : ∀ c ∈ i.text.toList.head?, Mode.statement.slot? c = some (.target true) := by
    intro c hc
    rw [hhead] at hc
    cases hc
    rfl
  have hname := ident (m := .statement) hslot ⟨hi.spells.of_sigil _ hhead, hi.ofText⟩
  have harguments := (word .openArguments).append ((enclosed (.inr rfl) his).append (word (.semicolon (.inl rfl))))
  refine (hname.append harguments).mono ?_
  rintro _ ⟨_, _, rfl, ⟨t, rfl, ht, rfl⟩, _, _, rfl, ⟨p, rfl, hp, -⟩, _, _, rfl, ⟨ts, q, rfl, hts, rfl, hq⟩,
    e, rfl, he, -⟩
  have hcall := Statement.call ht hp hts hq he
  simpa using hcall

/-- An assignment. Whether its first target could be called depends on its first character. -/
theorem assign {x : Operand} (hne : is ≠ []) (his : ∀ j ∈ is, (Slot.target true).Takes j) (hx : x.Writable) :
    Lays .statement ((identsText is).toList ++ ' ' :: '=' :: ' ' :: (x.text.toList ++ [';']))
      (Statement · (.assign is x)) .statement := by
  obtain ⟨i, is, rfl⟩ := List.exists_cons_of_ne_nil hne
  have htakes (callable : Bool) (j : Ident) (hj : (Slot.target true).Takes j) : (Slot.target callable).Takes j :=
    ⟨hj.spells.congr fun _ => rfl, hj.ofText⟩
  obtain ⟨hi, his⟩ := List.forall_mem_cons.1 his
  have hslot : ∀ c ∈ i.text.toList.head?,
      Mode.statement.slot? c = some (.target (i.text.toList.head? == some '$')) := by
    intro c hc
    rw [Option.mem_def.1 hc]
    rfl
  obtain ⟨last, hlast, htargets⟩ := idents hslot rfl (htakes _ i hi) fun j hj => htakes _ j (his j hj)
  obtain ⟨callable, rfl⟩ : ∃ callable, last = .target callable := by rcases hlast with rfl | rfl <;> exact ⟨_, rfl⟩
  refine (htargets.append (blank rfl ((word (.equals callable)).append (blank rfl (value hx))))).mono ?_
  rintro _ ⟨ts, _, rfl, ⟨hts, hnames⟩, _, _, rfl, ⟨a, rfl, ha, -⟩, v, e, rfl, hv, he⟩
  obtain ⟨t, ts, rfl⟩ : ∃ t ts', ts = t :: ts' := by
    cases ts with
    | nil => cases hnames
    | cons t ts => exact ⟨t, ts, rfl⟩
  obtain ⟨ht, hts⟩ := List.forall_mem_cons.1 hts
  rw [← hnames]
  exact .assign ht hts ha hv he

end Lays

mutual

/-- **What is written for a statement derives the statement.** -/
theorem Stmt.Writable.lays : ∀ {s : Stmt}, s.Writable → Lays .statement s.written (Statement · s) .statement
  | .declare _, h => by
    have hlays := Lays.listing (w := .declare) rfl h.1 h.2
    simpa [Stmt.written, Stmt.ended, Stmt.text, Keyword.spelling] using hlays
  | .print _, h => by
    have hlays := Lays.listing (w := .print) rfl h.1 h.2
    simpa [Stmt.written, Stmt.ended, Stmt.text, Keyword.spelling] using hlays
  | .read _, h => by
    have hlays := Lays.listing (w := .read) rfl h.1 h.2
    simpa [Stmt.written, Stmt.ended, Stmt.text, Keyword.spelling] using hlays
  | .assign _ _, h => by
    have hlays := Lays.assign h.1.1 h.1.2 h.2
    simpa [Stmt.written, Stmt.ended, Stmt.text] using hlays
  | .branch _ _, h => by
    have hlays := Lays.control (w := .branch) rfl h.1 h.2.lays
    simpa [Stmt.written, braced, Keyword.spelling] using hlays
  | .loop _ _, h => by
    have hlays := Lays.control (w := .loop) rfl h.1 h.2.lays
    simpa [Stmt.written, braced, Keyword.spelling] using hlays
  | .define _ _ _, h => by
    have hlays := Lays.define h.1 h.2.1 h.2.2.lays
    simpa [Stmt.written, braced, Keyword.spelling] using hlays
  | .call _ _, h => by
    have hlays := Lays.call h.1 h.2
    simpa [Stmt.written, Stmt.ended, Stmt.text] using hlays

theorem Stmt.AllWritable.lays :
    ∀ {ss : List Stmt}, Stmt.AllWritable ss → Lays .statement (Stmt.allWritten ss) (Statements · ss) .statement
  | [], _ => .nil .nil
  | _ :: _, h => by
    refine (h.1.lays.append h.2.lays).mono ?_
    rintro _ ⟨ts, us, rfl, hts, hus⟩
    exact .cons hts hus

end

/-! ## Reading back -/

/-- **A program that can be written is read back from what is rendered.** -/
theorem Stmt.AllWritable.parse_mendBlocks {program : List Stmt} (h : Stmt.AllWritable program) :
    (∀ t ∈ scan (mendBlocks (render program)), t.kind ≠ .error) ∧
      parse (mendBlocks (render program)) (scan (mendBlocks (render program))) = .ok program := by
  have htext : (mendBlocks (render program)).toList = Stmt.allWritten program := by
    have hwritten := h.dropBlockEnds_render []
    rw [List.append_nil] at hwritten
    rw [mendBlocks, String.toList_ofList, hwritten, dropBlockEnds, List.append_nil]
  obtain ⟨us, hus, hlaid⟩ := h.lays 0 [] _ (.finish (.inl rfl))
  rw [List.append_nil, ← htext] at hlaid
  have hok := hlaid.ne_error (List.mem_append_right _ (List.mem_singleton.2 rfl)) rfl
  have hscan : scan (mendBlocks (render program)) = _ := hlaid.scanFrom hok
  rw [hscan]
  refine ⟨hok, ?_⟩
  rw [← List.append_nil (us ++ _)]
  exact parse_of_program (.intro hus rfl)

/-- **The rendered program of a source is parsed back** once the semicolons behind its blocks are dropped, so no
other program of a source is rendered the same. -/
theorem parse_render {source : String} {program : List Stmt} (h : parse source (scan source) = .ok program) :
    (∀ t ∈ scan (mendBlocks (render program)), t.kind ≠ .error) ∧
      parse (mendBlocks (render program)) (scan (mendBlocks (render program))) = .ok program ∧
      ∀ source' program', parse source' (scan source') = .ok program' → render program' = render program →
        program' = program := by
  obtain ⟨hok, hparse⟩ := (parse_writable h).parse_mendBlocks
  refine ⟨hok, hparse, fun source' program' h' hsame => ?_⟩
  have hparse' := (parse_writable h').parse_mendBlocks.2
  rw [hsame, hparse] at hparse'
  exact (Except.ok.inj hparse').symm

/-- A source with nested blocks, empty lists, zeros in front of a number and a character. -/
def nestedSource : String :=
  "def $f() \x7b while _$a \x7b $b=007; if -$b \x7b\x7d \x7d \x7d # blocks\n+$a , $b='x'; if $a \x7b $f( ); $a = _$b; \x7d"

/-- The program of `nestedSource`. -/
def nestedProgram : List Stmt :=
  [.define ⟨.none, "$f"⟩ [] [.loop ⟨.floor, "$a"⟩ [.assign [⟨.none, "$b"⟩] (.literal 7), .branch ⟨.minus, "$b"⟩ []]],
    .assign [⟨.plus, "$a"⟩, ⟨.none, "$b"⟩] (.literal 120),
    .branch ⟨.none, "$a"⟩ [.call ⟨.none, "$f"⟩ [], .assign [⟨.none, "$a"⟩] (.ident ⟨.floor, "$b"⟩)]]

theorem parse_render_nested :
    parse nestedSource (scan nestedSource) = .ok nestedProgram ∧
      (∀ t ∈ scan (mendBlocks (render nestedProgram)), t.kind ≠ .error) ∧
      parse (mendBlocks (render nestedProgram)) (scan (mendBlocks (render nestedProgram))) = .ok nestedProgram := by
  have hparse : parse nestedSource (scan nestedSource) = .ok nestedProgram := by decide +kernel
  obtain ⟨hok, hback, -⟩ := parse_render hparse
  exact ⟨hparse, hok, hback⟩

end TapeCompiler
