import Mathlib.Tactic.Common
import TapeCompiler.Proofs.Syntax.Lexical

/-!
# What a scan passes over

A source that is scanned to its end consists of its tokens and of what stands between them. Nothing is lost
there but blanks, commas in lists, comments and the quotes of character literals; and, where a list in
parentheses is empty, one `$` that no name follows.

* `Token.Covers`: an offset inside a token.
* `Trivia`: what may stand at an offset outside of all tokens.
* `Laid.trivia`: **what is passed over is trivial**, by induction along the layout.
* `uncovered_trivia`: **every character of a source that is scanned to its end is in a token or trivial.**
* `dropped_sigil`: the `$` is no exception of the proof: a source with one is scanned to its end.
-/

namespace TapeCompiler

/-- The offset behind a token. -/
def Token.stop (t : Token) : Int :=
  t.offset + t.text.length

/-- The offset lies inside the token. -/
def Token.Covers (t : Token) (i : ℕ) : Prop :=
  t.offset ≤ i ∧ i < t.stop

instance (t : Token) (i : ℕ) : Decidable (t.Covers i) :=
  inferInstanceAs (Decidable (_ ∧ _))

/-- What may stand at an offset that is in no token. -/
inductive Trivia (cs : List Char) (ts : List Token) (i : ℕ) : Prop
  | blank {c : Char} (hc : cs[i]? = some c) (hblank : isBlank c = true)
  /-- A comma between two identifiers. -/
  | comma {a b : Token} (hc : cs[i]? = some ',') (hab : [a, b] <:+: ts) (ha : a.kind = .ident)
      (hb : b.kind = .ident) (hbehind : a.stop ≤ i) (hbefore : i < b.offset)
  /-- A `#`, or anything behind it up to the end of its line, if no token is there. -/
  | comment {j : ℕ} (hj : cs[j]? = some '#') (hji : j ≤ i) (hline : ∀ k, j ≤ k → k < i → cs[k]? ≠ some '\n')
      (hfree : ∀ k, j ≤ k → k ≤ i → ∀ t ∈ ts, ¬ t.Covers k)
  /-- One of the quotes around a character. -/
  | quote {t : Token} (hc : cs[i]? = some '\'') (ht : t ∈ ts) (hkind : t.kind = .character)
      (hnext : (i : Int) + 1 = t.offset ∨ i = t.stop)
  /-- A `$` without a name between parentheses. -/
  | sigil {a b : Token} (hc : cs[i]? = some '$') (hab : [a, b] <:+: ts) (ha : a.kind = .openParen)
      (hb : b.kind = .closeParen) (hbehind : a.stop ≤ i) (hbefore : i < b.offset)

/-! ## Tokens that were made -/

/-- The last token is of a kind and ends at an offset or before it. -/
def LastIs (ts : List Token) (kind : TokenKind) (pos : ℕ) : Prop :=
  ∃ a, ts.getLast? = some a ∧ a.kind = kind ∧ a.stop ≤ pos

theorem LastIs.succ {ts : List Token} {kind : TokenKind} {pos : ℕ} (h : LastIs ts kind pos) :
    LastIs ts kind (pos + 1) := by
  obtain ⟨a, ha, hkind, hstop⟩ := h
  exact ⟨a, ha, hkind, by omega⟩

theorem LastIs.infix_of {ts ts' : List Token} {kind : TokenKind} {pos : ℕ} (h : LastIs ts kind pos) (b : Token) :
    ∃ a, [a, b] <:+: ts ++ b :: ts' ∧ a.kind = kind ∧ a.stop ≤ pos := by
  obtain ⟨a, ha, hkind, hstop⟩ := h
  obtain ⟨front, rfl⟩ := List.getLast?_eq_some_iff.1 ha
  exact ⟨a, ⟨front, ts', by simp⟩, hkind, hstop⟩

/-- What the characters `cs` and the tokens `ts` made of them look like at the end, where the scan is in a mode. -/
def Mode.Behind (cs : List Char) (ts : List Token) : Mode → Prop
  | after _ => LastIs ts .ident cs.length
  | before slot => slot.mayMiss = true → LastIs ts .openParen cs.length
  | unquote => ∃ a, ts.getLast? = some a ∧ a.kind = .character ∧ a.stop = cs.length
  | comment => ∃ j : ℕ, cs[j]? = some '#' ∧ (∀ k, j ≤ k → cs[k]? ≠ some '\n') ∧ ∀ t ∈ ts, t.stop ≤ j
  | statement | word | mark _ | sigil _ | name _ | paren _ | body | value | digits | quote | ending => True

namespace Mode

variable {m m' : Mode} {c : Char} {cs : List Char} {ts : List Token}

theorem Behind.skip (h : m.Behind cs ts) (hts : ∀ t ∈ ts, t.stop ≤ cs.length) (hskip : m.Skips c m') :
    m'.Behind (cs ++ [c]) ts := by
  have hlength : (cs ++ [c]).length = cs.length + 1 := by simp
  cases hskip with
  | blank hm =>
    cases m with
    | after => rw [Behind, hlength]; exact LastIs.succ h
    | before =>
      intro hmiss
      rw [hlength]
      exact (h hmiss).succ
    | statement | paren | body | value | ending => trivial
    | comment | word | mark | sigil | name | digits | quote | unquote => cases hm
  | hash =>
    refine ⟨cs.length, by simp, fun k hk => ?_, hts⟩
    by_cases hlast : k = cs.length
    · simp [hlast]
    · rw [List.getElem?_eq_none (by omega)]
      simp
  | remark hc =>
    obtain ⟨j, hj, hline, hfree⟩ := h
    obtain ⟨hlt, -⟩ := List.getElem?_eq_some_iff.1 hj
    refine ⟨j, by rwa [List.getElem?_append_left hlt], fun k hk => ?_, hfree⟩
    rcases Nat.lt_trichotomy k cs.length with hk' | hk' | hk'
    · rw [List.getElem?_append_left hk']
      exact hline k hk
    · simpa [hk'] using hc
    · rw [List.getElem?_eq_none (by omega)]
      simp
  | comma hnext =>
    intro hmiss
    rename_i slot next
    -- behind a comma an identifier has to follow
    cases slot <;> cases hnext <;> cases hmiss
  | lineEnd | openQuote | closeQuote | sigil => trivial

theorem Behind.token {kind : TokenKind} {w : List Char} (hreads : m.Reads kind w m') :
    m'.Behind (cs ++ w) (ts ++ [⟨kind, String.ofList w, cs.length⟩]) := by
  have hlast (kind : TokenKind) (w : List Char) :
      LastIs (ts ++ [⟨kind, String.ofList w, cs.length⟩]) kind (cs ++ w).length :=
    ⟨_, List.getLast?_concat, rfl, by simp [Token.stop]⟩
  cases hreads with
  | @keyword k =>
    intro hmiss
    cases k <;> cases hmiss
  | ident => exact hlast .ident _
  | character => exact ⟨_, List.getLast?_concat, rfl, by simp [Token.stop]⟩
  | openArguments | openParameters => exact fun _ => hlast .openParen _
  | @closeParen _ slot => cases slot <;> trivial
  | number | closeBrace | equals | openBlock | openBody | semicolon => trivial

end Mode

theorem Token.Covers.of_lt {kind : TokenKind} {w : List Char} {pos i : ℕ} (hlow : pos ≤ i) (hhigh : i < pos + w.length) :
    Token.Covers ⟨kind, String.ofList w, pos⟩ i := by
  have hstop : Token.stop ⟨kind, String.ofList w, pos⟩ = (pos : Int) + w.length := by simp [Token.stop]
  refine ⟨by simp only; omega, ?_⟩
  rw [hstop]
  omega

/-- One character that is passed over. -/
theorem Mode.Skips.trivia {m m' : Mode} {c : Char} {cs pre : List Char} {ts before : List Token}
    (hskip : m.Skips c m') (hts : Laid m' (pre.length + 1) cs ts) (hok : ∀ t ∈ ts, t.kind ≠ .error)
    (hbehind : m.Behind pre before) (hbefore : ∀ t ∈ before, t.stop ≤ pre.length) :
    Trivia (pre ++ c :: cs) (before ++ ts) pre.length := by
  have hc : (pre ++ c :: cs)[pre.length]? = some c := by simp
  -- no token of either part reaches into a line that began at `j`
  have hfree (j : ℕ) (hj : ∀ t ∈ before, t.stop ≤ j) (k : ℕ) (hjk : j ≤ k) (hk : k ≤ pre.length) :
      ∀ t ∈ before ++ ts, ¬ t.Covers k := by
    intro t ht hcovers
    obtain ⟨hoffset, hstop⟩ := hcovers
    rcases List.mem_append.1 ht with ht | ht
    · have := hj t ht
      omega
    · have := hts.le_offset t ht
      omega
  cases hskip with
  | blank _ hblank => exact .blank hc hblank
  | hash => exact .comment hc le_rfl (fun k hlow hhigh => by omega) (hfree _ hbefore)
  | remark | lineEnd =>
    obtain ⟨j, hj, hline, hfirst⟩ := hbehind
    obtain ⟨hlt, -⟩ := List.getElem?_eq_some_iff.1 hj
    refine .comment (by rwa [List.getElem?_append_left hlt]) hlt.le (fun k hlow hhigh => ?_) (hfree j hfirst)
    rw [List.getElem?_append_left hhigh]
    exact hline k hlow
  | comma hnext =>
    rename_i slot next
    have hslot : next.mayMiss = false := by cases slot <;> cases hnext <;> rfl
    obtain ⟨b, ts', rfl, hb, hle⟩ := hts.ident_next hok hslot
    obtain ⟨a, hab, ha, hstop⟩ := LastIs.infix_of hbehind b
    exact .comma hc hab ha hb hstop (by omega)
  | openQuote =>
    obtain ⟨b, ts', rfl, hb, hoffset⟩ := hts.character_next hok
    exact .quote hc (List.mem_append_right _ List.mem_cons_self) hb (.inl (by omega))
  | closeQuote =>
    obtain ⟨a, ha, hkind, hstop⟩ := hbehind
    exact .quote hc (List.mem_append_left _ (List.mem_of_getLast? ha)) hkind (.inr hstop.symm)
  | sigil hmiss =>
    obtain ⟨b, ts', rfl, hb, hle⟩ := hts.closeParen_next hok
    obtain ⟨a, hab, ha, hstop⟩ := LastIs.infix_of (hbehind hmiss) b
    exact .sigil hc hab ha hb hstop (by omega)

/-- **What is passed over is trivial.** The characters `pre` and the tokens `before` are what came before. -/
theorem Laid.trivia {m : Mode} {pos : ℕ} {cs pre : List Char} {ts before : List Token} (h : Laid m pos cs ts)
    (hok : ∀ t ∈ ts, t.kind ≠ .error) (hpos : pre.length = pos) (hbehind : m.Behind pre before)
    (hbefore : ∀ t ∈ before, t.stop ≤ pos) {i : ℕ} (hlow : pos ≤ i) (hhigh : i < pos + cs.length)
    (huncovered : ∀ t ∈ ts, ¬ t.Covers i) : Trivia (pre ++ cs) (before ++ ts) i := by
  -- `pre` and `before` are the characters and tokens passed; the mode remembers enough of them
  induction h generalizing pre before with
  | finish =>
    rw [List.length_nil] at hhigh
    omega
  | fault ht => exact absurd ht (hok _ List.mem_cons_self)
  | @skip m m' pos c cs ts hskip hts ih =>
    subst hpos
    by_cases hi : i = pre.length
    · rw [hi]
      exact hskip.trivia hts hok hbehind hbefore
    · rw [List.length_cons] at hhigh
      have hstops : ∀ t ∈ before, t.stop ≤ ((pre.length + 1 : ℕ) : Int) := by
        intro t ht
        have := hbefore t ht
        omega
      have hrest := ih hok (List.length_append.trans rfl) (hbehind.skip hbefore hskip) hstops (by omega) (by omega)
        huncovered
      rwa [List.append_assoc, List.singleton_append] at hrest
  | @token m m' pos kind w cs ts hreads hts ih =>
    subst hpos
    rw [List.length_append] at hhigh
    obtain ⟨hthis, huncovered⟩ := List.forall_mem_cons.1 huncovered
    have hi : pre.length + w.length ≤ i := by
      by_contra hlt
      exact hthis (.of_lt hlow (by omega))
    have hstops : ∀ t ∈ before ++ [⟨kind, String.ofList w, pre.length⟩],
        t.stop ≤ ((pre.length + w.length : ℕ) : Int) := by
      intro t ht
      rcases List.mem_append.1 ht with ht | ht
      · have := hbefore t ht
        omega
      · rw [List.mem_singleton.1 ht]
        simp [Token.stop]
    have hrest := ih (List.forall_mem_cons.1 hok).2 List.length_append (Mode.Behind.token hreads) hstops hi
      (by omega) huncovered
    rwa [List.append_assoc, List.append_assoc, List.singleton_append] at hrest

/-- **Every character of a source that is scanned to its end is in a token or trivial.** -/
theorem uncovered_trivia {source : String} (hend : (scan source).getLast?.map Token.kind = some .finish) {i : ℕ}
    (hi : i < source.length) (huncovered : ∀ t ∈ scan source, ¬ t.Covers i) :
    Trivia source.toList (scan source) i := by
  have hlaid := scan_laid source
  obtain ⟨e, hlast, hfinish⟩ := Option.map_eq_some_iff.1 hend
  have hok := hlaid.ne_error (List.mem_of_getLast? hlast) hfinish
  have hall : Trivia ([] ++ source.toList) ([] ++ scan source) i :=
    hlaid.trivia hok rfl trivial (by simp) (Nat.zero_le i) (by rwa [Nat.zero_add, String.length_toList]) huncovered
  exact hall

/-- Commas in a comment, in a character literal and in a list. -/
def commaSource : String :=
  "# a, b\n$a = ','; print +$a , $b;"

/-- The first and the last comma are in no token, and both are trivial. -/
theorem uncovered_trivia_commas :
    ((scan commaSource).getLast?.map Token.kind = some .finish ∧
        ∀ i ∈ [3, 27], ∀ t ∈ scan commaSource, ¬ t.Covers i) ∧
      ∀ i ∈ [3, 27], Trivia commaSource.toList (scan commaSource) i := by
  have hend : (scan commaSource).getLast?.map Token.kind = some .finish := by decide +kernel
  have huncovered : ∀ i ∈ [3, 27], ∀ t ∈ scan commaSource, ¬ t.Covers i := by decide +kernel
  refine ⟨⟨hend, huncovered⟩, fun i hi => uncovered_trivia hend ?_ (huncovered i hi)⟩
  have hlength : commaSource.length = 32 := by decide +kernel
  simp only [List.mem_cons, List.not_mem_nil, or_false] at hi
  omega

/-- A call with a `$` where its arguments could be. -/
def sigilSource : String :=
  "$f($);"

/-- **A `$` can get lost.** In an empty list of arguments it stands in no token, and the scan comes to its end;
it is neither a blank nor a comma nor a quote, and there is no comment. -/
theorem dropped_sigil :
    (scan sigilSource).getLast?.map Token.kind = some .finish ∧ sigilSource.toList[3]? = some '$' ∧
      '#' ∉ sigilSource.toList ∧ ∀ t ∈ scan sigilSource, ¬ t.Covers 3 := by
  decide +kernel

end TapeCompiler
