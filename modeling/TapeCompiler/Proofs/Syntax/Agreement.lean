import Mathlib.Data.List.Induction
import Mathlib.Tactic.Common
import TapeCompiler.Proofs.Syntax.Parser
import TapeCompiler.Proofs.Syntax.Scanned

/-!
# Scanner and parser agree

Both know the grammar of statements, the scanner in its modes and the parser in its descent. The scanner does not
count braces and does not look at signs. So these are all that a parser can find wrong with scanned tokens, besides
a fault of the scan itself.

* `Offence`: a brace that closes nothing, a value with a sign, the end inside a block, a fault of the scan.
* `Flows.step?_eq_none_iff`: where scanned tokens have led, exactly an offence does not lead on.
* `parse_scan_iff_no_offence`: **a scanned source is parsed unless it has an offence, and the first one is what the
  parser reports.**
* `wellFormed_of_parse`: the tokens of a source that is parsed have texts that fit their kinds.
-/

namespace TapeCompiler

open Grammar

/-- How many more braces have been opened than closed. -/
def braceDepth (ts : List Token) : ℤ :=
  ts.countP (·.kind = .openBrace) - ts.countP (·.kind = .closeBrace)

/-- A token that does not belong behind the tokens before it. -/
inductive Offence (before : List Token) (t : Token) : Prop
  /-- A brace that closes nothing. -/
  | strayBrace (ht : t.kind = .closeBrace) (hdepth : braceDepth before = 0)
  /-- A value with a sign. -/
  | signedValue (ht : t.kind = .ident) (hsign : t.Signed) (hlast : before.getLast?.map Token.kind = some .equals)
  /-- The end of the source inside a block. -/
  | openBlock (ht : t.kind = .finish) (hdepth : 0 < braceDepth before)
  /-- A fault of the scan. -/
  | scanFault (ht : t.kind = .error)

/-- The first offence among tokens. -/
structure FirstOffence (tokens before : List Token) (t : Token) : Prop where
  isPrefix : before ++ [t] <+: tokens
  offence : Offence before t
  earlier : ∀ u after v, before = u ++ v :: after → ¬ Offence u v

/-- What the parser has to say about an offence. A fault of the scan brings its own message. -/
def Token.complaint (t : Token) : String :=
  match t.kind with
  | .error => t.text
  | .ident => s!"Operator '{(Ident.ofText t.text).mark.text}' is not allowed on the right-hand side"
  | _ => s!"Unexpected token {t.label}"

/-! ## What the automaton knows about the tokens before -/

namespace Place

variable {p q : Place} {kind : TokenKind}

theorem eq_value_iff (h : p.next? kind = some q) : q = .value ↔ kind = .equals := by
  unfold next? at h
  split at h <;> cases h <;> simp

theorem eq_done_iff (h : p.next? kind = some q) : q = .done ↔ kind = .finish := by
  unfold next? at h
  split at h <;> cases h <;> simp

theorem next?_error : p.next? .error = none := by
  cases p <;> rfl

end Place

namespace Spot

variable {s u : Spot} {before ts : List Token} {t : Token}

theorem run?_concat (h : s.run? (ts ++ [t]) = some u) : ∃ w, s.run? ts = some w ∧ w.step? t = some u := by
  obtain ⟨w, hw⟩ := exists_run?_of_append h
  rw [run?_append_of hw] at h
  obtain ⟨v, hv, hnil⟩ := Option.bind_eq_some_iff.1 h
  cases hnil
  exact ⟨w, hw, hv⟩

/-- The automaton counts the braces. -/
theorem depth_eq_braceDepth (h : origin.run? before = some s) : (s.depth : ℤ) = braceDepth before := by
  induction before using List.reverseRecOn generalizing s with
  | nil =>
    cases h
    rfl
  | append_singleton ts t ih =>
    obtain ⟨w, hw, hstep⟩ := run?_concat h
    obtain ⟨hok, -, hdepth⟩ := step?_eq_some hstep
    have hbefore := ih hw
    rw [hdepth]
    unfold braceDepth at hbefore ⊢
    simp only [List.countP_append, List.countP_singleton]
    cases hkind : t.kind <;> simp only [depthAfter, decide_eq_true_eq, reduceCtorEq, if_true, if_false]
    case closeBrace =>
      -- the brace closes a block, since it leads on
      have hpos : w.depth ≠ 0 := fun hzero => hok (.inl ⟨hkind, hzero⟩)
      omega
    all_goals omega

/-- It stands before a value exactly behind the sign of an assignment. -/
theorem place_eq_value_iff (h : origin.run? before = some s) :
    s.place = .value ↔ before.getLast?.map Token.kind = some .equals := by
  induction before using List.reverseRecOn with
  | nil =>
    cases h
    simp [origin]
  | append_singleton ts t =>
    obtain ⟨w, hw, hstep⟩ := run?_concat h
    obtain ⟨-, hnext, -⟩ := step?_eq_some hstep
    simpa using Place.eq_value_iff hnext

/-- An offence does not lead on. -/
theorem step?_eq_none_of_offence (h : origin.run? before = some s) (hoffence : Offence before t) :
    s.step? t = none := by
  have hdepth := depth_eq_braceDepth h
  have hvalue := place_eq_value_iff h
  cases hoffence with
  | strayBrace hclose hzero => exact if_pos (.inl ⟨hclose, by omega⟩)
  | signedValue hident hsign hlast => exact if_pos (.inr (.inr ⟨hvalue.2 hlast, .inl ⟨hident, hsign⟩⟩))
  | openBlock hfinish hopen => exact if_pos (.inr (.inl ⟨hfinish, by omega⟩))
  | scanFault herror => exact step?_eq_none (by rw [herror, Place.next?_error])

theorem no_offence (h : origin.run? (before ++ [t]) = some u) : ¬ Offence before t := by
  intro hoffence
  obtain ⟨w, hw, hstep⟩ := run?_concat h
  rw [step?_eq_none_of_offence hw hoffence] at hstep
  cases hstep

end Spot

/-! ## Flows in the automaton -/

namespace Flows

variable {p : Place} {s u : Spot} {before ts rest after : List Token} {t : Token} {source : String}

/-- Tokens that lead somewhere leave a flow from there. -/
theorem run (h : Flows s.place (before ++ rest)) (hs : s.place ≠ .done) (hrun : s.run? before = some u)
    (hrest : rest ≠ []) : Flows u.place rest ∧ u.place ≠ .done := by
  induction before generalizing s with
  | nil =>
    cases hrun
    exact ⟨h, hs⟩
  | cons t before ih =>
    obtain ⟨w, hstep, hafter⟩ := Option.bind_eq_some_iff.1 hrun
    obtain ⟨-, hnext, -⟩ := Spot.step?_eq_some hstep
    rw [List.cons_append] at h
    generalize hts : before ++ rest = ts at h
    have hne : ts ≠ [] := by
      rw [← hts]
      exact List.append_ne_nil_of_right_ne_nil _ hrest
    generalize s.place = p at h hnext
    cases h with
    | finish => exact absurd rfl hne
    | error => exact absurd rfl hne
    | @cons _ q _ _ hnext' hfinish _ hflow =>
      obtain rfl : q = w.place := Option.some.inj (hnext'.symm.trans hnext)
      have hdone : w.place ≠ .done := fun hdone => hfinish ((Place.eq_done_iff hnext).1 hdone)
      exact ih (hts ▸ hflow) hdone hafter

/-- Nothing flows behind the end of a program. -/
theorem eq_nil_of_done (h : Flows s.place (before ++ rest)) (hs : s.place ≠ .done) {depth : ℕ}
    (hrun : s.run? before = some ⟨.done, depth⟩) : rest = [] := by
  by_contra hrest
  exact (h.run hs hrun hrest).2 rfl

/-- Only the end leads through all tokens of a flow. -/
theorem place_eq_done (h : Flows s.place ts) (hrun : s.run? ts = some u) : u.place = .done := by
  induction ts generalizing s with
  | nil =>
    generalize s.place = p at h
    cases h
  | cons t ts ih =>
    obtain ⟨w, hstep, hafter⟩ := Option.bind_eq_some_iff.1 hrun
    obtain ⟨-, hnext, -⟩ := Spot.step?_eq_some hstep
    generalize s.place = p at h hnext
    cases h with
    | finish ht =>
      cases hafter
      exact (Place.eq_done_iff hnext).2 ht
    | error ht =>
      rw [ht, Place.next?_error] at hnext
      cases hnext
    | @cons _ q _ _ hnext' _ _ hflow =>
      obtain rfl : q = w.place := Option.some.inj (hnext'.symm.trans hnext)
      exact ih hflow hafter

theorem spelled (h : Flows p ts) : ∀ t ∈ ts, t.Spelled := by
  induction h with
  | finish ht =>
    intro t' ht'
    rw [List.mem_singleton.1 ht']
    exact ⟨by simp [ht], by simp [ht]⟩
  | error ht =>
    intro t' ht'
    rw [List.mem_singleton.1 ht']
    exact ⟨by simp [ht], by simp [ht]⟩
  | cons _ _ ht _ ih => exact List.forall_mem_cons.2 ⟨ht, ih⟩

/-- Numbers stand in the places of values. -/
theorem place_of_number (h : Flows p (t :: after)) (ht : t.kind = .number) : p = .value := by
  cases h with
  | finish hkind => simp [ht] at hkind
  | error hkind => simp [ht] at hkind
  | cons hnext =>
    rw [ht] at hnext
    cases p <;> first | rfl | cases hnext

/-- Scanned tokens with numbers that are not too long have texts that fit their kinds. -/
theorem wellFormed (h : Flows p ts) (hshort : ∀ t ∈ ts, t.kind = .number → t.text.length ≤ maxDigits) :
    ∀ t ∈ ts, t.WellFormed := by
  intro t ht
  have hspelled := h.spelled t ht
  refine ⟨fun hnumber => ?_, hspelled.character⟩
  obtain ⟨hne, hdigits⟩ := hspelled.number hnumber
  exact ⟨hne, hdigits, hshort t ht hnumber⟩

/-- **Where scanned tokens have led, exactly an offence does not lead on.** -/
theorem step?_eq_none_iff (h : Flows s.place (t :: after)) (hrun : Spot.origin.run? before = some s)
    (ht : t.WellFormed) : s.step? t = none ↔ Offence before t := by
  refine ⟨fun hnone => ?_, Spot.step?_eq_none_of_offence hrun⟩
  have hdepth := Spot.depth_eq_braceDepth hrun
  have hvalue := Spot.place_eq_value_iff hrun
  have hoffends : ∀ q, s.place.next? t.kind = some q → s.Offends t := by
    intro q hq
    simpa [Spot.step?, hq] using hnone
  generalize hp : s.place = p at h
  cases h with
  | finish hkind =>
    rcases hoffends .done (by rw [hp, hkind]; rfl) with ⟨hclose, -⟩ | ⟨-, hopen⟩ | ⟨hplace, -⟩
    · simp [hkind] at hclose
    · exact .openBlock hkind (by omega)
    · simp [hp] at hplace
  | error hkind => exact .scanFault hkind
  | @cons _ q _ _ hnext hfinish _ _ =>
    rcases hoffends q (by rw [hp, hnext]) with
      ⟨hclose, hzero⟩ | ⟨hkind, -⟩ | ⟨hplace, ⟨hident, hsign⟩ | ⟨hnumber, hread⟩ | ⟨hchar, hempty⟩⟩
    · exact .strayBrace hclose (by omega)
    · exact absurd hkind hfinish
    · exact .signedValue hident hsign (hvalue.1 hplace)
    · rw [readInt?_of_isNumeral (ht.number hnumber)] at hread
      cases hread
    · exact absurd hempty (ht.character hchar)

/-- The parser reports an offence as such. -/
theorem refusal_eq (h : Flows s.place (t :: after)) (hrun : Spot.origin.run? before = some s)
    (hoffence : Offence before t) : refusal source s.place t = .rejected ⟨t, source, t.complaint⟩ := by
  have hvalue := Spot.place_eq_value_iff hrun
  have hplace : t.kind = .closeBrace ∨ t.kind = .finish → s.place ≠ .value := by
    intro hkind hplace
    rw [hplace] at h
    cases h with
    | error herror => simp [herror] at hkind
    | cons hnext => rcases hkind with hkind | hkind <;> rw [hkind] at hnext <;> cases hnext
  cases hoffence with
  | strayBrace hkind => simp [refusal, misfit, Token.complaint, hkind, hplace (.inl hkind)]
  | signedValue hkind _ hlast => simp [refusal, Token.complaint, hkind, hvalue.2 hlast]
  | openBlock hkind => simp [refusal, misfit, Token.complaint, hkind, hplace (.inr hkind)]
  | scanFault hkind => simp [refusal, misfit, Token.complaint, hkind]

end Flows

/-! ## Sources -/

/-- There is one first offence at most. -/
theorem FirstOffence.unique {tokens before before' : List Token} {t t' : Token} (h : FirstOffence tokens before t)
    (h' : FirstOffence tokens before' t') : before = before' ∧ t = t' := by
  have hnot : ∀ {u v : List Token} {a c : Token}, FirstOffence tokens u a → FirstOffence tokens v c →
      u ++ [a] <+: v ++ [c] → u = v ∧ a = c := by
    intro u v a c hu hv hle
    rcases List.prefix_concat_iff.1 hle with heq | ⟨rest, hrest⟩
    · exact List.append_singleton_inj.1 heq
    · exact absurd hu.offence (hv.earlier u rest a (by simpa using hrest.symm))
  rcases List.prefix_or_prefix_of_prefix h.isPrefix h'.isPrefix with hle | hle
  · exact hnot h h' hle
  · obtain ⟨hbefore, ht⟩ := hnot h' h hle
    exact ⟨hbefore.symm, ht.symm⟩

variable {source : String} {before after : List Token} {t : Token} {u : Spot}

/-- A token of a scan that does not lead on is the first offence, and is reported as such. -/
theorem firstOffence_of_step? (hsplit : scan source = before ++ t :: after)
    (hrun : Spot.origin.run? before = some u) (hstep : u.step? t = none) (ht : t.WellFormed) :
    FirstOffence (scan source) before t ∧ refusal source u.place t = .rejected ⟨t, source, t.complaint⟩ := by
  have hflows : Flows Spot.origin.place (scan source) := scan_flows source
  have hthere : Flows u.place (t :: after) := by
    rw [hsplit] at hflows
    exact (hflows.run (by decide) hrun (by simp)).1
  have hoffence := (hthere.step?_eq_none_iff hrun ht).1 hstep
  refine ⟨⟨⟨after, by simp [hsplit]⟩, hoffence, fun v rest w hbefore => ?_⟩, hthere.refusal_eq hrun hoffence⟩
  have hpart : Spot.origin.run? (v ++ [w] ++ rest) = some u := by
    rw [← hrun, hbefore]
    simp
  obtain ⟨x, hx⟩ := Spot.exists_run?_of_append hpart
  exact Spot.no_offence hx

/-- How the parse of a scanned source ends. -/
theorem parse_scan_cases (hshort : ∀ t ∈ scan source, t.kind = .number → t.text.length ≤ maxDigits) :
    (∃ program, parse source (scan source) = .ok program ∧
      ∀ before after t, scan source = before ++ t :: after → ¬ Offence before t) ∨
    ∃ before t, FirstOffence (scan source) before t ∧
      parse source (scan source) = .error (.rejected ⟨t, source, t.complaint⟩) := by
  have hflows : Flows Spot.origin.place (scan source) := scan_flows source
  have hwf := hflows.wellFormed hshort
  rcases parse_course source (scan source) with
    ⟨pre, post, program, hsplit, hrun, hok⟩ | ⟨before, t, after, u, hsplit, hrun, hstep, herr⟩ | ⟨u, hrun, hplace, -⟩
  · obtain rfl := (hsplit ▸ hflows).eq_nil_of_done (by decide) hrun
    rw [List.append_nil] at hsplit
    refine .inl ⟨program, hok, fun before after t ht => ?_⟩
    have hall : Spot.origin.run? (before ++ [t] ++ after) = some ⟨.done, 0⟩ := by
      rw [← hrun, ← hsplit, ht]
      simp
    obtain ⟨w, hw⟩ := Spot.exists_run?_of_append hall
    exact Spot.no_offence hw
  · obtain ⟨hfirst, hrefusal⟩ := firstOffence_of_step? hsplit hrun hstep (hwf t (by simp [hsplit]))
    exact .inr ⟨before, t, hfirst, by rw [herr, hrefusal]⟩
  · exact absurd (hflows.place_eq_done hrun) hplace

/-- What the parser rejects is the first offence, however long the numbers of the source are. -/
theorem firstOffence_of_rejected {e : SyntaxError} (h : parse source (scan source) = .error (.rejected e)) :
    ∃ before t, FirstOffence (scan source) before t ∧ e = ⟨t, source, t.complaint⟩ := by
  have hflows : Flows Spot.origin.place (scan source) := scan_flows source
  rcases parse_course source (scan source) with
    ⟨_, _, _, -, -, hok⟩ | ⟨before, t, after, u, hsplit, hrun, hstep, herr⟩ | ⟨u, hrun, hplace, -⟩
  · rw [hok] at h
    cases h
  · have hrefusal : refusal source u.place t = .rejected e := Except.error.inj (herr.symm.trans h)
    have hthere : Flows u.place (t :: after) := by
      rw [hsplit] at hflows
      exact (hflows.run (by decide) hrun (by simp)).1
    -- a number stands in the place of a value, and there it is not rejected but refused as a number
    have hnumber : t.kind ≠ .number := by
      intro hkind
      rw [hthere.place_of_number hkind, refusal, if_pos rfl, hkind] at hrefusal
      cases hrefusal
    have hspelled := hflows.spelled t (by simp [hsplit])
    obtain ⟨hfirst, hreport⟩ :=
      firstOffence_of_step? hsplit hrun hstep ⟨fun hkind => absurd hkind hnumber, hspelled.character⟩
    exact ⟨before, t, hfirst, ParseFault.rejected.inj (hrefusal.symm.trans hreport)⟩
  · exact absurd (hflows.place_eq_done hrun) hplace

/-- **Scanner and parser agree.** A source whose numbers are not too long is parsed exactly if its tokens hold no
offence, and a parse fails exactly with the first offence. -/
theorem parse_scan_iff_no_offence (source : String)
    (hshort : ∀ t ∈ scan source, t.kind = .number → t.text.length ≤ maxDigits) :
    ((∃ program, parse source (scan source) = .ok program) ↔
      ∀ before after t, scan source = before ++ t :: after → ¬ Offence before t) ∧
    ∀ fault, parse source (scan source) = .error fault ↔
      ∃ before t, FirstOffence (scan source) before t ∧ fault = .rejected ⟨t, source, t.complaint⟩ := by
  rcases parse_scan_cases hshort with ⟨program, hok, hnone⟩ | ⟨before, t, hfirst, herr⟩
  · have hnot : ∀ before t, ¬ FirstOffence (scan source) before t := by
      intro before t hfirst
      obtain ⟨after, hsplit⟩ := hfirst.isPrefix
      exact hnone before after t (by simp [← hsplit]) hfirst.offence
    refine ⟨⟨fun _ => hnone, fun _ => ⟨program, hok⟩⟩, fun fault => ⟨fun h => ?_, ?_⟩⟩
    · rw [hok] at h
      cases h
    · rintro ⟨before, t, hfirst, -⟩
      exact absurd hfirst (hnot before t)
  · refine ⟨⟨?_, fun hnone => ?_⟩, fun fault => ⟨fun h => ?_, ?_⟩⟩
    · rintro ⟨program, hok⟩
      rw [herr] at hok
      cases hok
    · obtain ⟨after, hsplit⟩ := hfirst.isPrefix
      exact absurd hfirst.offence (hnone before after t (by simp [← hsplit]))
    · rw [herr] at h
      exact ⟨before, t, hfirst, (Except.error.inj h).symm⟩
    · rintro ⟨before', t', hfirst', rfl⟩
      obtain ⟨-, rfl⟩ := hfirst.unique hfirst'
      exact herr

/-- The value with a sign comes before the brace that closes nothing. -/
theorem parse_scan_iff_no_offence_signed :
    (∀ t ∈ scan "$a = 1; $b = -$a; \x7d", t.kind = .number → t.text.length ≤ maxDigits) ∧
      ∃ before, FirstOffence (scan "$a = 1; $b = -$a; \x7d") before ⟨.ident, "-$a", 13⟩ := by
  have hshort : ∀ t ∈ scan "$a = 1; $b = -$a; \x7d", t.kind = .number → t.text.length ≤ maxDigits := by
    decide +kernel
  have herr : parse "$a = 1; $b = -$a; \x7d" (scan "$a = 1; $b = -$a; \x7d") =
      .error (.rejected ⟨⟨.ident, "-$a", 13⟩, "$a = 1; $b = -$a; \x7d",
        "Operator '-' is not allowed on the right-hand side"⟩) := by
    decide +kernel
  obtain ⟨before, t, hfirst, hfault⟩ := ((parse_scan_iff_no_offence _ hshort).2 _).1 herr
  simp only [ParseFault.rejected.injEq, SyntaxError.mk.injEq] at hfault
  exact ⟨hshort, before, hfault.1 ▸ hfirst⟩

/-! ## Numbers in a source that is parsed -/

/-- Numbers that lead on can be read. -/
theorem Spot.readInt?_of_run? {s u : Spot} {ts : List Token} (h : s.run? ts = some u) :
    ∀ t ∈ ts, t.kind = .number → readInt? t.text ≠ none := by
  induction ts generalizing s with
  | nil => simp
  | cons t ts ih =>
    obtain ⟨w, hstep, hafter⟩ := Option.bind_eq_some_iff.1 h
    refine List.forall_mem_cons.2 ⟨fun hkind hread => ?_, ih hafter⟩
    obtain ⟨hok, hnext, -⟩ := step?_eq_some hstep
    rw [hkind] at hnext
    have hplace : s.place = .value := by
      generalize s.place = p at hnext
      cases p <;> first | rfl | cases hnext
    exact hok (.inr (.inr ⟨hplace, .inr (.inl ⟨hkind, hread⟩)⟩))

/-- The tokens of a source that is parsed have texts that fit their kinds. -/
theorem wellFormed_of_parse {program : List Stmt} (h : parse source (scan source) = .ok program) :
    ∀ t ∈ scan source, t.WellFormed := by
  have hflows : Flows Spot.origin.place (scan source) := scan_flows source
  rcases parse_course source (scan source) with
    ⟨pre, post, _, hsplit, hrun, -⟩ | ⟨_, _, _, _, -, -, -, herr⟩ | ⟨_, -, -, herr⟩
  · obtain rfl := (hsplit ▸ hflows).eq_nil_of_done (by decide) hrun
    rw [List.append_nil] at hsplit
    refine hflows.wellFormed fun t ht hkind => ?_
    obtain ⟨hne, hdigits⟩ := (hflows.spelled t ht).number hkind
    have hread := Spot.readInt?_of_run? hrun t (hsplit ▸ ht) hkind
    by_contra hlong
    rw [readInt?_of_isDigit hne hdigits, if_neg hlong] at hread
    exact hread rfl
  · rw [herr] at h
    cases h
  · rw [herr] at h
    cases h

end TapeCompiler
