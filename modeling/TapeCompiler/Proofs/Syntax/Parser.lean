import Mathlib.Tactic.Common
import TapeCompiler.Proofs.Syntax.Descent

/-!
# The parser accepts exactly its grammar

* `Grammar.Program.unique`: the grammar is unambiguous, and no program begins another one.
* `parse_eq_ok_iff`: a parse returns a tree exactly if some first tokens derive it.
* `parse_eq_error`: otherwise it tells the first token with which no program begins, or that all tokens begin one
  and none is left.
* `parse_iff_derived`: **all of this, for tokens of any kinds in any order.**
-/

namespace TapeCompiler

open Grammar

variable {source : String} {tokens pre pre' : List Token} {program program' : List Stmt}

/-- Nothing follows the end. -/
theorem Spot.eq_nil_of_done {d : ℕ} {s : Spot} {ts : List Token} (h : Spot.run? ⟨.done, d⟩ ts = some s) : ts = [] := by
  cases ts with
  | nil => rfl
  | cons t ts => simp [Spot.run?, Spot.step?, Place.next?] at h

namespace Grammar.Program

/-- No program begins another one. -/
theorem eq_of_isPrefix (h : Program pre program) (h' : Program pre' program') (hle : pre <+: pre') : pre = pre' := by
  obtain ⟨more, rfl⟩ := hle
  have hrun := h'.run?
  rw [Spot.run?_append_of h.run?] at hrun
  rw [Spot.eq_nil_of_done hrun, List.append_nil]

/-- Tokens begin with one program at most, and it has one tree. -/
theorem unique (hpre : pre <+: tokens) (hpre' : pre' <+: tokens) (h : Program pre program)
    (h' : Program pre' program') : pre = pre' ∧ program = program' := by
  have heq : pre = pre' := by
    rcases List.prefix_or_prefix_of_prefix hpre hpre' with hle | hle
    · exact h.eq_of_isPrefix h' hle
    · exact (h'.eq_of_isPrefix h hle).symm
  subst heq
  have hok : parse "" (pre ++ []) = .ok program := parse_of_program h
  have hok' : parse "" (pre ++ []) = .ok program' := parse_of_program h'
  rw [hok] at hok'
  exact ⟨rfl, Except.ok.inj hok'⟩

end Grammar.Program

theorem parse_of_isPrefix (hpre : pre <+: tokens) (h : Program pre program) : parse source tokens = .ok program := by
  obtain ⟨post, rfl⟩ := hpre
  exact parse_of_program h

/-- A parse returns a tree exactly if some first tokens derive it. -/
theorem parse_eq_ok_iff (hwf : ∀ t ∈ tokens, t.WellFormed) :
    parse source tokens = .ok program ↔ ∃ pre, pre <+: tokens ∧ Program pre program := by
  refine ⟨fun hok => ?_, fun ⟨pre, hpre, h⟩ => parse_of_isPrefix hpre h⟩
  rcases parse_course source tokens with ⟨pre, post, _, hsplit, hrun, -⟩ | ⟨_, _, _, _, -, -, -, herr⟩ | ⟨_, -, -, herr⟩
  · have hpre : pre <+: tokens := ⟨post, hsplit.symm⟩
    obtain ⟨tree, h⟩ := (reached_of_run? (fun t ht => hwf t (hpre.subset ht)) hrun).program rfl
    -- the tree of the derivation is the one returned, since both come from the same parse
    obtain rfl : tree = program := Except.ok.inj ((parse_of_isPrefix hpre h).symm.trans hok)
    exact ⟨pre, hpre, h⟩
  · rw [herr] at hok
    cases hok
  · rw [herr] at hok
    cases hok

/-- A token whose text fits its kind is rejected with a message. -/
theorem refusal_of_wellFormed (source : String) {s : Spot} {t : Token} (ht : t.WellFormed) (hstep : s.step? t = none) :
    ∃ message, refusal source s.place t = .rejected ⟨t, source, message⟩ := by
  unfold refusal
  split_ifs with hvalue
  · obtain ⟨p, d⟩ := s
    subst hvalue
    split
    next hkind =>
      have hread := readInt?_of_isNumeral (ht.number hkind)
      rw [Spot.step?_value (by rw [hkind]; rfl) (by simp [Token.BadValue, hkind, hread])] at hstep
      cases hstep
    next hkind =>
      have hne := ht.character hkind
      rw [Spot.step?_value (by rw [hkind]; rfl) (by simp [Token.BadValue, hkind, hne])] at hstep
      cases hstep
    next => exact ⟨_, rfl⟩
    next => exact ⟨_, rfl⟩
  · exact ⟨_, rfl⟩

/-- Where a parse fails, and how. -/
theorem parse_eq_error (hwf : ∀ t ∈ tokens, t.WellFormed) {fault : ParseFault}
    (h : parse source tokens = .error fault) :
    (∃ before t after message, tokens = before ++ t :: after ∧ Viable before ∧ ¬ Viable (before ++ [t]) ∧
      fault = .rejected ⟨t, source, message⟩) ∨
    Viable tokens ∧ fault = .rejected (truncation source tokens.getLast?) := by
  rcases parse_course source tokens with
    ⟨_, _, _, -, -, hok⟩ | ⟨before, t, after, u, hsplit, hrun, hstep, herr⟩ | ⟨u, hrun, -, herr⟩
  · rw [hok] at h
    cases h
  · have hthere : before ++ [t] <+: tokens := ⟨after, by simp [hsplit]⟩
    have hwfs : ∀ v ∈ before ++ [t], v.WellFormed := fun v hv => hwf v (hthere.subset hv)
    have hbefore : Viable before :=
      (viable_iff_run? fun v hv => hwfs v (List.mem_append_left _ hv)).2 ⟨u, hrun⟩
    have hnot : ¬ Viable (before ++ [t]) := by
      intro hviable
      obtain ⟨w, hw⟩ := (viable_iff_run? hwfs).1 hviable
      rw [Spot.run?_append_of hrun] at hw
      simp [Spot.run?, hstep] at hw
    obtain ⟨message, hmessage⟩ := refusal_of_wellFormed source (hwfs t (by simp)) hstep
    rw [herr, hmessage] at h
    exact .inl ⟨before, t, after, message, hsplit, hbefore, hnot, (Except.error.inj h).symm⟩
  · exact .inr ⟨(viable_iff_run? hwf).2 ⟨u, hrun⟩, Except.error.inj (h.symm.trans herr)⟩

/-- **The parser accepts exactly its grammar.** It returns a tree if and only if some first tokens derive a program;
they and the tree are then the only ones. Otherwise it rejects the first token with which no program begins, or, if
all tokens begin a program, their end. -/
theorem parse_iff_derived (source : String) (tokens : List Token) (hwf : ∀ t ∈ tokens, t.WellFormed) :
    (∀ program, parse source tokens = .ok program ↔ ∃ pre, pre <+: tokens ∧ Program pre program) ∧
    (∀ pre pre' program program', pre <+: tokens → pre' <+: tokens → Program pre program → Program pre' program' →
      pre = pre' ∧ program = program') ∧
    (∀ fault, parse source tokens = .error fault →
      (∃ before t after message, tokens = before ++ t :: after ∧ Viable before ∧ ¬ Viable (before ++ [t]) ∧
        fault = .rejected ⟨t, source, message⟩) ∨
      Viable tokens ∧ fault = .rejected (truncation source tokens.getLast?)) :=
  ⟨fun _ => parse_eq_ok_iff hwf, fun _ _ _ _ => Program.unique, fun _ => parse_eq_error hwf⟩

/-- An assignment, the end of the source and one more token. -/
def assignmentTokens : List Token :=
  [⟨.ident, "+$a", 0⟩, ⟨.equals, "=", 4⟩, ⟨.number, "012", 6⟩, ⟨.semicolon, ";", 9⟩, ⟨.finish, "", 10⟩,
    ⟨.closeParen, ")", 10⟩]

theorem parse_iff_derived_assignment :
    (∀ t ∈ assignmentTokens, t.WellFormed) ∧
      ∃ pre, pre <+: assignmentTokens ∧ Program pre [.assign [⟨.plus, "$a"⟩] (.literal 12)] := by
  have hnumber : IsNumeral "012" := ⟨by decide, List.all_eq_true.1 (by decide +kernel), by decide⟩
  have hwf : ∀ t ∈ assignmentTokens, t.WellFormed := by
    simp only [assignmentTokens, List.forall_mem_cons]
    refine ⟨?_, ?_, ?_, ?_, ?_, ?_, by simp⟩ <;> constructor <;> simp [hnumber]
  exact ⟨hwf, ((parse_iff_derived "" assignmentTokens hwf).1 _).1 (by decide +kernel)⟩

end TapeCompiler
