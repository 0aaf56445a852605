import Mathlib.Tactic.Common
import TapeCompiler.Proofs.Syntax.Grammar

/-!
# Places between tokens

What may follow the tokens read so far depends on two things: where in its statement the reading is, and how
many blocks are open. So an automaton with a counter tells whether tokens begin a program.

* `Place.next?`, `Spot.step?`, `Spot.run?`: the automaton.
* `run?_program`: tokens that derive a program lead it to its end.
* `Reached`, `reached_of_run?`: conversely, what the tokens that lead somewhere consist of.
* `viable_iff_run?`: **the automaton goes on exactly as long as the tokens begin a program.**
-/

namespace TapeCompiler

open Grammar

/-- Where in a statement a token may follow. -/
inductive Place where
  /-- Between two statements. -/
  | start
  /-- Among the names of a list. -/
  | names
  /-- Before the subject of a block. -/
  | subject
  /-- Before the brace that opens a block. -/
  | braced
  /-- Before the name of a defined function. -/
  | function
  /-- Before the parenthesis that opens the parameters. -/
  | functionParen
  | parameters
  /-- After the identifier that a call or an assignment begins with. -/
  | lead
  | arguments
  | targets
  /-- After the sign of an assignment. -/
  | value
  /-- Before the semicolon of a call or an assignment. -/
  | ending
  /-- After the end of the source. -/
  | done
  deriving DecidableEq, Repr

namespace Place

/-- The place after a token of a kind, if one may follow. -/
def next? : Place → TokenKind → Option Place
  | start, .keyword .declare => some names
  | start, .keyword .print => some names
  | start, .keyword .read => some names
  | start, .keyword .branch => some subject
  | start, .keyword .loop => some subject
  | start, .keyword .define => some function
  | start, .ident => some lead
  | start, .closeBrace => some start
  | start, .finish => some done
  | names, .ident => some names
  | names, .semicolon => some start
  | subject, .ident => some braced
  | braced, .openBrace => some start
  | function, .ident => some functionParen
  | functionParen, .openParen => some parameters
  | parameters, .ident => some parameters
  | parameters, .closeParen => some braced
  | lead, .ident => some targets
  | lead, .equals => some value
  | lead, .openParen => some arguments
  | arguments, .ident => some arguments
  | arguments, .closeParen => some ending
  | targets, .ident => some targets
  | targets, .equals => some value
  | value, .number => some ending
  | value, .character => some ending
  | value, .ident => some ending
  | ending, .semicolon => some start
  | _, _ => none

end Place

/-- How many blocks are open after a token of a kind. -/
def depthAfter (depth : ℕ) : TokenKind → ℕ
  | .openBrace => depth + 1
  | .closeBrace => depth - 1
  | _ => depth

/-- A token of a kind that values have but that has no value. -/
def Token.BadValue (t : Token) : Prop :=
  t.kind = .ident ∧ t.Signed ∨ t.kind = .number ∧ readInt? t.text = none ∨ t.kind = .character ∧ t.text = ""

instance (t : Token) : Decidable t.BadValue :=
  inferInstanceAs (Decidable (_ ∨ _))

/-- A place and the number of blocks that are open there. -/
structure Spot where
  place : Place
  depth : ℕ
  deriving DecidableEq, Repr

namespace Spot

/-- The spot where a program begins. -/
def origin : Spot := ⟨.start, 0⟩

/-- A token that may not follow although its kind fits the place: it closes a block or the source in the
wrong depth, or is a value that cannot be read. -/
def Offends (s : Spot) (t : Token) : Prop :=
  t.kind = .closeBrace ∧ s.depth = 0 ∨ t.kind = .finish ∧ s.depth ≠ 0 ∨ s.place = .value ∧ t.BadValue

instance (s : Spot) (t : Token) : Decidable (s.Offends t) :=
  inferInstanceAs (Decidable (_ ∨ _))

/-- The spot after a token, if it may follow. -/
def step? (s : Spot) (t : Token) : Option Spot :=
  if s.Offends t then none else (s.place.next? t.kind).map (⟨·, depthAfter s.depth t.kind⟩)

/-- The spot after some tokens, if each may follow. -/
def run? (s : Spot) : List Token → Option Spot
  | [] => some s
  | t :: ts => (s.step? t).bind fun s' => s'.run? ts

variable {s s' u : Spot} {p q : Place} {d : ℕ} {t : Token} {ts us : List Token}

@[simp]
theorem run?_nil : s.run? [] = some s := rfl

theorem run?_cons (h : s.step? t = some s') : s.run? (t :: ts) = s'.run? ts := by
  simp [run?, h]

theorem run?_append : s.run? (ts ++ us) = (s.run? ts).bind fun s' => s'.run? us := by
  induction ts generalizing s with
  | nil => rfl
  | cons t ts ih => cases h : s.step? t <;> simp [run?, h, ih]

theorem run?_append_of (h : s.run? ts = some s') : s.run? (ts ++ us) = s'.run? us := by
  simp [run?_append, h]

/-- Tokens of which the first ones lead nowhere lead nowhere. -/
theorem exists_run?_of_append (h : s.run? (ts ++ us) = some u) : ∃ s', s.run? ts = some s' := by
  rw [run?_append] at h
  cases hts : s.run? ts with
  | none => simp [hts] at h
  | some s' => exact ⟨s', rfl⟩

theorem step?_eq (hok : ¬ s.Offends t) (hnext : s.place.next? t.kind = some q) :
    s.step? t = some ⟨q, depthAfter s.depth t.kind⟩ := by
  simp [step?, hok, hnext]

theorem step?_eq_some (h : s.step? t = some s') :
    ¬ s.Offends t ∧ s.place.next? t.kind = some s'.place ∧ s'.depth = depthAfter s.depth t.kind := by
  unfold step? at h
  split_ifs at h with hoff
  obtain ⟨q, hq, rfl⟩ := Option.map_eq_some_iff.1 h
  exact ⟨hoff, hq, rfl⟩

theorem step?_eq_none (h : p.next? t.kind = none) : step? ⟨p, d⟩ t = none := by
  simp [step?, h]

/-- Most tokens fit a place by their kind alone and open or close no block. -/
theorem step?_kind {kind : TokenKind} (ht : t.kind = kind) (hnext : p.next? kind = some q)
    (hkind : p ≠ .value ∧ kind ≠ .closeBrace ∧ kind ≠ .finish ∧ kind ≠ .openBrace := by simp) :
    step? ⟨p, d⟩ t = some ⟨q, d⟩ := by
  obtain ⟨hplace, hclose, hfinish, hopen⟩ := hkind
  subst ht
  have hok : ¬ Offends ⟨p, d⟩ t := by simp [Offends, hclose, hfinish, hplace]
  rw [step?_eq hok hnext]
  cases hkind : t.kind <;> simp_all [depthAfter]

theorem step?_openBrace (ht : t.kind = .openBrace) (hnext : p.next? .openBrace = some q) :
    step? ⟨p, d⟩ t = some ⟨q, d + 1⟩ := by
  have hok : ¬ Offends ⟨p, d⟩ t := by simp [Offends, Token.BadValue, ht]
  rw [step?_eq hok (by rwa [ht]), ht, depthAfter]

theorem step?_closeBrace (ht : t.kind = .closeBrace) : step? ⟨.start, d + 1⟩ t = some ⟨.start, d⟩ := by
  have hok : ¬ Offends ⟨.start, d + 1⟩ t := by simp [Offends, ht]
  rw [step?_eq hok (by rw [ht]; rfl), ht, depthAfter, Nat.add_sub_cancel]

theorem step?_finish (ht : t.kind = .finish) : origin.step? t = some ⟨.done, 0⟩ := by
  have hok : ¬ Offends origin t := by simp [Offends, ht, origin]
  rw [step?_eq hok (by rw [ht]; rfl), ht]
  rfl

theorem step?_value (ht : Place.value.next? t.kind = some q) (hok : ¬ t.BadValue) :
    step? ⟨.value, d⟩ t = some ⟨.ending, d⟩ := by
  cases hkind : t.kind <;> simp only [hkind, Place.next?, reduceCtorEq] at ht
  all_goals simp [step?, Offends, hkind, hok, Place.next?, depthAfter]

/-- Identifiers do not leave a list of names. -/
theorem run?_idents (hplace : p.next? .ident = some p) (hus : AllIdents us) :
    run? ⟨p, d⟩ (us ++ ts) = run? ⟨p, d⟩ ts := by
  have hvalue : p ≠ .value := by
    rintro rfl
    cases hplace
  induction us with
  | nil => rfl
  | cons t us ih =>
    have ht : t.kind = .ident := hus t List.mem_cons_self
    have hstep : step? ⟨p, d⟩ t = some ⟨p, d⟩ := step?_kind ht hplace ⟨hvalue, by simp⟩
    rw [List.cons_append, run?_cons hstep]
    exact ih fun u hu => hus u (List.mem_cons_of_mem _ hu)

/-! ## Derivations lead through the automaton -/

end Spot

namespace Grammar

open Spot

variable {s : Stmt} {ss : List Stmt} {ts us : List Token} {d : ℕ}

theorem next?_listing {w : Keyword} {make : List Ident → Stmt} (h : listing? w = some make) :
    Place.start.next? (.keyword w) = some .names := by
  cases w <;> first | rfl | cases h

theorem next?_control {w : Keyword} {make : Ident → List Stmt → Stmt} (h : control? w = some make) :
    Place.start.next? (.keyword w) = some .subject := by
  cases w <;> first | rfl | cases h

theorem step?_of_value {t : Token} {x : Operand} (h : Value t x) : step? ⟨.value, d⟩ t = some ⟨.ending, d⟩ := by
  cases h with
  | number ht hn =>
    have hread := readInt?_of_isNumeral hn
    exact step?_value (by rw [ht]; rfl) (by simp [Token.BadValue, ht, hread])
  | character ht hc =>
    have hne : t.text ≠ "" := by
      intro hempty
      simp [hempty] at hc
    exact step?_value (by rw [ht]; rfl) (by simp [Token.BadValue, ht, hne])
  | ident ht hsign => exact step?_value (by rw [ht]; rfl) (by simp [Token.BadValue, ht, hsign])

/-- Statements lead from the start of a statement to the start of the next one. -/
theorem Statements.run? {ts : List Token} {ss : List Stmt} (h : Statements ts ss) (d : ℕ) :
    Spot.run? ⟨.start, d⟩ ts = some ⟨.start, d⟩ := by
  refine @Statements.rec (fun ts _ _ => ∀ d, Spot.run? ⟨.start, d⟩ ts = some ⟨.start, d⟩)
    (fun ts _ _ => ∀ d, Spot.run? ⟨.start, d⟩ ts = some ⟨.start, d⟩)
    ?listing ?define ?control ?call ?assign ?nil ?cons ts ss h d
  case listing =>
    intro k e is w make hk hw his he d
    rw [run?_cons (step?_kind hk (next?_listing hw)), run?_idents rfl his, run?_cons (step?_kind he rfl), run?_nil]
  case define =>
    intro k i p q o c is body ss hk hi hp his hq ho _ hc ih d
    rw [run?_cons (step?_kind hk rfl), run?_cons (step?_kind hi rfl), run?_cons (step?_kind hp rfl),
      run?_idents rfl his, run?_cons (step?_kind hq rfl), run?_cons (step?_openBrace ho rfl),
      run?_append_of (ih (d + 1)), run?_cons (step?_closeBrace hc), run?_nil]
  case control =>
    intro k i o c body ss w make hk hw hi ho _ hc ih d
    rw [run?_cons (step?_kind hk (next?_control hw)), run?_cons (step?_kind hi rfl),
      run?_cons (step?_openBrace ho rfl), run?_append_of (ih (d + 1)), run?_cons (step?_closeBrace hc), run?_nil]
  case call =>
    intro i p q e is hi hp his hq he d
    rw [run?_cons (step?_kind hi rfl), run?_cons (step?_kind hp rfl), run?_idents rfl his,
      run?_cons (step?_kind hq rfl), run?_cons (step?_kind he rfl), run?_nil]
  case assign =>
    intro i a v e is x hi his ha hv he d
    -- a first target leads, and others make a list; either may stand before the equals sign
    have htail : ∀ p, p = .lead ∨ p = .targets → Spot.run? ⟨p, d⟩ [a, v, e] = some ⟨.start, d⟩ := by
      rintro p (rfl | rfl) <;>
        rw [run?_cons (step?_kind ha rfl), run?_cons (step?_of_value hv), run?_cons (step?_kind he rfl), run?_nil]
    rw [run?_cons (step?_kind hi rfl)]
    cases is with
    | nil => exact htail _ (.inl rfl)
    | cons j is =>
      have hj : j.kind = .ident := his j List.mem_cons_self
      have hjs : AllIdents is := fun u hu => his u (List.mem_cons_of_mem _ hu)
      rw [List.cons_append, run?_cons (step?_kind hj rfl), run?_idents rfl hjs, htail _ (.inr rfl)]
  case nil => exact fun _ => rfl
  case cons =>
    intro ts us s ss _ _ ihs ihss d
    rw [run?_append_of (ihs d), ihss d]

/-- A program leads to the end. -/
theorem Program.run? (h : Program ts ss) : origin.run? ts = some ⟨.done, 0⟩ := by
  cases h with
  | intro hss he =>
    have hbody : origin.run? _ = some origin := hss.run? 0
    rw [run?_append_of hbody, run?_cons (step?_finish he), run?_nil]

/-! ## What tokens that lead somewhere consist of -/

/-- Tokens that open a block: statements and a brace make them a statement. -/
def Opener (os : List Token) : Prop :=
  ∀ body ss c, Statements body ss → c.kind = .closeBrace → ∃ s, Statement (os ++ (body ++ [c])) s

/-- Tokens between two statements, with `d` blocks open. -/
inductive Open : ℕ → List Token → Prop
  | top {ts : List Token} {ss : List Stmt} (hss : Statements ts ss) : Open 0 ts
  | block {d : ℕ} {ts os us : List Token} {ss : List Stmt} (hopen : Open d ts) (hos : Opener os)
      (hss : Statements us ss) : Open (d + 1) (ts ++ (os ++ us))

theorem Statements.snoc {s : Stmt} (hss : Statements ts ss) (hs : Statement us s) :
    Statements (ts ++ us) (ss ++ [s]) := by
  refine @Statements.rec (fun _ _ _ => True) (fun ts ss _ => Statements (ts ++ us) (ss ++ [s]))
    ?_ ?_ ?_ ?_ ?_ ?nil ?cons ts ss hss
  case nil => simpa using Statements.cons hs .nil
  case cons =>
    intro ts vs s ss hs _ _ ih
    rw [List.append_assoc]
    exact .cons hs ih
  all_goals intros; trivial

namespace Open

theorem statement {s : Stmt} (h : Open d ts) (hs : Statement us s) : Open d (ts ++ us) := by
  cases h with
  | top hss => exact .top (hss.snoc hs)
  | block hopen hos hss =>
    rw [List.append_assoc, List.append_assoc]
    exact .block hopen hos (hss.snoc hs)

theorem opener (h : Open d ts) (hus : Opener us) : Open (d + 1) (ts ++ us) := by
  simpa using Open.block h hus .nil

theorem close {c : Token} (h : Open (d + 1) ts) (hc : c.kind = .closeBrace) : Open d (ts ++ [c]) := by
  cases h with
  | block hopen hos hss =>
    obtain ⟨s, hs⟩ := hos _ _ c hss hc
    simpa using hopen.statement hs

/-- As many braces as there are open blocks complete a program. -/
theorem viable (h : Open d ts) : Viable ts := by
  induction d generalizing ts with
  | zero =>
    cases h with
    | top hss => exact ⟨[⟨.finish, "", 0⟩], _, .intro hss rfl⟩
  | succ d ih =>
    obtain ⟨more, program, hprogram⟩ := ih (h.close (c := ⟨.closeBrace, "", 0⟩) rfl)
    exact ⟨⟨.closeBrace, "", 0⟩ :: more, program, by simpa using hprogram⟩

end Open

/-- Tokens of a statement up to a place. -/
inductive Begun : Place → List Token → Prop
  | start : Begun .start []
  | names {k : Token} {is : List Token} {w : Keyword} {make : List Ident → Stmt}
      (hk : k.kind = .keyword w) (hw : listing? w = some make) (his : AllIdents is) : Begun .names (k :: is)
  | subject {k : Token} {w : Keyword} {make : Ident → List Stmt → Stmt}
      (hk : k.kind = .keyword w) (hw : control? w = some make) : Begun .subject [k]
  | braced {ts : List Token} (h : ∀ o : Token, o.kind = .openBrace → Opener (ts ++ [o])) : Begun .braced ts
  | function {k : Token} (hk : k.kind = .keyword .define) : Begun .function [k]
  | functionParen {k i : Token} (hk : k.kind = .keyword .define) (hi : i.kind = .ident) :
      Begun .functionParen [k, i]
  | parameters {k i p : Token} {is : List Token} (hk : k.kind = .keyword .define) (hi : i.kind = .ident)
      (hp : p.kind = .openParen) (his : AllIdents is) : Begun .parameters (k :: i :: p :: is)
  | lead {i : Token} (hi : i.kind = .ident) : Begun .lead [i]
  | arguments {i p : Token} {is : List Token} (hi : i.kind = .ident) (hp : p.kind = .openParen)
      (his : AllIdents is) : Begun .arguments (i :: p :: is)
  | targets {i : Token} {is : List Token} (hi : i.kind = .ident) (his : AllIdents is) : Begun .targets (i :: is)
  | value {i a : Token} {is : List Token} (hi : i.kind = .ident) (his : AllIdents is) (ha : a.kind = .equals) :
      Begun .value (i :: (is ++ [a]))
  | ending {ts : List Token} (h : ∀ e : Token, e.kind = .semicolon → ∃ s, Statement (ts ++ [e]) s) :
      Begun .ending ts

theorem AllIdents.snoc {t : Token} (hts : AllIdents ts) (ht : t.kind = .ident) : AllIdents (ts ++ [t]) := by
  intro u hu
  rcases List.mem_append.1 hu with hu | hu
  · exact hts u hu
  · rw [List.mem_singleton.1 hu, ht]

/-- What tokens that lead to a spot consist of: statements in open blocks and the beginning of one more, or a
program. -/
inductive Reached : List Token → Spot → Prop
  | inside {d : ℕ} {us vs : List Token} {p : Place} (hopen : Open d us) (hbegun : Begun p vs) :
      Reached (us ++ vs) ⟨p, d⟩
  | done {ts : List Token} {ss : List Stmt} (h : Program ts ss) : Reached ts ⟨.done, 0⟩

namespace Reached

variable {t : Token} {vs : List Token} {p q : Place}

theorem goesOn (hopen : Open d us) (h : Begun p (vs ++ [t])) : Reached (us ++ vs ++ [t]) ⟨p, d⟩ := by
  rw [List.append_assoc]
  exact .inside hopen h

theorem between (hopen : Open d us) : Reached us ⟨.start, d⟩ := by
  simpa using Reached.inside hopen .start

theorem ends {s : Stmt} (hopen : Open d us) (h : Statement (vs ++ [t]) s) :
    Reached (us ++ vs ++ [t]) ⟨.start, d⟩ := by
  rw [List.append_assoc]
  exact between (hopen.statement h)

/-- From the start of a statement. -/
theorem step_start (hopen : Open d us) (hok : ¬ Offends ⟨.start, d⟩ t) (hnext : Place.start.next? t.kind = some q) :
    Reached (us ++ [t]) ⟨q, depthAfter d t.kind⟩ := by
  have hkeyword : ∀ w, t.kind = .keyword w → Begun q [t] := by
    intro w hk
    cases w <;> simp only [hk, Place.next?, Option.some.injEq] at hnext <;> subst hnext
    case declare | print | read => exact .names hk rfl (by simp [AllIdents])
    case branch | loop => exact .subject hk rfl
    case define => exact .function hk
  cases hkind : t.kind <;> simp only [hkind, Place.next?, Option.some.injEq, reduceCtorEq] at hnext
  case keyword w => exact .inside hopen (hkeyword w hkind)
  case ident => exact hnext ▸ .inside hopen (.lead hkind)
  case closeBrace =>
    -- a brace that closes nothing offends
    obtain ⟨e, rfl⟩ : ∃ e, d = e + 1 := Nat.exists_eq_succ_of_ne_zero fun hzero => hok (.inl ⟨hkind, hzero⟩)
    exact hnext ▸ between (hopen.close hkind)
  case finish =>
    obtain rfl : d = 0 := by
      by_contra hd
      exact hok (.inr (.inl ⟨hkind, hd⟩))
    cases hopen with
    | top hss => exact hnext ▸ .done (.intro hss hkind)

/-- A token that fits as a value is one. -/
theorem exists_value (ht : t.WellFormed) (hok : ¬ Offends ⟨.value, d⟩ t) (hnext : Place.value.next? t.kind = some q) :
    q = .ending ∧ t.kind ≠ .openBrace ∧ t.kind ≠ .closeBrace ∧ ∃ x, Value t x := by
  cases hkind : t.kind <;> simp only [hkind, Place.next?, Option.some.injEq, reduceCtorEq] at hnext
  case number => exact ⟨hnext.symm, by simp, by simp, _, .number hkind (ht.number hkind)⟩
  case character =>
    obtain ⟨c, cs, hc⟩ := List.exists_cons_of_ne_nil fun hnil =>
      ht.character hkind (String.toList_eq_nil_iff.1 hnil)
    exact ⟨hnext.symm, by simp, by simp, _, .character hkind hc⟩
  case ident =>
    have hsign : ¬ t.Signed := fun hsign => hok (.inr (.inr ⟨rfl, .inl ⟨hkind, hsign⟩⟩))
    exact ⟨hnext.symm, by simp, by simp, _, .ident hkind hsign⟩

/-- From inside a statement. -/
theorem step_begun (hbegun : Begun p vs) (hp : p ≠ .start) (hopen : Open d us) (ht : t.WellFormed)
    (hok : ¬ Offends ⟨p, d⟩ t) (hnext : p.next? t.kind = some q) :
    Reached (us ++ vs ++ [t]) ⟨q, depthAfter d t.kind⟩ := by
  -- what has begun goes on, opens a block or ends, and the token tells which
  cases hbegun with
  | start => exact absurd rfl hp
  | names hk hw his =>
    cases hkind : t.kind <;> simp only [hkind, Place.next?, Option.some.injEq, reduceCtorEq] at hnext
    case ident => exact hnext ▸ goesOn hopen (.names hk hw (his.snoc hkind))
    case semicolon => exact hnext ▸ ends hopen (.listing hk hw his hkind)
  | subject hk hw =>
    cases hkind : t.kind <;> simp only [hkind, Place.next?, Option.some.injEq, reduceCtorEq] at hnext
    case ident =>
      refine hnext ▸ goesOn hopen (.braced fun o ho body ss c hbody hc => ?_)
      exact ⟨_, .control hk hw hkind ho hbody hc⟩
  | braced h =>
    cases hkind : t.kind <;> simp only [hkind, Place.next?, Option.some.injEq, reduceCtorEq] at hnext
    case openBrace =>
      rw [List.append_assoc]
      exact hnext ▸ between (hopen.opener (h t hkind))
  | function hk =>
    cases hkind : t.kind <;> simp only [hkind, Place.next?, Option.some.injEq, reduceCtorEq] at hnext
    case ident => exact hnext ▸ goesOn hopen (.functionParen hk hkind)
  | functionParen hk hi =>
    cases hkind : t.kind <;> simp only [hkind, Place.next?, Option.some.injEq, reduceCtorEq] at hnext
    case openParen => exact hnext ▸ goesOn hopen (.parameters hk hi hkind (by simp [AllIdents]))
  | parameters hk hi hparen his =>
    cases hkind : t.kind <;> simp only [hkind, Place.next?, Option.some.injEq, reduceCtorEq] at hnext
    case ident => exact hnext ▸ goesOn hopen (.parameters hk hi hparen (his.snoc hkind))
    case closeParen =>
      refine hnext ▸ goesOn hopen (.braced fun o ho body ss c hbody hc => ?_)
      exact ⟨_, by simpa using Statement.define hk hi hparen his hkind ho hbody hc⟩
  | lead hi =>
    cases hkind : t.kind <;> simp only [hkind, Place.next?, Option.some.injEq, reduceCtorEq] at hnext
    case ident => exact hnext ▸ goesOn hopen (.targets hi (by simpa [AllIdents] using hkind))
    case equals =>
      have hnone : AllIdents [] := by simp [AllIdents]
      exact hnext ▸ goesOn hopen (.value hi hnone hkind)
    case openParen => exact hnext ▸ goesOn hopen (.arguments hi hkind (by simp [AllIdents]))
  | arguments hi hparen his =>
    cases hkind : t.kind <;> simp only [hkind, Place.next?, Option.some.injEq, reduceCtorEq] at hnext
    case ident => exact hnext ▸ goesOn hopen (.arguments hi hparen (his.snoc hkind))
    case closeParen =>
      refine hnext ▸ goesOn hopen (.ending fun e he => ?_)
      exact ⟨_, by simpa using Statement.call hi hparen his hkind he⟩
  | targets hi his =>
    cases hkind : t.kind <;> simp only [hkind, Place.next?, Option.some.injEq, reduceCtorEq] at hnext
    case ident => exact hnext ▸ goesOn hopen (.targets hi (his.snoc hkind))
    case equals => exact hnext ▸ goesOn hopen (.value hi his hkind)
  | value hi his ha =>
    obtain ⟨rfl, hopens, hcloses, x, hx⟩ := exists_value ht hok hnext
    have hdepth : depthAfter d t.kind = d := by
      unfold depthAfter
      split <;> first | contradiction | rfl
    rw [hdepth]
    refine goesOn hopen (.ending fun e he => ?_)
    exact ⟨_, by simpa using Statement.assign hi his ha hx he⟩
  | ending h =>
    cases hkind : t.kind <;> simp only [hkind, Place.next?, Option.some.injEq, reduceCtorEq] at hnext
    case semicolon =>
      obtain ⟨s, hs⟩ := h t hkind
      exact hnext ▸ ends hopen hs

theorem step {s s' : Spot} (h : Reached ts s) (ht : t.WellFormed) (hstep : s.step? t = some s') :
    Reached (ts ++ [t]) s' := by
  obtain ⟨hok, hnext, hdepth⟩ := step?_eq_some hstep
  obtain ⟨q, e⟩ := s'
  subst hdepth
  cases h with
  | done => cases hnext
  | @inside d us vs p hopen hbegun =>
    by_cases hp : p = .start
    · subst hp
      cases hbegun
      rw [List.append_nil]
      exact step_start hopen hok hnext
    · exact step_begun hbegun hp hopen ht hok hnext

end Reached

variable {s s' : Spot}

/-- Tokens that lead to a spot consist of what ends there. -/
theorem Reached.run (h : Reached ts s) (hus : ∀ t ∈ us, t.WellFormed) (hrun : s.run? us = some s') :
    Reached (ts ++ us) s' := by
  induction us generalizing ts s with
  | nil =>
    cases hrun
    simpa using h
  | cons t us ih =>
    obtain ⟨u, hstep, hrest⟩ := Option.bind_eq_some_iff.1 hrun
    have hnext := h.step (hus t List.mem_cons_self) hstep
    simpa using ih hnext (fun v hv => hus v (List.mem_cons_of_mem _ hv)) hrest

theorem reached_of_run? (hts : ∀ t ∈ ts, t.WellFormed) (hrun : origin.run? ts = some s) : Reached ts s :=
  (Reached.between (.top .nil)).run hts hrun

/-- At the end the tokens are a program. -/
theorem Reached.program (h : Reached ts s) (hs : s.place = .done) : ∃ ss, Program ts ss := by
  cases h with
  | done hprogram => exact ⟨_, hprogram⟩
  | inside _ hbegun => cases hbegun <;> cases hs

theorem Reached.viable_of_start (h : Reached ts ⟨.start, d⟩) : Viable ts := by
  cases h with
  | inside hopen hbegun =>
    cases hbegun
    rw [List.append_nil]
    exact hopen.viable

theorem Viable.of_append (h : Viable (ts ++ us)) : Viable ts := by
  obtain ⟨more, program, hprogram⟩ := h
  exact ⟨us ++ more, program, by simpa using hprogram⟩

/-- Kinds of tokens that complete a statement. -/
def completion : Place → List TokenKind
  | .start => []
  | .names => [.semicolon]
  | .subject => [.ident, .openBrace, .closeBrace]
  | .braced => [.openBrace, .closeBrace]
  | .function => [.ident, .openParen, .closeParen, .openBrace, .closeBrace]
  | .functionParen => [.openParen, .closeParen, .openBrace, .closeBrace]
  | .parameters => [.closeParen, .openBrace, .closeBrace]
  | .lead => [.equals, .ident, .semicolon]
  | .arguments => [.closeParen, .semicolon]
  | .targets => [.equals, .ident, .semicolon]
  | .value => [.ident, .semicolon]
  | .ending => [.semicolon]
  | .done => []

/-- A token with no text. -/
def blank (kind : TokenKind) : Token := ⟨kind, "", 0⟩

theorem run?_completion {p : Place} (hp : p ≠ .done) :
    Spot.run? ⟨p, d⟩ ((completion p).map blank) = some ⟨.start, d⟩ := by
  cases p <;> first | rfl | exact absurd rfl hp

theorem wellFormed_completion (p : Place) : ∀ t ∈ (completion p).map blank, t.WellFormed := by
  intro t ht
  obtain ⟨kind, hkind, rfl⟩ := List.mem_map.1 ht
  have hplain : kind ≠ .number ∧ kind ≠ .character := by
    cases p <;> simp only [completion, List.mem_cons, List.not_mem_nil, or_false] at hkind <;> grind
  exact ⟨fun h => absurd h hplain.1, fun h => absurd h hplain.2⟩

/-- Tokens begin a program exactly if they lead somewhere. -/
theorem viable_iff_run? (hts : ∀ t ∈ ts, t.WellFormed) : Viable ts ↔ ∃ s, origin.run? ts = some s := by
  constructor
  · rintro ⟨more, program, h⟩
    exact exists_run?_of_append h.run?
  · rintro ⟨⟨p, d⟩, hrun⟩
    have hreached := reached_of_run? hts hrun
    by_cases hp : p = .done
    · obtain ⟨ss, hprogram⟩ := hreached.program hp
      exact ⟨[], ss, by simpa using hprogram⟩
    · have hstart := hreached.run (wellFormed_completion p) (run?_completion hp)
      exact hstart.viable_of_start.of_append

end Grammar

end TapeCompiler
