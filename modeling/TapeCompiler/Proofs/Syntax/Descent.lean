import Mathlib.Tactic.Common
import TapeCompiler.Proofs.Syntax.Completeness
import TapeCompiler.Proofs.Syntax.Place

/-!
# How a parse ends

Recursive descent and the automaton go through the same tokens. A reading that should lead from one spot to another
does so, or it refuses the first token that the automaton refuses, or it runs out of tokens. Other faults do not
occur.

* `Course`: the three ways, and what they have to do with the automaton.
* `Reading.Walks`: a reading that ends in one of them.
* `statements_walks`: **so do statements**, with what closes them.
* `parse_course`: and a whole parse.
-/

namespace TapeCompiler

open Lookahead Parse Grammar

/-- The fault of a token that does not fit in a place. -/
def misfit (source : String) (t : Token) : ParseFault :=
  .rejected ⟨t, source, if t.kind = .error then t.text else s!"Unexpected token {t.label}"⟩

/-- The fault of a token that is refused in a place. In the place of a value it depends on the kind. -/
def refusal (source : String) (p : Place) (t : Token) : ParseFault :=
  if p = .value then
    match t.kind with
    | .number => .badNumeral
    | .character => .noCharacter
    | .ident => .rejected ⟨t, source,
        s!"Operator '{(Ident.ofText t.text).mark.text}' is not allowed on the right-hand side"⟩
    | _ => misfit source t
  else misfit source t

/-- What becomes of a reading that starts before the tokens `rest` and should lead from `s` to `s'` through at
least `least` tokens. -/
inductive Course {α : Type} (source : String) (past rest : List Token) (s s' : Spot) (least : ℕ) :
    EStateM.Result ParseFault Lookahead α → Prop
  | arrives {pre post : List Token} {v : α} {b : Lookahead} (hrest : rest = pre ++ post)
      (hrun : s.run? pre = some s') (hleast : least ≤ pre.length) (hb : b.Stands source (pre.reverse ++ past) post) :
      Course source past rest s s' least (.ok v b)
  | refuses {before after : List Token} {t : Token} {u : Spot} {b : Lookahead} (hrest : rest = before ++ t :: after)
      (hrun : s.run? before = some u) (hstep : u.step? t = none) :
      Course source past rest s s' least (.error (refusal source u.place t) b)
  | runsOut {u : Spot} {b : Lookahead} (hrun : s.run? rest = some u) (hu : u.place ≠ .done) :
      Course source past rest s s' least (.error (.rejected (truncation source (rest.reverse ++ past).head?)) b)

namespace Course

variable {α β : Type} {source : String} {past rest : List Token} {s s' u : Spot} {t : Token} {least : ℕ}
  {r : EStateM.Result ParseFault Lookahead α} {x : Reading α} {f : α → Reading β} {b : Lookahead}

/-- One token more in front. -/
theorem cons (hstep : s.step? t = some u) (h : Course source (t :: past) rest u s' least r) :
    Course source past (t :: rest) s s' (least + 1) r := by
  cases h with
  | @arrives pre post v b hrest hrun hleast hb =>
    have hsplit : t :: rest = t :: pre ++ post := by rw [hrest, List.cons_append]
    refine .arrives hsplit ?_ (Nat.succ_le_succ hleast) (by simpa using hb)
    rw [Spot.run?_cons hstep, hrun]
  | @refuses before after v w b hrest hrun hnone =>
    have hsplit : t :: rest = t :: before ++ v :: after := by rw [hrest, List.cons_append]
    refine .refuses hsplit ?_ hnone
    rw [Spot.run?_cons hstep, hrun]
  | @runsOut w b hrun hw =>
    have hlast : (rest.reverse ++ t :: past).head? = ((t :: rest).reverse ++ past).head? := by simp
    rw [hlast]
    exact .runsOut (by rw [Spot.run?_cons hstep, hrun]) hw

theorem weaken {fewer : ℕ} (h : Course source past rest s s' least r) (hfewer : fewer ≤ least) :
    Course source past rest s s' fewer r := by
  cases h with
  | arrives hrest hrun hleast hb => exact .arrives hrest hrun (hfewer.trans hleast) hb
  | refuses hrest hrun hnone => exact .refuses hrest hrun hnone
  | runsOut hrun hu => exact .runsOut hrun hu

/-- One reading after another. -/
theorem bind (hx : Course source past rest s u least (x b))
    (hf : ∀ pre post v b', rest = pre ++ post → least ≤ pre.length → b'.Stands source (pre.reverse ++ past) post →
      Course source (pre.reverse ++ past) post u s' 0 (f v b')) :
    Course source past rest s s' least ((x >>= f) b) := by
  cases hres : x b with
  | error e b' =>
    rw [Reading.bind_of_error hres]
    rw [hres] at hx
    cases hx with
    | refuses hrest hrun hnone => exact .refuses hrest hrun hnone
    | runsOut hrun hu => exact .runsOut hrun hu
  | ok v b' =>
    rw [Reading.bind_of_ok hres]
    rw [hres] at hx
    cases hx with
    | @arrives pre post _ _ hrest hrun hleast hb =>
      subst hrest
      have hrest := hf pre post v b' rfl hleast hb
      generalize f v b' = r at hrest ⊢
      cases hrest with
      | @arrives mid post' w b'' hpost hrun' _ hb' =>
        have hsplit : pre ++ post = pre ++ mid ++ post' := by rw [hpost, List.append_assoc]
        refine .arrives hsplit ?_ ?_ (by simpa using hb')
        · rw [Spot.run?_append_of hrun, hrun']
        · rw [List.length_append]
          omega
      | @refuses before after t w b'' hpost hrun' hnone =>
        have hsplit : pre ++ post = pre ++ before ++ t :: after := by rw [hpost, List.append_assoc]
        refine .refuses hsplit ?_ hnone
        rw [Spot.run?_append_of hrun, hrun']
      | @runsOut w b'' hrun' hw =>
        have hlast : post.reverse ++ (pre.reverse ++ past) = (pre ++ post).reverse ++ past := by simp
        rw [hlast]
        exact .runsOut (by rw [Spot.run?_append_of hrun, hrun']) hw

end Course

/-- A reading that refuses a token. -/
def Reading.Refuses {α : Type} (x : Reading α) (p : Place) (t : Token) : Prop :=
  ∀ b, x b = .error (refusal b.source p t) b

/-- A reading that should lead from one spot to another, over at most `room` tokens. -/
def Reading.Walks {α : Type} (room : ℕ) (x : Reading α) (s s' : Spot) : Prop :=
  ∀ source past rest (b : Lookahead), rest.length ≤ room → b.Stands source past rest →
    Course source past rest s s' 0 (x b)

namespace Course

variable {α β : Type} {source : String} {past rest : List Token} {s s' u : Spot} {t : Token} {least : ℕ}
  {x : Reading α} {v : α} {f : α → Reading β} {b : Lookahead}

/-- Reading a token that may follow, and then the others. -/
theorem accepted (hx : x.Accepts [t] v) (hb : b.Stands source past (t :: rest)) (hstep : s.step? t = some u)
    (h : ∀ b', b'.Stands source (t :: past) rest → Course source (t :: past) rest u s' least (f v b')) :
    Course source past (t :: rest) s s' (least + 1) ((x >>= f) b) := by
  obtain ⟨b', hread, hb'⟩ := hx source past rest b hb
  rw [Reading.bind_of_ok hread]
  exact (h b' hb').cons hstep

/-- Reading on as a walk. -/
theorem bind_walks (hx : Course source past rest s u least (x b)) (hf : ∀ v, (f v).Walks rest.length u s') :
    Course source past rest s s' least ((x >>= f) b) := by
  refine hx.bind fun pre post v b' hsplit _ hb' => ?_
  subst hsplit
  exact hf v source _ post b' (by simp) hb'

/-- Reading a token that may not follow. -/
theorem token_refuses {f : Token → Reading α} (hb : b.Stands source past (t :: rest)) (hstep : s.step? t = none)
    (h : (f t).Refuses s.place t) : Course source past (t :: rest) s s' least ((Parse.token >>= f) b) := by
  obtain ⟨b', htoken, hb'⟩ := hb.token
  rw [Reading.bind_of_ok htoken, h b', hb'.source_eq]
  have hsplit : t :: rest = [] ++ t :: rest := rfl
  exact .refuses hsplit rfl hstep

end Course

namespace Reading.Walks

variable {α β : Type} {room : ℕ} {x : Reading α} {f : α → Reading β} {s s' u : Spot}

theorem mono {more : ℕ} (h : x.Walks more s s') (hroom : room ≤ more) : x.Walks room s s' :=
  fun source past rest b hrest => h source past rest b (hrest.trans hroom)

theorem pure (v : α) : (pure v : Reading α).Walks room s s := by
  intro source past rest b _ hb
  have hsplit : rest = [] ++ rest := rfl
  exact .arrives hsplit rfl le_rfl hb

theorem bind (hx : x.Walks room s u) (hf : ∀ v, (f v).Walks room u s') : (x >>= f).Walks room s s' := by
  intro source past rest b hrest hb
  refine (hx source past rest b hrest hb).bind fun pre post v b' hsplit _ hb' => ?_
  subst hsplit
  rw [List.length_append] at hrest
  exact hf v source _ post b' (by omega) hb'

theorem map (hx : x.Walks room s s') (g : α → β) : (x >>= fun v => Pure.pure (g v)).Walks room s s' :=
  hx.bind fun v => pure (g v)

/-- Reading a token and then what depends on it. -/
theorem token {f : Token → Reading α} (hs : s.place ≠ .done)
    (h : ∀ t, (∃ u, s.step? t = some u ∧ (f t).Walks (room - 1) u s') ∨ s.step? t = none ∧ (f t).Refuses s.place t) :
    (Parse.token >>= f).Walks room s s' := by
  intro source past rest b hrest hb
  cases rest with
  | nil =>
    obtain ⟨b', htoken⟩ := hb.token_nil
    rw [Reading.bind_of_error htoken]
    exact .runsOut rfl hs
  | cons t rest =>
    rw [List.length_cons] at hrest
    rcases h t with ⟨u, hstep, hwalk⟩ | ⟨hstep, hrefuses⟩
    · have hcourse := Course.accepted (token_accepts t) hb hstep fun b' hb' => hwalk source _ rest b' (by omega) hb'
      exact hcourse.weaken (Nat.zero_le _)
    · exact .token_refuses hb hstep hrefuses

end Reading.Walks

namespace Parse

open Reading

variable {α : Type} {t : Token} {p q : Place} {kind stop : TokenKind} {d e bound room : ℕ}

theorem unexpected_refuses (h : p ≠ .value) : (unexpected t : Reading α).Refuses p t := by
  intro b
  rw [refusal, if_neg h]
  rfl

/-- Before a token of which only one kind may follow. -/
theorem accept_walks (hstep : ∀ t, t.kind = kind → Spot.step? ⟨p, d⟩ t = some ⟨q, e⟩)
    (hother : ∀ other, other ≠ kind → p.next? other = none := by
      intro other h; cases other <;> first | rfl | exact absurd rfl h)
    (hp : p ≠ .value ∧ p ≠ .done := by decide) :
    (accept kind).Walks room ⟨p, d⟩ ⟨q, e⟩ := by
  rw [accept_eq]
  refine .token hp.2 fun t => ?_
  by_cases ht : t.kind = kind
  · rw [if_pos ht]
    exact .inl ⟨_, hstep t ht, .pure t⟩
  · rw [if_neg ht]
    exact .inr ⟨Spot.step?_eq_none (hother _ ht), unexpected_refuses hp.1⟩

theorem ident_walks (hstep : p.next? .ident = some q)
    (hother : ∀ other, other ≠ .ident → p.next? other = none := by
      intro other h; cases other <;> first | rfl | exact absurd rfl h)
    (hp : p ≠ .value ∧ p ≠ .done := by decide) : ident.Walks room ⟨p, d⟩ ⟨q, d⟩ :=
  (accept_walks (fun _ ht => Spot.step?_kind ht hstep ⟨hp.1, by simp⟩) hother hp).map _

/-- In a list of names. -/
theorem identsUntil_walks (hident : p.next? .ident = some p) (hstop : p.next? stop = some q)
    (hother : ∀ other, other ≠ stop → other ≠ .ident → p.next? other = none := by
      intro other h h'; cases other <;> first | rfl | exact absurd rfl h | exact absurd rfl h')
    (hp : p ≠ .value ∧ p ≠ .done := by decide)
    (hkind : stop ≠ .ident ∧ stop ≠ .closeBrace ∧ stop ≠ .finish ∧ stop ≠ .openBrace := by simp) :
    (identsUntil stop bound).Walks bound ⟨p, d⟩ ⟨q, d⟩ := by
  induction bound with
  | zero =>
    intro source past rest b hrest hb
    obtain rfl : rest = [] := List.length_eq_zero_iff.1 (Nat.le_zero.1 hrest)
    rw [identsUntil, hb.exhausted]
    exact .runsOut rfl hp.2
  | succ bound ih =>
    refine .token hp.2 fun t => ?_
    by_cases ht : t.kind = stop
    · rw [if_pos ht]
      exact .inl ⟨_, Spot.step?_kind ht hstop ⟨hp.1, hkind.2⟩, .pure _⟩
    · rw [if_neg ht]
      by_cases hi : t.kind = .ident
      · rw [if_pos hi]
        exact .inl ⟨_, Spot.step?_kind hi hident ⟨hp.1, by simp⟩, ih.map _⟩
      · rw [if_neg hi]
        exact .inr ⟨Spot.step?_eq_none (hother _ ht hi), unexpected_refuses hp.1⟩

theorem mark_of_signed (h : t.Signed) :
    ¬ ((Ident.ofText t.text).mark = .none ∨ (Ident.ofText t.text).mark = .floor) := by
  rcases h with h | h <;> simp [Ident.ofText, Mark.ofText, Mark.ofChar?, h]

theorem step?_badValue (h : t.BadValue) : Spot.step? ⟨.value, d⟩ t = none := by
  simp [Spot.step?, Spot.Offends, h]

theorem value_walks : value.Walks room ⟨.value, d⟩ ⟨.ending, d⟩ := by
  refine .token (by simp) fun t => ?_
  cases hkind : t.kind
  case number =>
    cases hread : readInt? t.text with
    | none =>
      have hbad : t.BadValue := .inr (.inl ⟨hkind, hread⟩)
      refine .inr ⟨step?_badValue hbad, fun b => ?_⟩
      simp only [refusal, hkind, if_true]
      rfl
    | some n =>
      have hok : ¬ t.BadValue := by simp [Token.BadValue, hkind, hread]
      exact .inl ⟨_, Spot.step?_value (by rw [hkind]; rfl) hok, .pure _⟩
  case character =>
    cases htext : t.text.toList with
    | nil =>
      have hbad : t.BadValue := .inr (.inr ⟨hkind, String.toList_eq_nil_iff.1 htext⟩)
      refine .inr ⟨step?_badValue hbad, fun b => ?_⟩
      simp only [refusal, hkind, if_true]
      rfl
    | cons c cs =>
      have hne : t.text ≠ "" := fun hempty => by simp [hempty] at htext
      have hok : ¬ t.BadValue := by simp [Token.BadValue, hkind, hne]
      exact .inl ⟨_, Spot.step?_value (by rw [hkind]; rfl) hok, .pure _⟩
  case ident =>
    by_cases hsign : t.Signed
    · refine .inr ⟨step?_badValue (.inl ⟨hkind, hsign⟩), fun b => ?_⟩
      simp only [if_neg (mark_of_signed hsign), refusal, hkind, if_true]
      rfl
    · have hok : ¬ t.BadValue := by simp [Token.BadValue, hkind, hsign]
      simp only [if_pos (mark_of_not_signed hsign)]
      exact .inl ⟨_, Spot.step?_value (by rw [hkind]; rfl) hok, .pure _⟩
  all_goals
    refine .inr ⟨Spot.step?_eq_none (by rw [hkind]; rfl), fun b => ?_⟩
    simp only [refusal, hkind, if_true]
    rfl

theorem semicolon_walks : (accept .semicolon).Walks room ⟨.ending, d⟩ ⟨.start, d⟩ :=
  accept_walks fun _ ht => Spot.step?_kind ht rfl

theorem openBrace_walks : (accept .openBrace).Walks room ⟨.braced, d⟩ ⟨.start, d + 1⟩ :=
  accept_walks fun _ ht => Spot.step?_openBrace ht rfl

section Statement

variable {block : TokenKind → Reading (List Stmt)}

theorem control_walks (hblock : (block .closeBrace).Walks room ⟨.start, d + 1⟩ ⟨.start, d⟩) :
    (control block).Walks room ⟨.subject, d⟩ ⟨.start, d⟩ :=
  (ident_walks rfl).bind fun _ => .bind openBrace_walks fun _ => hblock.map _

theorem definition_walks (hblock : (block .closeBrace).Walks room ⟨.start, d + 1⟩ ⟨.start, d⟩)
    (hroom : room ≤ bound) : (definition block bound).Walks room ⟨.function, d⟩ ⟨.start, d⟩ := by
  have hparen : (accept .openParen).Walks room ⟨.functionParen, d⟩ ⟨.parameters, d⟩ :=
    accept_walks fun _ ht => Spot.step?_kind ht rfl
  have hparameters : (identsUntil .closeParen bound).Walks bound ⟨.parameters, d⟩ ⟨.braced, d⟩ :=
    identsUntil_walks rfl rfl
  exact (ident_walks rfl).bind fun _ => hparen.bind fun _ => (hparameters.mono hroom).bind fun _ =>
    .bind openBrace_walks fun _ => hblock.map _

variable {source : String} {past rest : List Token} {i u : Token} {b : Lookahead}

/-- The targets of an assignment behind the first one, if there is no call. -/
theorem targets_course (hb : b.Stands source past (u :: rest)) (hu : u.kind = .ident ∨ u.kind = .equals)
    (hbound : rest.length < bound) :
    Course source past (u :: rest) ⟨.lead, d⟩ ⟨.value, d⟩ 1 (identsUntil .equals bound b) := by
  obtain ⟨n, rfl⟩ := Nat.exists_eq_succ_of_ne_zero (Nat.ne_of_gt (Nat.zero_lt_of_lt hbound))
  rcases hu with hu | hu
  · have htargets : (identsUntil .equals n).Walks n ⟨.targets, d⟩ ⟨.value, d⟩ := identsUntil_walks rfl rfl
    refine .accepted (token_accepts u) hb (Spot.step?_kind hu rfl) fun b' hb' => ?_
    rw [if_neg (by simp [hu]), if_pos hu]
    exact htargets.map _ source _ rest b' (by omega) hb'
  · refine .accepted (token_accepts u) hb (Spot.step?_kind hu rfl) fun b' hb' => ?_
    rw [if_pos hu]
    exact Reading.Walks.pure _ source _ rest b' le_rfl hb'

theorem assignment_course (hb : b.Stands source past (i :: u :: rest)) (hi : i.kind = .ident)
    (hu : u.kind = .ident ∨ u.kind = .equals) (hbound : rest.length + 1 < bound) :
    Course source past (i :: u :: rest) ⟨.start, d⟩ ⟨.start, d⟩ 1 (assignment bound b) := by
  obtain ⟨n, rfl⟩ := Nat.exists_eq_succ_of_ne_zero (Nat.ne_of_gt (Nat.zero_lt_of_lt hbound))
  have htargets : Course source past (i :: u :: rest) ⟨.start, d⟩ ⟨.value, d⟩ 1 (identsUntil .equals (n + 1) b) := by
    refine .accepted (token_accepts i) hb (Spot.step?_kind hi rfl) fun b' hb' => ?_
    rw [if_neg (by simp [hi]), if_pos hi]
    have hothers : Course source (i :: past) (u :: rest) ⟨.lead, d⟩ ⟨.value, d⟩ 1 (identsUntil .equals n b') :=
      targets_course hb' hu (by omega)
    exact (hothers.weaken (Nat.zero_le _)).bind_walks fun _ => .pure _
  exact htargets.bind_walks fun _ => .bind value_walks fun _ => .map semicolon_walks _

theorem call_course (hb : b.Stands source past (i :: u :: rest)) (hi : i.kind = .ident) (hu : u.kind = .openParen)
    (hbound : rest.length ≤ bound) :
    Course source past (i :: u :: rest) ⟨.start, d⟩ ⟨.start, d⟩ 2 (call bound b) := by
  have harguments : (identsUntil .closeParen bound).Walks bound ⟨.arguments, d⟩ ⟨.ending, d⟩ :=
    identsUntil_walks rfl rfl
  refine .accepted (ident_accepts hi) hb (Spot.step?_kind hi rfl) fun b₁ hb₁ => ?_
  refine .accepted (accept_accepts hu) hb₁ (Spot.step?_kind hu rfl) fun b₂ hb₂ => ?_
  have hcall := (harguments.mono hbound).bind fun names =>
    .map semicolon_walks fun _ => Stmt.call (Ident.ofText i.text) names
  exact hcall source _ rest b₂ le_rfl hb₂

/-- A statement that begins with an identifier. -/
theorem leading_course (hb : b.Stands source past (i :: u :: rest)) (hi : i.kind = .ident)
    (hbound : rest.length + 1 < bound) :
    Course source past (i :: u :: rest) ⟨.start, d⟩ ⟨.start, d⟩ 1 (leading bound u b) := by
  have hlead : Spot.run? ⟨.start, d⟩ [i] = some ⟨.lead, d⟩ := Spot.run?_cons (Spot.step?_kind hi rfl)
  have hsplit : i :: u :: rest = [i] ++ u :: rest := rfl
  cases hu : u.kind
  case openParen =>
    simp only [leading, hu]
    have hcall := call_course (d := d) hb hi hu (by omega : rest.length ≤ bound)
    exact hcall.weaken (by omega)
  case ident =>
    simp only [leading, hu]
    exact assignment_course hb hi (.inl hu) hbound
  case equals =>
    simp only [leading, hu]
    exact assignment_course hb hi (.inr hu) hbound
  all_goals
    simp only [leading, hu]
    rw [unexpected_refuses (p := .lead) (by simp) b, hb.source_eq]
    exact .refuses hsplit hlead (Spot.step?_eq_none (by rw [hu]; rfl))

/-- A statement. A token that closes the block or the source is not for it. -/
theorem statement_course {t : Token} (hblock : (block .closeBrace).Walks room ⟨.start, d + 1⟩ ⟨.start, d⟩)
    (hb : b.Stands source past (t :: rest)) (hroom : rest.length ≤ room) (hclose : t.kind = .closeBrace → d = 0)
    (hfinish : t.kind = .finish → d ≠ 0) :
    Course source past (t :: rest) ⟨.start, d⟩ ⟨.start, d⟩ 1 (statement block (room + 1) b) := by
  have hnames : (identsUntil .semicolon (room + 1)).Walks (room + 1) ⟨.names, d⟩ ⟨.start, d⟩ :=
    identsUntil_walks rfl rfl
  cases hkind : t.kind
  case keyword w =>
    cases w <;> refine .accepted (token_accepts t) hb (Spot.step?_kind hkind rfl) fun b' hb' => ?_ <;> simp only [hkind]
    case declare | print | read => exact hnames.map _ source _ rest b' (by omega) hb'
    case branch | loop => exact (control_walks hblock).map _ source _ rest b' hroom hb'
    case define => exact definition_walks hblock (by omega) source _ rest b' hroom hb'
  case ident =>
    -- the parser looks one token further here, so the end of the tokens is a case of its own
    cases rest with
    | nil =>
      obtain ⟨b₁, htoken, hb₁⟩ := hb.token
      obtain ⟨b₂, hpeek⟩ := hb₁.peekToken_nil
      have hlead : Spot.run? ⟨.start, d⟩ [t] = some ⟨.lead, d⟩ := Spot.run?_cons (Spot.step?_kind hkind rfl)
      rw [statement, Reading.bind_of_ok htoken]
      simp only [hkind]
      rw [callOrAssignment, Reading.bind_of_error hpeek]
      exact .runsOut hlead (by simp)
    | cons u rest =>
      obtain ⟨b', hb', hstatement⟩ := statement_lead block (room + 1) hb hkind
      rw [hstatement]
      exact leading_course hb' hkind (by rw [List.length_cons] at hroom; omega)
  all_goals
    refine .token_refuses hb ?_ (by simpa only [hkind] using unexpected_refuses (by simp))
  case closeBrace => simp [Spot.step?, Spot.Offends, hkind, hclose hkind]
  case finish => simp [Spot.step?, Spot.Offends, hkind, hfinish hkind]
  all_goals exact Spot.step?_eq_none (by rw [hkind]; rfl)

end Statement

/-- The spots between which a token of a kind ends statements. -/
inductive Closes : TokenKind → Spot → Spot → Prop
  | program : Closes .finish ⟨.start, 0⟩ ⟨.done, 0⟩
  | block (d : ℕ) : Closes .closeBrace ⟨.start, d + 1⟩ ⟨.start, d⟩

theorem Closes.step? {s s' : Spot} (h : Closes stop s s') (ht : t.kind = stop) : s.step? t = some s' := by
  cases h with
  | program => exact Spot.step?_finish ht
  | block => exact Spot.step?_closeBrace ht

/-- Statements, up to the token that closes them. -/
theorem statements_walks {s s' : Spot} (h : Closes stop s s') : (statements bound stop).Walks bound s s' := by
  induction bound generalizing stop s s' with
  | zero =>
    intro source past rest b hrest hb
    obtain rfl : rest = [] := List.length_eq_zero_iff.1 (Nat.le_zero.1 hrest)
    rw [statements, hb.exhausted]
    exact .runsOut rfl (by cases h <;> simp)
  | succ bound ih =>
    intro source past rest b hrest hb
    cases rest with
    | nil =>
      obtain ⟨b', hpeek⟩ := hb.peekToken_nil
      rw [statements, Reading.bind_of_error hpeek]
      exact .runsOut rfl (by cases h <;> simp)
    | cons t rest =>
      obtain ⟨b₁, hpeek, hb₁⟩ := hb.peekToken
      rw [statements, Reading.bind_of_ok hpeek]
      rw [List.length_cons] at hrest
      by_cases ht : t.kind = stop
      · rw [if_pos ht]
        have hclosed : Course source past (t :: rest) s s' 1 ((accept stop >>= fun _ => pure ([] : List Stmt)) b₁) :=
          .accepted (accept_accepts ht) hb₁ (h.step? ht) fun b' hb' =>
            Reading.Walks.pure _ source _ rest b' le_rfl hb'
        exact hclosed.weaken (Nat.zero_le _)
      · rw [if_neg ht]
        have hfirst : Course source past (t :: rest) s s 1 (statement (statements bound) (bound + 1) b₁) := by
          cases h with
          | program => exact statement_course (ih (.block 0)) hb₁ (by omega) (by simp) (absurd · ht)
          | block d => exact statement_course (ih (.block (d + 1))) hb₁ (by omega) (absurd · ht) (by simp)
        -- a statement takes a token, and so the rest is short enough for the next step
        refine (hfirst.bind fun pre post first b' hsplit hpre hb' => ?_).weaken (Nat.zero_le _)
        have hlength := congrArg List.length hsplit
        rw [List.length_cons, List.length_append] at hlength
        exact (ih h).map _ source _ post b' (by omega) hb'

end Parse

/-- A parse ends in a program, at the first token that does not lead on, or behind the last token. -/
theorem parse_course (source : String) (tokens : List Token) :
    (∃ pre post program, tokens = pre ++ post ∧ Spot.origin.run? pre = some ⟨.done, 0⟩ ∧
      parse source tokens = .ok program) ∨
    (∃ before t after u, tokens = before ++ t :: after ∧ Spot.origin.run? before = some u ∧ u.step? t = none ∧
      parse source tokens = .error (refusal source u.place t)) ∨
    (∃ u, Spot.origin.run? tokens = some u ∧ u.place ≠ .done ∧
      parse source tokens = .error (.rejected (truncation source tokens.getLast?))) := by
  have h := statements_walks .program source [] tokens _ (Nat.le_succ _) (stands_ofTokens source tokens)
  rw [parse]
  generalize statements (tokens.length + 1) .finish (ofTokens source tokens) = r at h ⊢
  cases h with
  | arrives hsplit hrun => exact .inl ⟨_, _, _, hsplit, hrun, rfl⟩
  | refuses hsplit hrun hstep => exact .inr (.inl ⟨_, _, _, _, hsplit, hrun, hstep, rfl⟩)
  | runsOut hrun hu =>
    rw [List.append_nil, List.head?_reverse]
    exact .inr (.inr ⟨_, hrun, hu, rfl⟩)

end TapeCompiler
