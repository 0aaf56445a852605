import Mathlib.Tactic.Common
import TapeCompiler.Proofs.Syntax.Cursor
import TapeCompiler.Proofs.Syntax.Grammar

/-!
# Derived tokens are read

Recursive descent follows a derivation: wherever a reader stands before tokens that derive a tree, and whatever
follows them, it returns that tree and stands behind them.

* `Reading.Accepts`: a reading that goes through some tokens and returns a value.
* `statements_accepts`: **statements that are derived are read**, by induction on their derivation.
* `parse_of_program`: so is a program, and its tree is returned.
-/

namespace TapeCompiler

open Lookahead Parse Grammar

/-- Reading that goes through the tokens `ts` and returns `v`, whatever is around them. -/
def Reading.Accepts {α : Type} (x : Reading α) (ts : List Token) (v : α) : Prop :=
  ∀ source past post (b : Lookahead), b.Stands source past (ts ++ post) →
    ∃ b', x b = .ok v b' ∧ b'.Stands source (ts.reverse ++ past) post

namespace Reading.Accepts

variable {α β : Type} {x : Reading α} {f : α → Reading β} {ts us : List Token} {v : α} {w : β}

theorem pure (v : α) : Accepts (pure v : Reading α) [] v :=
  fun _ _ _ b hb => ⟨b, rfl, hb⟩

theorem bind (hx : x.Accepts ts v) (hf : (f v).Accepts us w) : (x >>= f).Accepts (ts ++ us) w := by
  intro source past post b hb
  rw [List.append_assoc] at hb
  obtain ⟨b₁, hx₁, hb₁⟩ := hx source past (us ++ post) b hb
  obtain ⟨b₂, hf₂, hb₂⟩ := hf source (ts.reverse ++ past) post b₁ hb₁
  refine ⟨b₂, (bind_of_ok hx₁).trans hf₂, ?_⟩
  rwa [List.reverse_append, List.append_assoc]

theorem bind_cons {t : Token} (hx : x.Accepts [t] v) (hf : (f v).Accepts us w) : (x >>= f).Accepts (t :: us) w :=
  hx.bind hf

theorem map (hx : x.Accepts ts v) (g : α → β) : (x >>= fun v => Pure.pure (g v)).Accepts ts (g v) := by
  have h := hx.bind (f := fun v => Pure.pure (g v)) (pure (g v))
  rwa [List.append_nil] at h

end Reading.Accepts

namespace Parse

variable {t : Token} {is ts : List Token} {kind : TokenKind} {bound : ℕ}

theorem accept_eq (kind : TokenKind) :
    accept kind = token >>= fun t => if t.kind = kind then pure t else unexpected t := by
  simp only [accept, token, bind_assoc]

theorem token_accepts (t : Token) : token.Accepts [t] t :=
  fun _ _ _ _ hb => hb.token

theorem accept_accepts (ht : t.kind = kind) : (accept kind).Accepts [t] t := by
  rw [accept_eq]
  refine (token_accepts t).bind_cons ?_
  rw [if_pos ht]
  exact .pure t

theorem ident_accepts (ht : t.kind = .ident) : ident.Accepts [t] (Ident.ofText t.text) :=
  (accept_accepts ht).map _

theorem identsUntil_accepts {e : Token} (he : e.kind = kind) (hkind : kind ≠ .ident) (his : AllIdents is)
    (hbound : is.length < bound) : (identsUntil kind bound).Accepts (is ++ [e]) (names is) := by
  induction is generalizing bound with
  | nil =>
    obtain ⟨n, rfl⟩ := Nat.exists_eq_succ_of_ne_zero (Nat.ne_of_gt hbound)
    refine (token_accepts e).bind_cons ?_
    rw [if_pos he]
    exact .pure _
  | cons i is ih =>
    obtain ⟨n, rfl⟩ := Nat.exists_eq_succ_of_ne_zero (Nat.ne_of_gt (Nat.zero_lt_of_lt hbound))
    have hi : i.kind = .ident := his i List.mem_cons_self
    have hrest : AllIdents is := fun u hu => his u (List.mem_cons_of_mem _ hu)
    have hread := ih hrest (Nat.lt_of_succ_lt_succ hbound)
    refine (token_accepts i).bind_cons ?_
    rw [if_neg (by simp [hi, hkind.symm]), if_pos hi]
    exact hread.map _

theorem mark_of_not_signed (h : ¬ t.Signed) : (Ident.ofText t.text).mark = .none ∨ (Ident.ofText t.text).mark = .floor := by
  simp only [Token.Signed, not_or] at h
  cases htext : t.text.toList with
  | nil => simp [Ident.ofText, Mark.ofText, htext]
  | cons c cs =>
    simp only [htext, List.head?_cons, Option.some.injEq] at h
    by_cases hfloor : c = '_' <;> simp [Ident.ofText, Mark.ofText, Mark.ofChar?, htext, h, hfloor]

theorem value_accepts {x : Operand} (h : Value t x) : value.Accepts [t] x := by
  refine (token_accepts t).bind_cons ?_
  cases h with
  | number hkind hn => simpa [hkind, readInt?_of_isNumeral hn] using Reading.Accepts.pure _
  | character hkind hc => simpa [hkind, hc] using Reading.Accepts.pure _
  | ident hkind hsign => simpa [hkind, mark_of_not_signed hsign] using Reading.Accepts.pure _

/-- What follows the identifier at the start of a statement tells how it goes on, and then the statement is
read from that identifier. -/
def leading (bound : ℕ) (following : Token) : Reading Stmt :=
  match following.kind with
  | .openParen => call bound
  | .ident | .equals => assignment bound
  | _ => unexpected following

theorem statement_lead (block : TokenKind → Reading (List Stmt)) (bound : ℕ) {source : String} {past rest : List Token}
    {b : Lookahead} {i u : Token} (hb : b.Stands source past (i :: u :: rest)) (hi : i.kind = .ident) :
    ∃ b', b'.Stands source past (i :: u :: rest) ∧ statement block bound b = leading bound u b' := by
  obtain ⟨b₁, b₂, b₃, htoken, hpeek, hbackup, hb₃⟩ := hb.token_peek_backup
  refine ⟨b₃, hb₃, ?_⟩
  rw [statement, Reading.bind_of_ok htoken]
  simp only [hi]
  rw [callOrAssignment, Reading.bind_of_ok hpeek, Reading.bind_of_ok hbackup]
  rfl

section Statement

variable {block : TokenKind → Reading (List Stmt)} {k i p q o a e c v : Token} {body : List Token} {s : Stmt}
  {ss : List Stmt} {x : Operand} {w : Keyword}

theorem lead_accepts (hi : i.kind = .ident) (h : (leading bound p).Accepts (i :: p :: ts) s) :
    (statement block bound).Accepts (i :: p :: ts) s := by
  intro source past post b hb
  obtain ⟨b₁, hb₁, hstatement⟩ := statement_lead block bound hb hi
  rw [hstatement]
  exact h source past post b₁ hb₁

theorem assignment_accepts (his : AllIdents is) (ha : a.kind = .equals) (hv : Value v x)
    (he : e.kind = .semicolon) (hbound : is.length < bound) :
    (assignment bound).Accepts (is ++ [a, v, e]) (.assign (names is) x) := by
  have htargets := identsUntil_accepts ha (by simp) his hbound
  have hsplit : is ++ [a, v, e] = is ++ [a] ++ [v, e] := by simp
  rw [hsplit]
  exact htargets.bind ((value_accepts hv).bind_cons ((accept_accepts he).map _))

theorem call_accepts (hi : i.kind = .ident) (hp : p.kind = .openParen) (his : AllIdents is)
    (hq : q.kind = .closeParen) (he : e.kind = .semicolon) (hbound : is.length < bound) :
    (call bound).Accepts (i :: p :: (is ++ [q, e])) (.call (Ident.ofText i.text) (names is)) := by
  have harguments := identsUntil_accepts hq (by simp) his hbound
  have hsplit : is ++ [q, e] = is ++ [q] ++ [e] := by simp
  rw [hsplit]
  exact (ident_accepts hi).bind_cons
    ((accept_accepts hp).bind_cons (harguments.bind ((accept_accepts he).map _)))

theorem definition_accepts (hi : i.kind = .ident) (hp : p.kind = .openParen) (his : AllIdents is)
    (hq : q.kind = .closeParen) (ho : o.kind = .openBrace) (hblock : (block .closeBrace).Accepts body ss)
    (hbound : is.length < bound) :
    (definition block bound).Accepts (i :: p :: (is ++ q :: o :: body))
      (.define (Ident.ofText i.text) (names is) ss) := by
  have hparameters := identsUntil_accepts hq (by simp) his hbound
  have hsplit : is ++ q :: o :: body = is ++ [q] ++ (o :: body) := by simp
  rw [hsplit]
  exact (ident_accepts hi).bind_cons ((accept_accepts hp).bind_cons
    (hparameters.bind ((accept_accepts ho).bind_cons (hblock.map _))))

theorem control_accepts (hi : i.kind = .ident) (ho : o.kind = .openBrace)
    (hblock : (block .closeBrace).Accepts body ss) :
    (control block).Accepts (i :: o :: body) (Ident.ofText i.text, ss) :=
  (ident_accepts hi).bind_cons ((accept_accepts ho).bind_cons (hblock.map _))

theorem listing_accepts {make : List Ident → Stmt} (hk : k.kind = .keyword w) (hw : listing? w = some make)
    (his : AllIdents is) (he : e.kind = .semicolon) (hbound : is.length < bound) :
    (statement block bound).Accepts (k :: (is ++ [e])) (make (names is)) := by
  have hnames := identsUntil_accepts he (by simp) his hbound
  refine (token_accepts k).bind_cons ?_
  cases w <;> cases hw <;> simp only [hk] <;> exact hnames.map _

theorem define_accepts (hk : k.kind = .keyword .define) (h : (definition block bound).Accepts ts s) :
    (statement block bound).Accepts (k :: ts) s := by
  refine (token_accepts k).bind_cons ?_
  simpa only [hk] using h

theorem branching_accepts {make : Ident → List Stmt → Stmt} (hk : k.kind = .keyword w) (hw : control? w = some make)
    (h : (control block).Accepts ts (Ident.ofText i.text, ss)) :
    (statement block bound).Accepts (k :: ts) (make (Ident.ofText i.text) ss) := by
  refine (token_accepts k).bind_cons ?_
  cases w <;> cases hw <;> simp only [hk] <;> exact h.map _

theorem peek_accepts {α : Type} {f : Token → Reading α} {r : α} (h : (f i).Accepts (i :: ts) r) :
    (peekToken >>= f).Accepts (i :: ts) r := by
  intro source past post b hb
  obtain ⟨b₁, hpeek, hb₁⟩ := Stands.peekToken hb
  rw [Reading.bind_of_ok hpeek]
  exact h source past post b₁ hb₁

end Statement

/-- A statement begins with a token that closes nothing. -/
theorem Statement.exists_cons {ts : List Token} {s : Stmt} (h : Statement ts s) :
    ∃ t us, ts = t :: us ∧ t.kind ≠ .finish ∧ t.kind ≠ .closeBrace := by
  cases h with
  | listing hk => exact ⟨_, _, rfl, by simp [hk], by simp [hk]⟩
  | define hk => exact ⟨_, _, rfl, by simp [hk], by simp [hk]⟩
  | control hk => exact ⟨_, _, rfl, by simp [hk], by simp [hk]⟩
  | call hi => exact ⟨_, _, rfl, by simp [hi], by simp [hi]⟩
  | assign hi => exact ⟨_, _, rfl, by simp [hi], by simp [hi]⟩

/-- Statements that are derived are read, with the token that closes them. -/
theorem statements_accepts {stop : TokenKind} {e : Token} {ss : List Stmt} (h : Statements ts ss)
    (he : e.kind = stop) (hstop : stop = .finish ∨ stop = .closeBrace)
    (hbound : ts.length < bound) : (statements bound stop).Accepts (ts ++ [e]) ss := by
  -- along the derivation; a statement leaves one step less for the statements of its block
  refine @Statements.rec
    (fun ts s _ => ∀ n, ts.length ≤ n + 1 → (statement (statements n) (n + 1)).Accepts ts s)
    (fun ts ss _ => ∀ stop e n, e.kind = stop → stop = .finish ∨ stop = .closeBrace → ts.length < n →
      (statements n stop).Accepts (ts ++ [e]) ss)
    ?listing ?define ?control ?call ?assign ?nil ?cons ts ss h stop e bound he hstop hbound
  case listing =>
    intro k e is w make hk hw his he n hn
    simp only [List.length_cons, List.length_append, List.length_nil] at hn
    exact listing_accepts hk hw his he (by omega)
  case define =>
    intro k i p q o c is body ss hk hi hp his hq ho _ hc ih n hn
    simp only [List.length_cons, List.length_append, List.length_nil] at hn
    have hblock := ih .closeBrace c n hc (.inr rfl) (by omega)
    exact define_accepts hk (definition_accepts hi hp his hq ho hblock (by omega))
  case control =>
    intro k i o c body ss w make hk hw hi ho _ hc ih n hn
    simp only [List.length_cons, List.length_append, List.length_nil] at hn
    have hblock := ih .closeBrace c n hc (.inr rfl) (by omega)
    exact branching_accepts hk hw (control_accepts hi ho hblock)
  case call =>
    intro i p q e is hi hp his hq he n hn
    simp only [List.length_cons, List.length_append, List.length_nil] at hn
    refine lead_accepts hi ?_
    simp only [leading, hp]
    exact call_accepts hi hp his hq he (by omega)
  case assign =>
    intro i a v e is x hi his ha hv he n hn
    simp only [List.length_cons, List.length_append, List.length_nil] at hn
    have htargets : AllIdents (i :: is) := List.forall_mem_cons.2 ⟨hi, his⟩
    have hread : (assignment (n + 1)).Accepts (i :: is ++ [a, v, e]) (.assign (names (i :: is)) x) :=
      assignment_accepts htargets ha hv he (by simp only [List.length_cons]; omega)
    cases is with
    | nil =>
      refine lead_accepts hi ?_
      simp only [leading, ha]
      exact hread
    | cons j is =>
      have hj : j.kind = .ident := his j List.mem_cons_self
      refine lead_accepts hi ?_
      simp only [leading, hj]
      exact hread
  case nil =>
    intro stop e n he _ hn
    obtain ⟨m, rfl⟩ := Nat.exists_eq_succ_of_ne_zero (Nat.ne_of_gt hn)
    refine peek_accepts ?_
    rw [if_pos he]
    exact (accept_accepts he).map _
  case cons =>
    intro ts us s ss hs _ ihs ihss stop e n he hstop hn
    obtain ⟨m, rfl⟩ := Nat.exists_eq_succ_of_ne_zero (Nat.ne_of_gt (Nat.zero_lt_of_lt hn))
    rw [List.length_append] at hn
    have hfirst := ihs m (by omega)
    obtain ⟨t, vs, rfl, hfinish, hclose⟩ := Statement.exists_cons hs
    have hrest := ihss stop e m he hstop (by simp only [List.length_cons] at hn; omega)
    have hne : t.kind ≠ stop := by
      rcases hstop with rfl | rfl <;> assumption
    refine peek_accepts ?_
    rw [if_neg hne]
    have hread := hfirst.bind (f := fun first => statements m stop >>= fun rest => pure (first :: rest))
      (hrest.map _)
    simpa using hread

end Parse

/-- A program that is derived is parsed. What follows it does not matter. -/
theorem parse_of_program {source : String} {ts us : List Token} {ss : List Stmt} (h : Program ts ss) :
    parse source (ts ++ us) = .ok ss := by
  cases h with
  | @intro ts ss e hss he =>
    have hread : (Parse.statements ((ts ++ [e] ++ us).length + 1) .finish).Accepts (ts ++ [e]) ss :=
      Parse.statements_accepts hss he (.inl rfl) (by simp only [List.length_append]; omega)
    obtain ⟨b', hok, -⟩ := hread source [] us _ (stands_ofTokens source _)
    rw [parse, hok]

end TapeCompiler
