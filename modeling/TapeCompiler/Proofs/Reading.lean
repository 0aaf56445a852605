import Mathlib.Tactic.Common
import TapeCompiler.Program.Parse

/-!
# How far the parser reads

The parser reads its tokens one by one, with at most two of them put back. What it has read decides what
it does next; the tokens that it has not read, and the bound on its recursion, do not matter.

* `Reading.Alike`: two ways of reading that do the same, as long as the first one stays within some tokens.
* `Parse.statements_alike`: **the bound of the parser does not matter**, if there are no more tokens.
* `Parse.readsOn`: whether the parser asks for another token.
* `parse_append`: **tokens that the parser does not ask for do not matter.**
-/

namespace TapeCompiler

namespace Lookahead

/-- A reader with other tokens to come. -/
def facing (b : Lookahead) (ts : List Token) : Lookahead :=
  { b with upcoming := ts }

end Lookahead

namespace Reading

variable {α β : Type}

/-- How many tokens have not been read. -/
def unread : EStateM.Result ParseFault Lookahead α → ℕ
  | .ok _ b | .error _ b => b.upcoming.length

/-- Two ways of reading. Where the first one has at most `room` tokens before some others, and leaves those
others unread, the second one does the same whatever it has instead of them. If they succeed, they have
used up `spent` tokens at least. -/
structure Alike (room spent : Int) (x y : Reading α) : Prop where
  shrinks : ∀ b, unread (x b) ≤ b.upcoming.length
  same : ∀ (b : Lookahead) (us ws : List Token), us.length + b.back ≤ room → ws ≠ [] →
    ws.length ≤ unread (x (b.facing (us ++ ws))) →
    (∃ (v : α) (b' : Lookahead) (vs : List Token), x (b.facing (us ++ ws)) = .ok v (b'.facing (vs ++ ws)) ∧
      (∀ ws', y (b.facing (us ++ ws')) = .ok v (b'.facing (vs ++ ws'))) ∧
      vs.length + b'.back + spent ≤ us.length + b.back) ∨
    (∃ (e : ParseFault) (b' : Lookahead) (vs : List Token), x (b.facing (us ++ ws)) = .error e (b'.facing (vs ++ ws)) ∧
      ∀ ws', y (b.facing (us ++ ws')) = .error e (b'.facing (vs ++ ws')))

namespace Alike

variable {room room' spent spent' : Int} {x y : Reading α} {f g : α → Reading β}

theorem weaken (h : Alike room spent x y) (hroom : room' ≤ room) (hspent : spent' ≤ spent) :
    Alike room' spent' x y := by
  refine ⟨h.shrinks, fun b us ws hle hne hleft => ?_⟩
  rcases h.same b us ws (by omega) hne hleft with ⟨v, b', vs, hx, hy, hs⟩ | herror
  · exact .inl ⟨v, b', vs, hx, hy, by omega⟩
  · exact .inr herror

theorem bind (h : Alike room spent x y) (hf : ∀ v, Alike (room - spent) spent' (f v) (g v)) :
    Alike room (spent + spent') (x >>= f) (y >>= g) := by
  have hok {x : Reading α} {f : α → Reading β} {b b' : Lookahead} {v : α} (hx : x b = .ok v b') :
      (x >>= f) b = f v b' := by simp [Bind.bind, EStateM.bind, hx]
  have herr {x : Reading α} {f : α → Reading β} {b b' : Lookahead} {e : ParseFault}
      (hx : x b = .error e b') : (x >>= f) b = .error e b' := by simp [Bind.bind, EStateM.bind, hx]
  -- what the second part leaves unread the first part has left unread too
  have hfirst (b : Lookahead) : unread ((x >>= f) b) ≤ unread (x b) := by
    cases hx : x b with
    | ok v b' => rw [hok hx]; exact (hf v).shrinks b'
    | error e b' => rw [herr hx]; exact Nat.le_refl _
  refine ⟨fun b => Nat.le_trans (hfirst b) (h.shrinks b), fun b us ws hle hne hleft => ?_⟩
  rcases h.same b us ws hle hne (Nat.le_trans hleft (hfirst _)) with ⟨v, b', vs, hx, hy, hs⟩ |
    ⟨e, b', vs, hx, hy⟩
  · rw [hok hx] at hleft ⊢
    rcases (hf v).same b' vs ws (by omega) hne hleft with ⟨w, b'', us', hx', hy', hs'⟩ |
      ⟨e, b'', us', hx', hy'⟩
    · exact .inl ⟨w, b'', us', hx', fun ws' => by rw [hok (hy ws'), hy' ws'], by omega⟩
    · exact .inr ⟨e, b'', us', hx', fun ws' => by rw [hok (hy ws'), hy' ws']⟩
  · exact .inr ⟨e, b', vs, herr hx, fun ws' => herr (hy ws')⟩

theorem pure (v : α) : Alike room 0 (pure v) (pure v) :=
  ⟨fun _ => Nat.le_refl _, fun b us _ _ _ _ => .inl ⟨v, b, us, rfl, fun _ => rfl, by omega⟩⟩

/-- A fault that does not depend on the tokens to come. -/
theorem fault {e : Lookahead → ParseFault} (he : ∀ b ts, e (b.facing ts) = e b) :
    Alike room spent (fun b => .error (e b) b : Reading α) fun b => .error (e b) b := by
  refine ⟨fun _ => Nat.le_refl _, fun b us ws _ _ _ => .inr ⟨e b, b, us, ?_, fun ws' => ?_⟩⟩
  · simp only [he]
  · simp only [he]

theorem unexpected (t : Token) :
    Alike room spent (Lookahead.unexpected t : Reading α) (Lookahead.unexpected t) :=
  fault fun _ _ => rfl

theorem throw (e : ParseFault) : Alike room spent (throw e : Reading α) (throw e) :=
  fault (e := fun _ => e) fun _ _ => rfl

theorem next : Alike room 1 Lookahead.next Lookahead.next := by
  refine ⟨fun b => ?_, fun b us ws hle hne hleft => ?_⟩
  · unfold Lookahead.next Lookahead.pull
    split
    · cases hu : b.upcoming with
      | nil => simp [unread]
      | cons t ts => simp [unread]
    all_goals exact Nat.le_refl _
  · obtain ⟨source, upcoming, newest, older, oldest, back⟩ := b
    match back with
    | 0 =>
      cases us with
      | nil =>
        -- here the first token of `ws` would be read
        obtain ⟨t, ts, rfl⟩ := List.exists_cons_of_ne_nil hne
        exact absurd hleft (Nat.not_succ_le_self ts.length)
      | cons t us =>
        exact .inl ⟨some t, ⟨source, [], some t, newest, older, 0⟩, us, rfl, fun _ => rfl, by dsimp; omega⟩
    | 1 => exact .inl ⟨newest, ⟨source, [], newest, older, oldest, 0⟩, us, rfl, fun _ => rfl, by dsimp; omega⟩
    | 2 => exact .inl ⟨older, ⟨source, [], newest, older, oldest, 1⟩, us, rfl, fun _ => rfl, by dsimp; omega⟩
    | 3 => exact .inl ⟨oldest, ⟨source, [], newest, older, oldest, 2⟩, us, rfl, fun _ => rfl, by dsimp; omega⟩
    | n + 4 => exact .inr ⟨.slotBeyond, ⟨source, [], newest, older, oldest, n + 3⟩, us, rfl, fun _ => rfl⟩

theorem backup : Alike room (-1) Lookahead.backup Lookahead.backup := by
  refine ⟨fun b => ?_, fun b us ws _ _ _ => ?_⟩
  · unfold Lookahead.backup
    split <;> exact Nat.le_refl _
  · by_cases h : b.back < Lookahead.depth
    · exact .inl ⟨(), { b with back := b.back + 1 }, us, if_pos h, fun _ => if_pos h, by dsimp; omega⟩
    · exact .inr ⟨.pushbackExceeded, { b with back := b.back + 1 }, us, if_neg h, fun _ => if_neg h⟩

theorem filled (o : Option Token) : Alike room 0 (Lookahead.filled o) (Lookahead.filled o) := by
  cases o with
  | none => exact throw _
  | some t => exact pure t

theorem peek : Alike room 0 Lookahead.peek Lookahead.peek := by
  have h : Alike room (1 + (-1 + 0)) Lookahead.peek Lookahead.peek :=
    .bind next fun _ => .bind backup fun _ => pure _
  exact h.weaken (Int.le_refl _) (by omega)

theorem accept (kind : TokenKind) :
    Alike room 1 (Lookahead.accept kind) (Lookahead.accept kind) := by
  have h : Alike room (1 + (0 + 0)) (Lookahead.accept kind) (Lookahead.accept kind) := by
    refine .bind next fun o => (filled o).bind fun t => ?_
    split
    · exact pure t
    · exact unexpected t
  exact h.weaken (Int.le_refl _) (by omega)

theorem token : Alike room 1 Parse.token Parse.token :=
  .bind next fun o => filled o

theorem peekToken : Alike room 0 Parse.peekToken Parse.peekToken :=
  .bind peek fun o => filled o

theorem ident : Alike room 1 Parse.ident Parse.ident :=
  (accept .ident).bind fun _ => pure _

/-- The bound of a list of identifiers does not matter if there are fewer tokens. -/
theorem identsUntil (stop : TokenKind) {n m : ℕ} (hn : room < n) (hm : room < m) :
    Alike room 1 (Parse.identsUntil stop n) (Parse.identsUntil stop m) := by
  induction n generalizing room m with
  | zero =>
    refine ⟨fun b => Nat.le_refl _, fun b us ws hle => ?_⟩
    omega
  | succ n ih =>
    have hstep (m : ℕ) (hm : room < m + 1) :
        Alike room (1 + 0) (Parse.identsUntil stop (n + 1)) (Parse.identsUntil stop (m + 1)) := by
      unfold Parse.identsUntil
      refine .bind token fun t => ?_
      split
      · exact pure []
      · split
        · have hlist : Alike (room - 1) 1 (Parse.identsUntil stop n) (Parse.identsUntil stop m) :=
            ih (by omega) (by omega)
          exact (hlist.bind fun rest => pure (Ident.ofText t.text :: rest)).weaken (Int.le_refl _) (by omega)
        · exact unexpected t
    obtain _ | m := m
    · exact ⟨(hstep n (by omega)).shrinks, fun b us ws hle => by omega⟩
    · exact hstep m (by omega)

theorem value : Alike room 1 Parse.value Parse.value := by
  have h : Alike room (1 + 0) Parse.value Parse.value := by
    refine .bind token fun t => ?_
    split
    · split
      · exact pure _
      · exact throw _
    · split
      · exact pure _
      · exact throw _
    · dsimp only
      split
      · exact pure _
      · exact fault (e := fun b => .rejected ⟨t, b.source, _⟩) fun _ _ => rfl
    · exact unexpected t
  exact h

theorem assignment {n m : ℕ} (hn : room < n) (hm : room < m) :
    Alike room 3 (Parse.assignment n) (Parse.assignment m) :=
  (identsUntil .equals hn hm).bind fun _ => .bind value fun _ => (accept _).bind fun _ => pure _

theorem call {n m : ℕ} (hn : room < n) (hm : room < m) :
    Alike room 4 (Parse.call n) (Parse.call m) :=
  .bind ident fun _ => (accept _).bind fun _ =>
    (identsUntil .closeParen (by omega) (by omega)).bind fun _ => (accept _).bind fun _ => pure _

/-- Two tokens may be put back and read again, so that nothing is used up by looking. -/
theorem callOrAssignment {n m : ℕ} (hn : room + 1 < n) (hm : room + 1 < m) :
    Alike room 2 (Parse.callOrAssignment n) (Parse.callOrAssignment m) := by
  have h : Alike room (0 + (-1 + 3)) (Parse.callOrAssignment n) (Parse.callOrAssignment m) := by
    refine .bind peekToken fun following => .bind backup fun _ => ?_
    split
    · exact (call (by omega) (by omega)).weaken (Int.le_refl _) (by omega)
    · exact assignment (by omega) (by omega)
    · exact assignment (by omega) (by omega)
    · exact unexpected following
  exact h

section

variable {block block' : TokenKind → Reading (List Stmt)}
  (hblock : ∀ room' < room, ∀ stop, Alike room' 0 (block stop) (block' stop))

include hblock

theorem control : Alike (room - 1) 2 (Parse.control block) (Parse.control block') :=
  .bind ident fun _ => (accept _).bind fun _ => (hblock _ (by omega) _).bind fun _ => pure _

theorem definition {n m : ℕ} (hn : room < n) (hm : room < m) :
    Alike (room - 1) 4 (Parse.definition block n) (Parse.definition block' m) :=
  .bind ident fun _ => (accept _).bind fun _ => (identsUntil .closeParen (by omega) (by omega)).bind
    fun _ => (accept _).bind fun _ => (hblock _ (by omega) _).bind fun _ => pure _

/-- A statement uses up a token at least, and its blocks come behind that one. -/
theorem statement {n m : ℕ} (hn : room < n) (hm : room < m) :
    Alike room 1 (Parse.statement block n) (Parse.statement block' m) := by
  have hlist : Alike (room - 1) 1 (Parse.identsUntil .semicolon n) (Parse.identsUntil .semicolon m) :=
    identsUntil .semicolon (by omega) (by omega)
  have hcontrol := control hblock
  have h : Alike room (1 + 0) (Parse.statement block n) (Parse.statement block' m) := by
    refine .bind token fun t => ?_
    split
    · exact (hlist.bind fun _ => pure _).weaken (Int.le_refl _) (by omega)
    · exact (hlist.bind fun _ => pure _).weaken (Int.le_refl _) (by omega)
    · exact (hlist.bind fun _ => pure _).weaken (Int.le_refl _) (by omega)
    · exact (definition hblock hn hm).weaken (Int.le_refl _) (by omega)
    · exact (hcontrol.bind fun _ => pure _).weaken (Int.le_refl _) (by omega)
    · exact (hcontrol.bind fun _ => pure _).weaken (Int.le_refl _) (by omega)
    · exact (callOrAssignment (by omega) (by omega)).weaken (Int.le_refl _) (by omega)
    · exact unexpected t
  exact h

end

end Alike

end Reading

open Reading

/-- **The bound of the parser does not matter** if there are fewer tokens, and neither do tokens that it
does not read. -/
theorem Parse.statements_alike (stop : TokenKind) {room : Int} {n m : ℕ} (hn : room < n) (hm : room < m) :
    Alike room 0 (Parse.statements n stop) (Parse.statements m stop) := by
  induction n generalizing room m stop with
  | zero =>
    refine ⟨fun b => Nat.le_refl _, fun b us ws hle => ?_⟩
    omega
  | succ n ih =>
    have hstep (m : ℕ) (hm : room < m + 1) :
        Alike room (0 + 0) (Parse.statements (n + 1) stop) (Parse.statements (m + 1) stop) := by
      unfold Parse.statements
      refine .bind Alike.peekToken fun t => ?_
      split
      · exact ((Alike.accept stop).bind fun _ => .pure _).weaken (Int.le_refl _) (by omega)
      · have hfirst : Alike (room - 0) 1 (Parse.statement (Parse.statements n) (n + 1))
            (Parse.statement (Parse.statements m) (m + 1)) :=
          .statement (fun room' h stop => ih stop (by omega) (by omega)) (by omega) (by omega)
        have hrest : Alike (room - 0 - 1) 0 (Parse.statements n stop) (Parse.statements m stop) :=
          ih stop (by omega) (by omega)
        exact (hfirst.bind fun _ => hrest.bind fun _ => .pure _).weaken (Int.le_refl _) (by omega)
    obtain _ | m := m
    · exact ⟨(hstep n (by omega)).shrinks, fun b us ws hle => by omega⟩
    · exact hstep m (by omega)

/-- The parser on some tokens, with a bound on its recursion. -/
def Parse.program (source : String) (bound : ℕ) (tokens : List Token) :
    EStateM.Result ParseFault Lookahead (List Stmt) :=
  Parse.statements bound .finish (.ofTokens source tokens)

/-- What reading has come to. -/
def Reading.verdict {α : Type} : EStateM.Result ParseFault Lookahead α → Except ParseFault α
  | .ok v _ => .ok v
  | .error e _ => .error e

theorem parse_eq_verdict (source : String) (tokens : List Token) :
    parse source tokens = verdict (Parse.program source (tokens.length + 1) tokens) := by
  unfold parse Parse.program
  cases Parse.statements (tokens.length + 1) .finish (.ofTokens source tokens) <;> rfl

/-- A token that stands for any other one. -/
def Parse.probe : Token :=
  ⟨.finish, "", 0⟩

/-- Whether the parser asks for another token when it has got some: it reads one that follows them. -/
def Parse.readsOn (source : String) (got : List Token) : Bool :=
  unread (Parse.program source (got.length + 2) (got ++ [Parse.probe])) = 0

/-- **Tokens that the parser does not ask for do not matter.** -/
theorem parse_append {source : String} {got : List Token} (h : Parse.readsOn source got = false)
    (rest : List Token) : parse source (got ++ rest) = parse source got := by
  have hleft : 1 ≤ unread (Parse.program source (got.length + 2) (got ++ [Parse.probe])) := by
    simpa [Parse.readsOn, Nat.one_le_iff_ne_zero] using h
  -- with any bound and any tokens behind `got` the parser does the same as with the probe
  have hsame (n : ℕ) (hn : got.length < n) (ws : List Token) :
      verdict (Parse.program source n (got ++ ws)) =
        verdict (Parse.program source (got.length + 2) (got ++ [Parse.probe])) := by
    have halike : Alike got.length 0 (Parse.statements (got.length + 2) .finish)
        (Parse.statements n .finish) := Parse.statements_alike .finish (by omega) (by omega)
    rcases halike.same (.ofTokens source []) got [Parse.probe] (by simp [Lookahead.ofTokens])
      (by simp) hleft with ⟨v, b', vs, hx, hy, -⟩ | ⟨e, b', vs, hx, hy⟩
    · exact (congrArg verdict (hy ws)).trans (congrArg verdict hx).symm
    · exact (congrArg verdict (hy ws)).trans (congrArg verdict hx).symm
  have hgot := hsame (got.length + 1) (by omega) []
  rw [List.append_nil] at hgot
  rw [parse_eq_verdict, parse_eq_verdict, hgot]
  exact hsame _ (by simp only [List.length_append]; omega) rest

end TapeCompiler
