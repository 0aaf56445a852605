import TapeCompiler.Proofs.Syntax.Descent

/-!
# Histories of a reader

A reader has three slots and a counter, and what it does with them is to move a cursor over its tokens. This holds
after all moves that anyone may make, not only those that the parser makes: as long as there is a token to be read, and
no more than two tokens are put back, nor more than have been read.

* `Cursor`: a place among tokens and the furthest place so far; `Cursor.after`: where a move leads.
* `Cursor.Permits`, `Cursor.PermitsAll`: the moves that one may make.
* `Lookahead.StandsAt`: a reader that stands where a cursor is; `StandsAt.step`: and goes where it goes.
* `reader_is_cursor`: **after all permitted moves, a reader answers as a cursor would.**
-/

namespace TapeCompiler

open Lookahead (Op between)

/-! ## Cursors -/

/-- A place among tokens, given by the number of tokens before it, and the furthest place so far. -/
structure Cursor where
  place : ℕ
  reach : ℕ
  place_le : place ≤ reach
  deriving DecidableEq

namespace Cursor

/-- Before the first token. -/
def start : Cursor :=
  ⟨0, 0, le_rfl⟩

/-- How many tokens are put back: those between the place and the furthest place. -/
def outstanding (c : Cursor) : ℕ :=
  c.reach - c.place

/-- Where a move leads. A token that is looked at has been reached. -/
def after (c : Cursor) : Op → Cursor
  | .next | .accept _ => ⟨c.place + 1, max c.reach (c.place + 1), le_max_right _ _⟩
  | .peek => ⟨c.place, max c.reach (c.place + 1), le_max_of_le_left c.place_le⟩
  | .backup => ⟨c.place - 1, c.reach, (Nat.sub_le _ _).trans c.place_le⟩

/-- Where moves lead, one after the other. -/
def afterAll (c : Cursor) (ops : List Op) : Cursor :=
  ops.foldl after c

/-- The moves that one may make: only a token that there is can be read, and one may put back two tokens, if so many
have been read. -/
def Permits (tokens : List Token) (c : Cursor) : Op → Prop
  | .next | .peek | .accept _ => c.place < tokens.length
  | .backup => c.outstanding + 1 ≤ 2 ∧ c.outstanding + 1 ≤ c.reach

instance decidablePermits (tokens : List Token) (c : Cursor) : ∀ op, Decidable (c.Permits tokens op)
  | .next | .peek | .accept _ => inferInstanceAs (Decidable (c.place < tokens.length))
  | .backup => inferInstanceAs (Decidable (c.outstanding + 1 ≤ 2 ∧ c.outstanding + 1 ≤ c.reach))

/-- One may make these moves, one after the other. -/
def PermitsAll (tokens : List Token) : Cursor → List Op → Prop
  | _, [] => True
  | c, op :: ops => c.Permits tokens op ∧ (c.after op).PermitsAll tokens ops

instance decidablePermitsAll (tokens : List Token) : ∀ (c : Cursor) (ops : List Op), Decidable (c.PermitsAll tokens ops)
  | _, [] => isTrue trivial
  | c, op :: ops =>
    have := decidablePermitsAll tokens (c.after op) ops
    inferInstanceAs (Decidable (c.Permits tokens op ∧ (c.after op).PermitsAll tokens ops))

/-! What a move does to the number of tokens that are put back. -/

theorem outstanding_next (c : Cursor) : (c.after .next).outstanding = c.outstanding - 1 := by
  simp only [outstanding, after]
  omega

theorem outstanding_peek (c : Cursor) : (c.after .peek).outstanding = c.outstanding - 1 + 1 := by
  have hle := c.place_le
  simp only [outstanding, after]
  omega

theorem outstanding_backup {c : Cursor} (h : 0 < c.place) : (c.after .backup).outstanding = c.outstanding + 1 := by
  have hle := c.place_le
  simp only [outstanding, after]
  omega

end Cursor

/-! ## Readers -/

namespace Lookahead

variable {source : String} {tokens : List Token} {c : Cursor} {b b' : Lookahead} {t : Token} {op : Op}

/-- The reader that a move leaves, also when it fails. -/
def after (b : Lookahead) (op : Op) : Lookahead :=
  match perform op b with
  | .ok _ b' => b'
  | .error _ b' => b'

/-- The reader that moves leave, one after the other, also when some fail. -/
def afterAll (b : Lookahead) (ops : List Op) : Lookahead :=
  ops.foldl after b

theorem after_of_ok {v : Option Token} (h : perform op b = .ok v b') : b.after op = b' := by
  rw [after, h]

theorem after_of_error {e : ParseFault} (h : perform op b = .error e b') : b.after op = b' := by
  rw [after, h]

section

variable {n : ℕ} (ht : tokens[n]? = some t)

include ht

theorem drop_eq_cons : tokens.drop n = t :: tokens.drop (n + 1) := by
  rw [List.drop_eq_getElem?_toList_append, ht]
  rfl

theorem reverse_take_succ : (tokens.take (n + 1)).reverse = t :: (tokens.take n).reverse := by
  simp [List.take_add_one, ht]

end

/-- A reader that stands where a cursor is: the slots and the counter are what they would be if it had read all tokens
up to the furthest place and then put back those behind the cursor. -/
structure StandsAt (b : Lookahead) (source : String) (tokens : List Token) (c : Cursor) : Prop where
  eq_between : b = between source (tokens.take c.place).reverse (tokens.drop c.place) c.outstanding
  outstanding_le : c.outstanding ≤ 2
  reach_le : c.reach ≤ tokens.length

theorem standsAt_ofTokens (source : String) (tokens : List Token) :
    (ofTokens source tokens).StandsAt source tokens .start :=
  ⟨rfl, by decide, Nat.zero_le _⟩

namespace StandsAt

theorem back_eq (h : b.StandsAt source tokens c) : b.back = c.outstanding := by
  rw [h.eq_between]
  rfl

/-- What has been read is what comes before the furthest place. -/
theorem upcoming_eq (h : b.StandsAt source tokens c) : b.upcoming = tokens.drop c.reach := by
  have hreach : c.place + c.outstanding = c.reach := Nat.add_sub_cancel' c.place_le
  rw [h.eq_between]
  simp only [between]
  rw [List.drop_drop, hreach]

/-- Where there is a token behind the cursor, the reader stands before it. -/
theorem eq_between_cons (h : b.StandsAt source tokens c) (ht : tokens[c.place]? = some t) :
    b = between source (tokens.take c.place).reverse (t :: tokens.drop (c.place + 1)) c.outstanding := by
  rw [← drop_eq_cons ht]
  exact h.eq_between

section

variable (h : b.StandsAt source tokens c) (ht : tokens[c.place]? = some t)

include h ht

/-- No more tokens are put back than stand behind the cursor. -/
theorem outstanding_le_rest : c.outstanding ≤ (tokens.drop (c.place + 1)).length + 1 := by
  have hreach := h.reach_le
  obtain ⟨hlt, -⟩ := List.getElem?_eq_some_iff.1 ht
  rw [List.length_drop, Cursor.outstanding]
  omega

theorem reads : next b = .ok (some t) (b.after .next) ∧ (b.after .next).StandsAt source tokens (c.after .next) := by
  obtain ⟨hlt, -⟩ := List.getElem?_eq_some_iff.1 ht
  have hless := h.outstanding_le
  have hnext : next b = .ok (some t) (between source (tokens.take (c.place + 1)).reverse
      (tokens.drop (c.place + 1)) (c.after .next).outstanding) := by
    rw [reverse_take_succ ht, c.outstanding_next, h.eq_between_cons ht]
    exact next_between hless (h.outstanding_le_rest ht)
  have hafter : b.after .next = _ := after_of_ok hnext
  rw [hafter]
  refine ⟨hnext, rfl, ?_, max_le h.reach_le hlt⟩
  rw [c.outstanding_next]
  omega

theorem looks : peek b = .ok (some t) (b.after .peek) ∧ (b.after .peek).StandsAt source tokens (c.after .peek) := by
  obtain ⟨hlt, -⟩ := List.getElem?_eq_some_iff.1 ht
  have hless := h.outstanding_le
  have hpeek : peek b = .ok (some t) (between source (tokens.take c.place).reverse (tokens.drop c.place)
      (c.after .peek).outstanding) := by
    rw [drop_eq_cons ht, c.outstanding_peek, h.eq_between_cons ht]
    exact peek_between hless (h.outstanding_le_rest ht)
  have hafter : b.after .peek = _ := after_of_ok hpeek
  rw [hafter]
  refine ⟨hpeek, rfl, ?_, max_le h.reach_le hlt⟩
  rw [c.outstanding_peek]
  omega

/-- A token that does not fit is read all the same. -/
theorem accepts (kind : TokenKind) :
    accept kind b = if t.kind = kind then .ok t (b.after .next) else .error (misfit source t) (b.after .next) := by
  obtain ⟨hnext, hafter⟩ := h.reads ht
  have hsource : (b.after .next).source = source := congrArg Lookahead.source hafter.eq_between
  have hread : Parse.token b = .ok t (b.after .next) := Reading.bind_of_ok hnext
  rw [Parse.accept_eq, Reading.bind_of_ok hread]
  split_ifs
  · rfl
  · conv_rhs => rw [← hsource]
    rfl

theorem after_accept (kind : TokenKind) : b.after (.accept kind) = b.after .next := by
  have haccept := h.accepts ht kind
  split_ifs at haccept
  · exact after_of_ok (Reading.bind_of_ok haccept)
  · exact after_of_error (Reading.bind_of_error haccept)

end

theorem puts_back (h : b.StandsAt source tokens c) (hop : c.Permits tokens .backup) :
    backup b = .ok () (b.after .backup) ∧ (b.after .backup).StandsAt source tokens (c.after .backup) := by
  obtain ⟨hdepth, hread⟩ := hop
  have hle := c.place_le
  have hreach := h.reach_le
  have hpos : 0 < c.place := by
    rw [Cursor.outstanding] at hread
    omega
  -- the token before the cursor is the one that is put back
  have hsucc : c.place - 1 + 1 = c.place := Nat.sub_add_cancel hpos
  have hlt : c.place - 1 < tokens.length := by omega
  obtain ⟨t, ht⟩ : ∃ t, tokens[c.place - 1]? = some t := ⟨_, List.getElem?_eq_getElem hlt⟩
  have htake := reverse_take_succ ht
  have hdrop := drop_eq_cons ht
  rw [hsucc] at htake hdrop
  have hbackup : backup b = .ok () (between source (tokens.take (c.place - 1)).reverse (tokens.drop (c.place - 1))
      (c.after .backup).outstanding) := by
    rw [hdrop, Cursor.outstanding_backup hpos, h.eq_between, htake]
    exact backup_between hdepth
  have hafter : b.after .backup = _ := after_of_ok (Reading.bind_of_ok hbackup)
  rw [hafter]
  refine ⟨hbackup, rfl, ?_, hreach⟩
  rw [Cursor.outstanding_backup hpos]
  exact hdepth

/-- **A permitted move leads the reader where it leads the cursor.** -/
theorem step (h : b.StandsAt source tokens c) (hop : c.Permits tokens op) :
    (b.after op).StandsAt source tokens (c.after op) := by
  have htoken (hlt : c.place < tokens.length) : ∃ t, tokens[c.place]? = some t := ⟨_, List.getElem?_eq_getElem hlt⟩
  cases op with
  | next =>
    obtain ⟨t, ht⟩ := htoken hop
    exact (h.reads ht).2
  | peek =>
    obtain ⟨t, ht⟩ := htoken hop
    exact (h.looks ht).2
  | accept kind =>
    obtain ⟨t, ht⟩ := htoken hop
    rw [h.after_accept ht kind]
    exact (h.reads ht).2
  | backup => exact (h.puts_back hop).2

/-- **So do all permitted moves.** -/
theorem run {ops : List Op} (h : b.StandsAt source tokens c) (hops : c.PermitsAll tokens ops) :
    (b.afterAll ops).StandsAt source tokens (c.afterAll ops) := by
  induction ops generalizing b c with
  | nil => exact h
  | cons op ops ih =>
    obtain ⟨hop, hrest⟩ := hops
    exact ih (h.step hop) hrest

end StandsAt

end Lookahead

open Lookahead in
/-- **A reader is a cursor over its tokens.** Let any moves be made of which each is permitted. Then the tokens that
have been taken are those up to the furthest place, and as many are put back as lie between it and the cursor. If there
is a token at the cursor, then reading gives that token, looking gives it too, and a token of a kind is accepted if it
is of that kind and is rejected if it is not. In both cases the reader is then where reading leads. Putting back
succeeds if it is permitted. -/
theorem reader_is_cursor (source : String) {tokens : List Token} {ops : List Op}
    (hops : Cursor.start.PermitsAll tokens ops) :
    let c := Cursor.start.afterAll ops
    let b := (ofTokens source tokens).afterAll ops
    (c.reach ≤ tokens.length ∧ b.upcoming = tokens.drop c.reach ∧ b.back = c.outstanding) ∧
      (∀ t, tokens[c.place]? = some t →
        next b = .ok (some t) (b.after .next) ∧ peek b = .ok (some t) (b.after .peek) ∧
        ∀ kind, b.after (.accept kind) = b.after .next ∧
          accept kind b = if t.kind = kind then .ok t (b.after .next) else .error (misfit source t) (b.after .next)) ∧
      (c.Permits tokens .backup → backup b = .ok () (b.after .backup)) := by
  intro c b
  have h : b.StandsAt source tokens c := (standsAt_ofTokens source tokens).run hops
  refine ⟨⟨h.reach_le, h.upcoming_eq, h.back_eq⟩, fun t ht => ?_, fun hop => (h.puts_back hop).1⟩
  exact ⟨(h.reads ht).1, (h.looks ht).1, fun kind => ⟨h.after_accept ht kind, h.accepts ht kind⟩⟩

/-- The tokens of `var $a;`. -/
def declarationTokens : List Token :=
  [⟨.keyword .declare, "var", 0⟩, ⟨.ident, "$a", 4⟩, ⟨.semicolon, ";", 6⟩]

/-- Two tokens are read and put back, the first one is looked at, and then it is rejected. -/
def wanderingOps : List Op :=
  [.next, .next, .backup, .backup, .peek, .accept .semicolon]

open Lookahead in
theorem reader_is_cursor_wandering :
    Cursor.start.PermitsAll declarationTokens wanderingOps ∧
      let b := (ofTokens "var $a;" declarationTokens).afterAll wanderingOps
      b.upcoming = [⟨.semicolon, ";", 6⟩] ∧ b.back = 1 ∧
      next b = .ok (some ⟨.ident, "$a", 4⟩) (b.after .next) ∧
      peek b = .ok (some ⟨.ident, "$a", 4⟩) (b.after .peek) ∧
      accept .ident b = .ok ⟨.ident, "$a", 4⟩ (b.after .next) ∧
      accept .semicolon b = .error (misfit "var $a;" ⟨.ident, "$a", 4⟩) (b.after .next) ∧
      backup b = .ok () (b.after .backup) := by
  have hops : Cursor.start.PermitsAll declarationTokens wanderingOps := by decide
  obtain ⟨⟨-, hupcoming, hback⟩, hreads, hputs⟩ := reader_is_cursor "var $a;" hops
  obtain ⟨hnext, hpeek, haccept⟩ := hreads ⟨.ident, "$a", 4⟩ rfl
  exact ⟨hops, hupcoming, hback, hnext, hpeek, (haccept .ident).2, (haccept .semicolon).2, hputs (by decide)⟩

end TapeCompiler
