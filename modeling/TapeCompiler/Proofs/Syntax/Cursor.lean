import Mathlib.Tactic.Common
import TapeCompiler.Program.Parse

/-!
# A reader is a cursor

The slots of a reader hold the tokens that it has read last, whether they were put back or not. So it stands
between two tokens of a list, and its moves only shift that place.

* `Lookahead.between`: the reader that stands between some tokens and some others.
* `next_between`, `backup_between`, `peek_between`: **the moves of a reader are those of a cursor.**
* `Lookahead.Stands`: the same, whatever has been put back; and what the parser's own moves do then.
-/

namespace TapeCompiler

namespace Reading

variable {α β : Type} {x : Reading α} {f : α → Reading β} {b b' : Lookahead}

theorem bind_of_ok {v : α} (h : x b = .ok v b') : (x >>= f) b = f v b' := by
  simp [bind, EStateM.bind, h]

theorem bind_of_error {e : ParseFault} (h : x b = .error e b') : (x >>= f) b = .error e b' := by
  simp [bind, EStateM.bind, h]

end Reading

/-- The syntax error of reading behind the last token. -/
def truncation (source : String) : Option Token → SyntaxError
  | some t => ⟨⟨.finish, "", t.offset⟩, source, "Unexpected end of token stream"⟩
  | none => ⟨⟨.finish, "", 0⟩, "", "Unexpected end of token stream"⟩

namespace Lookahead

/-- The reader that stands between the tokens `past`, of which the last one comes first, and the tokens
`rest`. It has read and put back the first `back` tokens of `rest`. -/
def between (source : String) (past rest : List Token) (back : ℕ) : Lookahead :=
  let read := (rest.take back).reverse ++ past
  ⟨source, rest.drop back, read[0]?, read[1]?, read[2]?, back⟩

variable {source : String} {past rest : List Token} {t u : Token} {b : Lookahead} {back : ℕ}

theorem truncated_between : (between source past [] 0).truncated = truncation source past.head? := by
  cases past <;> rfl

/-- Reading goes one token on. -/
theorem next_between (hback : back ≤ depth) (hrest : back ≤ rest.length + 1) :
    next (between source past (t :: rest) back) = .ok (some t) (between source (t :: past) rest (back - 1)) := by
  match back, hback with
  | 0, _ => rfl
  | 1, _ => simp [next, between]
  | 2, _ =>
    obtain ⟨u, us, rfl⟩ : ∃ u us, rest = u :: us := List.exists_cons_of_length_pos (by omega)
    simp [next, between]

theorem next_between_nil (source : String) (past : List Token) :
    ∃ b', next (between source past [] 0) = .error (.rejected (truncation source past.head?)) b' := by
  rw [← truncated_between]
  exact ⟨_, rfl⟩

/-- Putting back goes one token back. -/
theorem backup_between (hback : back < depth) :
    backup (between source (t :: past) rest back) = .ok () (between source past (t :: rest) (back + 1)) := by
  simp [backup, between, hback]

/-- Looking goes nowhere. The token has been read and put back then, if it was not before. -/
theorem peek_between (hback : back ≤ depth) (hrest : back ≤ rest.length + 1) :
    peek (between source past (t :: rest) back) = .ok (some t) (between source past (t :: rest) (back - 1 + 1)) := by
  have hless : back - 1 < depth := by simp only [depth] at hback ⊢; omega
  exact (Reading.bind_of_ok (next_between hback hrest)).trans (Reading.bind_of_ok (backup_between hless))

/-! ## The moves of the parser -/

/-- A reader that stands between tokens, whatever it has put back. -/
def Stands (b : Lookahead) (source : String) (past rest : List Token) : Prop :=
  ∃ back, back ≤ depth ∧ back ≤ rest.length ∧ b = between source past rest back

theorem stands_ofTokens (source : String) (tokens : List Token) :
    (ofTokens source tokens).Stands source [] tokens :=
  ⟨0, by decide, Nat.zero_le _, rfl⟩

namespace Stands

theorem source_eq (h : b.Stands source past rest) : b.source = source := by
  obtain ⟨back, -, -, rfl⟩ := h
  rfl

theorem token (h : b.Stands source past (t :: rest)) :
    ∃ b', Parse.token b = .ok t b' ∧ b'.Stands source (t :: past) rest := by
  obtain ⟨back, hback, hrest, rfl⟩ := h
  simp only [List.length_cons] at hrest
  refine ⟨between source (t :: past) rest (back - 1), ?_, back - 1, by omega, by omega, rfl⟩
  exact Reading.bind_of_ok (next_between hback hrest)

theorem token_nil (h : b.Stands source past []) :
    ∃ b', Parse.token b = .error (.rejected (truncation source past.head?)) b' := by
  obtain ⟨back, -, hrest, rfl⟩ := h
  obtain rfl : back = 0 := by simpa using hrest
  obtain ⟨b', hnext⟩ := next_between_nil source past
  exact ⟨b', Reading.bind_of_error hnext⟩

theorem exhausted (h : b.Stands source past []) {α : Type} :
    (Parse.exhausted : Reading α) b = .error (.rejected (truncation source past.head?)) b := by
  obtain ⟨back, -, hrest, rfl⟩ := h
  obtain rfl : back = 0 := by simpa using hrest
  rw [← truncated_between]
  rfl

end Stands

theorem peekToken_between (hback : back ≤ depth) (hrest : back ≤ rest.length + 1) :
    Parse.peekToken (between source past (t :: rest) back) =
      .ok t (between source past (t :: rest) (back - 1 + 1)) :=
  Reading.bind_of_ok (peek_between hback hrest)

namespace Stands

/-- Looking at a token leaves the reader where it is. -/
theorem peekToken (h : b.Stands source past (t :: rest)) :
    ∃ b', Parse.peekToken b = .ok t b' ∧ b'.Stands source past (t :: rest) := by
  obtain ⟨back, hback, hrest, rfl⟩ := h
  simp only [List.length_cons] at hrest
  refine ⟨_, peekToken_between hback hrest, back - 1 + 1, ?_, ?_, rfl⟩
  · simp only [depth] at hback ⊢; omega
  · simp only [List.length_cons]; omega

theorem peekToken_nil (h : b.Stands source past []) :
    ∃ b', Parse.peekToken b = .error (.rejected (truncation source past.head?)) b' := by
  obtain ⟨back, -, hrest, rfl⟩ := h
  obtain rfl : back = 0 := by simpa using hrest
  obtain ⟨b', hnext⟩ := next_between_nil source past
  exact ⟨b', Reading.bind_of_error (Reading.bind_of_error hnext)⟩

/-- A reader that has read a token can look at the next one and then put both back. -/
theorem token_peek_backup (h : b.Stands source past (t :: u :: rest)) :
    ∃ b₁ b₂ b₃, Parse.token b = .ok t b₁ ∧ Parse.peekToken b₁ = .ok u b₂ ∧ backup b₂ = .ok () b₃ ∧
      b₃.Stands source past (t :: u :: rest) := by
  obtain ⟨back, hback, hrest, rfl⟩ := h
  simp only [depth, List.length_cons] at hback hrest
  have htoken : Parse.token (between source past (t :: u :: rest) back) =
      .ok t (between source (t :: past) (u :: rest) (back - 1)) :=
    Reading.bind_of_ok (next_between hback (by simpa using hrest))
  have hpeek : Parse.peekToken (between source (t :: past) (u :: rest) (back - 1)) =
      .ok u (between source (t :: past) (u :: rest) (back - 1 - 1 + 1)) :=
    peekToken_between (by simp only [depth]; omega) (by omega)
  -- one token at most was put back, and so there is a slot for this one
  have hone : back - 1 - 1 + 1 = 1 := by omega
  rw [hone] at hpeek
  exact ⟨_, _, _, htoken, hpeek, backup_between (by decide), 2, by decide, by simp, rfl⟩

end Stands

end Lookahead

end TapeCompiler
