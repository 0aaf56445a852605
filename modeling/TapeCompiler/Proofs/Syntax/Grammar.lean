import Mathlib.Data.Nat.Digits.Defs
import TapeCompiler.Program.Parse
import TapeCompiler.Text.Chars

/-!
# The grammar

    program   := statement* finish
    statement := (declare | print | read) ident* ';'
               | define ident '(' ident* ')' '{' statement* '}'
               | (branch | loop) ident '{' statement* '}'
               | ident '(' ident* ')' ';'
               | ident+ '=' value ';'
    value     := number | character | ident without '+' and '-'

Each derivation has its tree. Nothing here mentions a reader.

* `Grammar.Value`, `Grammar.Statement`, `Grammar.Statements`, `Grammar.Program`: what tokens derive.
* `Grammar.Viable`: tokens that more tokens complete to a program.
* `readInt?_of_isDigit`: decimal digits are read as the number they denote, unless there are too many.
-/

namespace TapeCompiler

/-! ## Numerals -/

/-- A text of decimal digits that is not too long. -/
structure IsNumeral (text : String) : Prop where
  ne_empty : text ≠ ""
  digits : ∀ c ∈ text.toList, isDigit c = true
  length_le : text.length ≤ maxDigits

/-- The number that a text of decimal digits denotes. -/
def decimal (text : String) : ℕ :=
  Nat.ofDigits 10 (text.toList.reverse.map fun c => c.toNat - '0'.toNat)

theorem toNat_of_isDigit {c : Char} (h : isDigit c = true) : 48 ≤ c.toNat ∧ c.toNat < 58 := by
  simp only [isDigit, Bool.and_eq_true, decide_eq_true_eq, Char.le_def, UInt32.le_iff_toNat_le] at h
  have hlow : ('0').val.toNat = 48 := rfl
  have hhigh : ('9').val.toNat = 57 := rfl
  have htoNat : c.toNat = c.val.toNat := rfl
  omega

theorem decimalValue?_of_isDigit {c : Char} (h : isDigit c = true) : decimalValue? c = some (c.toNat - 48) := by
  have hc := toNat_of_isDigit h
  rw [decimalValue?, decimalZeros, List.findSome?_cons, if_pos ⟨hc.1, by omega⟩]

theorem isPadding_of_isDigit {c : Char} (h : isDigit c = true) : isPadding c = false := by
  have hc := toNat_of_isDigit h
  have hspace : c ≠ ' ' := by
    rintro rfl
    simp at hc
  simp only [isPadding, Bool.or_eq_false_iff, Bool.and_eq_false_iff, decide_eq_false_iff_not, beq_eq_false_iff_ne]
  refine ⟨⟨⟨⟨⟨⟨⟨⟨⟨⟨?_, hspace⟩, ?_⟩, ?_⟩, ?_⟩, ?_⟩, ?_⟩, ?_⟩, ?_⟩, ?_⟩, ?_⟩ <;> omega

theorem trimPadding_of_isDigit {cs : List Char} (h : ∀ c ∈ cs, isDigit c = true) : trimPadding cs = cs := by
  have hself : ∀ ds : List Char, (∀ d ∈ ds, isDigit d = true) → ds.dropWhile isPadding = ds := by
    rintro (_ | ⟨d, ds⟩) hds
    · rfl
    · exact List.dropWhile_cons_of_neg (by simp [isPadding_of_isDigit (hds d List.mem_cons_self)])
  rw [trimPadding, hself cs h, hself cs.reverse (by simpa using h), List.reverse_reverse]

theorem digits?_of_isDigit {cs : List Char} (hne : cs ≠ []) (h : ∀ c ∈ cs, isDigit c = true) :
    digits? cs = some (cs.map fun c => c.toNat - 48) := by
  fun_induction digits? cs with
  | case1 => exact absurd rfl hne
  | case2 c => simp [decimalValue?_of_isDigit (h c List.mem_cons_self)]
  | case3 c cs ih =>
    have : isDigit '_' = true := h '_' (by simp)
    exact absurd this (by decide)
  | case4 c cs hcs _ ih =>
    have hrest := ih hcs fun d hd => h d (List.mem_cons_of_mem _ hd)
    simp [decimalValue?_of_isDigit (h c List.mem_cons_self), hrest]

theorem ofDigits_eq (ds : List ℕ) : ofDigits ds = Nat.ofDigits 10 ds.reverse := by
  rw [Nat.ofDigits_eq_foldr, List.foldr_reverse, ofDigits]
  congr 1
  funext n d
  rw [add_comm, Nat.cast_id]

/-- Decimal digits are read as the number they denote, unless there are too many. -/
theorem readInt?_of_isDigit {text : String} (hne : text ≠ "") (hdigits : ∀ c ∈ text.toList, isDigit c = true) :
    readInt? text = if text.length ≤ maxDigits then some (decimal text : ℤ) else none := by
  have hcons : text.toList ≠ [] := fun hnil => hne (String.toList_eq_nil_iff.1 hnil)
  have hread : readNat? text.toList = if text.length ≤ maxDigits then some (decimal text) else none := by
    rw [← String.length_toList]
    simp [readNat?, digits?_of_isDigit hcons hdigits, ofDigits_eq, decimal, List.map_reverse]
  rw [readInt?, trimPadding_of_isDigit hdigits]
  -- a digit is no sign
  split
  next cs hcs => exact absurd (hdigits '+' (by simp [hcs])) (by decide)
  next cs hcs => exact absurd (hdigits '-' (by simp [hcs])) (by decide)
  next =>
    rw [hread]
    split_ifs <;> rfl

theorem readInt?_of_isNumeral {text : String} (h : IsNumeral text) : readInt? text = some (decimal text : ℤ) := by
  rw [readInt?_of_isDigit h.ne_empty h.digits, if_pos h.length_le]

/-- A token whose text fits its kind: a number denotes something and a character token is not empty. -/
structure Token.WellFormed (t : Token) : Prop where
  number : t.kind = .number → IsNumeral t.text
  character : t.kind = .character → t.text ≠ ""

/-- The token has a `+` or `-` before its name. -/
def Token.Signed (t : Token) : Prop :=
  t.text.toList.head? = some '+' ∨ t.text.toList.head? = some '-'

instance (t : Token) : Decidable t.Signed :=
  inferInstanceAs (Decidable (_ ∨ _))

/-! ## Derivations -/

namespace Grammar

/-- Tokens that are identifiers. -/
def AllIdents (ts : List Token) : Prop :=
  ∀ t ∈ ts, t.kind = .ident

/-- What identifiers name. -/
def names (ts : List Token) : List Ident :=
  ts.map fun t => Ident.ofText t.text

/-- The keywords that open a list of names, with the statement that each makes. -/
def listing? : Keyword → Option (List Ident → Stmt)
  | .declare => some .declare
  | .print => some .print
  | .read => some .read
  | _ => none

/-- The keywords that open a block under a subject, with the statement that each makes. -/
def control? : Keyword → Option (Ident → List Stmt → Stmt)
  | .branch => some .branch
  | .loop => some .loop
  | _ => none

/-- A token that is the value of an assignment. -/
inductive Value : Token → Operand → Prop
  | number {t : Token} (ht : t.kind = .number) (hn : IsNumeral t.text) : Value t (.literal (decimal t.text))
  | character {t : Token} {c : Char} {cs : List Char} (ht : t.kind = .character) (hc : t.text.toList = c :: cs) :
      Value t (.literal c.toNat)
  | ident {t : Token} (ht : t.kind = .ident) (hsign : ¬ t.Signed) : Value t (.ident (Ident.ofText t.text))

mutual

/-- Tokens that derive a statement. -/
inductive Statement : List Token → Stmt → Prop
  | listing {k e : Token} {is : List Token} {w : Keyword} {make : List Ident → Stmt}
      (hk : k.kind = .keyword w) (hw : listing? w = some make) (his : AllIdents is) (he : e.kind = .semicolon) :
      Statement (k :: (is ++ [e])) (make (names is))
  | define {k i p q o c : Token} {is body : List Token} {ss : List Stmt}
      (hk : k.kind = .keyword .define) (hi : i.kind = .ident) (hp : p.kind = .openParen) (his : AllIdents is)
      (hq : q.kind = .closeParen) (ho : o.kind = .openBrace) (hbody : Statements body ss)
      (hc : c.kind = .closeBrace) :
      Statement (k :: i :: p :: (is ++ q :: o :: (body ++ [c]))) (.define (Ident.ofText i.text) (names is) ss)
  | control {k i o c : Token} {body : List Token} {ss : List Stmt} {w : Keyword} {make : Ident → List Stmt → Stmt}
      (hk : k.kind = .keyword w) (hw : control? w = some make) (hi : i.kind = .ident) (ho : o.kind = .openBrace)
      (hbody : Statements body ss) (hc : c.kind = .closeBrace) :
      Statement (k :: i :: o :: (body ++ [c])) (make (Ident.ofText i.text) ss)
  | call {i p q e : Token} {is : List Token}
      (hi : i.kind = .ident) (hp : p.kind = .openParen) (his : AllIdents is) (hq : q.kind = .closeParen)
      (he : e.kind = .semicolon) :
      Statement (i :: p :: (is ++ [q, e])) (.call (Ident.ofText i.text) (names is))
  | assign {i a v e : Token} {is : List Token} {x : Operand}
      (hi : i.kind = .ident) (his : AllIdents is) (ha : a.kind = .equals) (hv : Value v x) (he : e.kind = .semicolon) :
      Statement (i :: (is ++ [a, v, e])) (.assign (names (i :: is)) x)

/-- Tokens that derive statements, one after another. -/
inductive Statements : List Token → List Stmt → Prop
  | nil : Statements [] []
  | cons {ts us : List Token} {s : Stmt} {ss : List Stmt} (hs : Statement ts s) (hss : Statements us ss) :
      Statements (ts ++ us) (s :: ss)

end

/-- Tokens that derive a program. -/
inductive Program : List Token → List Stmt → Prop
  | intro {ts : List Token} {ss : List Stmt} {e : Token} (hss : Statements ts ss) (he : e.kind = .finish) :
      Program (ts ++ [e]) ss

/-- Tokens with which a program can begin. -/
def Viable (ts : List Token) : Prop :=
  ∃ more program, Program (ts ++ more) program

end Grammar

end TapeCompiler
