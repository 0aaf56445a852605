import TapeCompiler.Instruction
import TapeCompiler.Proofs.Syntax.Writable

/-!
# Texts without arrows and square brackets

A source may hold any character, but in a program an arrow or a square bracket is only the number of a
character literal, and numbers are written in digits. So what a program is rendered to holds none of them.

* `PlainText`: a text without arrows and square brackets.
* `Stmt.Writable.plain`: the names in a statement that can be written are plain.
* `parse_plain`: **the names in a program that was parsed are plain.**
* `Stmt.Plain.text`: **the text of a statement with plain names is plain**, and so is that of a diagnostic.
-/

namespace TapeCompiler

/-- A character that neither moves the head nor is a bracket. -/
def PlainChar (c : Char) : Prop :=
  c ∉ ['<', '>', '[', ']']

instance : DecidablePred PlainChar := fun c =>
  inferInstanceAs (Decidable (c ∉ ['<', '>', '[', ']']))

/-- A text of such characters. -/
def PlainText (text : String) : Prop :=
  ∀ c ∈ text.toList, PlainChar c

instance (text : String) : Decidable (PlainText text) :=
  List.decidableBAll (p := PlainChar) text.toList

@[simp]
theorem plainText_empty : PlainText "" := by decide

@[simp]
theorem plainText_append (a b : String) : PlainText (a ++ b) ↔ PlainText a ∧ PlainText b := by
  simp only [PlainText, String.toList_append, List.mem_append]
  exact ⟨fun h => ⟨fun c hc => h c (.inl hc), fun c hc => h c (.inr hc)⟩,
    fun h c hc => hc.elim (h.1 c) (h.2 c)⟩

theorem plainChar_of_isDigit {c : Char} (h : isDigit c = true) : PlainChar c := by
  intro hc
  simp only [List.mem_cons, List.not_mem_nil, or_false] at hc
  rcases hc with rfl | rfl | rfl | rfl <;> simp [isDigit] at h

theorem plainChar_of_isNameChar {c : Char} (h : isNameChar c = true) : PlainChar c := by
  intro hc
  simp only [List.mem_cons, List.not_mem_nil, or_false] at hc
  rcases hc with rfl | rfl | rfl | rfl <;> simp [isNameChar, isLetter, isDigit] at h

theorem plainChar_of_isLetter {c : Char} (h : isLetter c = true) : PlainChar c :=
  plainChar_of_isNameChar (by simp [isNameChar, h])

/-! ## Programs -/

/-- An identifier with a plain name. -/
def Ident.Plain (i : Ident) : Prop :=
  PlainText i.name

/-- An operand with plain names. -/
def Operand.Plain : Operand → Prop
  | literal _ => True
  | ident i => i.Plain

mutual

/-- A statement with plain names. -/
def Stmt.Plain : Stmt → Prop
  | .declare names | .print names | .read names => ∀ i ∈ names, i.Plain
  | .assign targets value => (∀ i ∈ targets, i.Plain) ∧ value.Plain
  | .branch subject body | .loop subject body => subject.Plain ∧ Stmt.AllPlain body
  | .define name parameters body => name.Plain ∧ (∀ i ∈ parameters, i.Plain) ∧ Stmt.AllPlain body
  | .call name arguments => name.Plain ∧ ∀ i ∈ arguments, i.Plain
  | .wrap inner => inner.Plain
  | .bare operand => operand.Plain
  | .invalid error => PlainText error.text

/-- Statements with plain names. -/
def Stmt.AllPlain : List Stmt → Prop
  | [] => True
  | s :: ss => s.Plain ∧ Stmt.AllPlain ss

end

theorem plainChar_of_allowsMark {slot : Slot} {c : Char} (h : slot.allowsMark c = true) : PlainChar c := by
  rcases Slot.eq_of_allowsMark h with rfl | rfl | rfl <;> decide

theorem Slot.Spells.plainChar {slot : Slot} {w : List Char} (h : slot.Spells w) : ∀ c ∈ w, PlainChar c := by
  have hname {c : Char} {cs : List Char} (hc : isLetter c = true) (hcs : ∀ d ∈ cs, isNameChar d = true) :
      ∀ d ∈ '$' :: c :: cs, PlainChar d := by
    refine List.forall_mem_cons.2 ⟨by decide, List.forall_mem_cons.2 ⟨plainChar_of_isLetter hc, fun d hd => ?_⟩⟩
    exact plainChar_of_isNameChar (hcs d hd)
  cases h with
  | plain hc hcs => exact hname hc hcs
  | marked hm hc hcs => exact List.forall_mem_cons.2 ⟨plainChar_of_allowsMark hm, hname hc hcs⟩

theorem Slot.Takes.plain {slot : Slot} {i : Ident} (h : slot.Takes i) : i.Plain := by
  have htext : PlainText i.text := h.spells.plainChar
  exact ((plainText_append _ _).1 htext).2

theorem Operand.Writable.plain {x : Operand} (h : x.Writable) : x.Plain := by
  cases x with
  | literal => trivial
  | ident i => exact h.1.plain

mutual

theorem Stmt.Writable.plain : ∀ {s : Stmt}, s.Writable → s.Plain
  | .declare _, h | .print _, h | .read _, h => fun i hi => (h.2 i hi).plain
  | .assign _ _, h => ⟨fun i hi => (h.1.2 i hi).plain, h.2.plain⟩
  | .branch _ _, h | .loop _ _, h => ⟨h.1.plain, Stmt.AllWritable.plain h.2⟩
  | .define _ _ _, h => ⟨h.1.plain, fun i hi => (h.2.1 i hi).plain, Stmt.AllWritable.plain h.2.2⟩
  | .call _ _, h => ⟨h.1.plain, fun i hi => (h.2 i hi).plain⟩
  | .wrap _, h | .bare _, h | .invalid _, h => h.elim

theorem Stmt.AllWritable.plain : ∀ {ss : List Stmt}, Stmt.AllWritable ss → Stmt.AllPlain ss
  | [], _ => trivial
  | _ :: _, h => ⟨Stmt.Writable.plain h.1, Stmt.AllWritable.plain h.2⟩

end

/-- **The names in a program that was parsed are plain.** -/
theorem parse_plain {source : String} {program : List Stmt} (h : parse source (scan source) = .ok program) :
    Stmt.AllPlain program :=
  (parse_writable h).plain

/-! ## Rendering -/

theorem plainText_intercalate {separator : String} {texts : List String} (hs : PlainText separator)
    (ht : ∀ text ∈ texts, PlainText text) : PlainText (separator.intercalate texts) := by
  induction texts with
  | nil => simp [String.intercalate_nil]
  | cons text texts ih =>
    obtain ⟨hhead, htail⟩ := List.forall_mem_cons.1 ht
    cases texts with
    | nil => simpa [String.intercalate_singleton] using hhead
    | cons text' texts =>
      rw [String.intercalate_cons_cons, plainText_append, plainText_append]
      exact ⟨⟨hhead, hs⟩, ih htail⟩

theorem plainText_natRepr (n : ℕ) : PlainText n.repr :=
  fun _ hc => plainChar_of_isDigit (isDigit_repr hc)

theorem plainText_intRepr (n : Int) : PlainText (toString n) := by
  rw [Int.toString_eq_repr, Int.repr_eq_if]
  split
  · exact plainText_natRepr _
  · exact (plainText_append _ _).2 ⟨by decide, plainText_natRepr _⟩

theorem Ident.Plain.text {i : Ident} (h : i.Plain) : PlainText i.text := by
  have hmark : PlainText i.mark.text := by cases i.mark <;> decide
  exact (plainText_append _ _).2 ⟨hmark, h⟩

theorem plainText_idents {is : List Ident} (h : ∀ i ∈ is, i.Plain) : PlainText (identsText is) := by
  refine plainText_intercalate (by decide) fun text ht => ?_
  obtain ⟨i, hi, rfl⟩ := List.mem_map.1 ht
  exact (h i hi).text

theorem Operand.Plain.text {x : Operand} (h : x.Plain) : PlainText x.text := by
  cases x with
  | literal n => exact plainText_intRepr n
  | ident i => exact Ident.Plain.text h

mutual

/-- **The text of a statement with plain names is plain.** -/
theorem Stmt.Plain.text : ∀ {s : Stmt}, s.Plain → PlainText s.text
  | .declare _, h | .print _, h | .read _, h => by
    simp only [Stmt.text, plainText_append]
    exact ⟨by decide, plainText_idents h⟩
  | .assign _ _, h => by
    simp only [Stmt.text, plainText_append]
    exact ⟨⟨plainText_idents h.1, by decide⟩, h.2.text⟩
  | .branch _ _, h | .loop _ _, h => by
    simp only [Stmt.text, plainText_append]
    exact ⟨⟨⟨⟨by decide, h.1.text⟩, by decide⟩, Stmt.AllPlain.render h.2⟩, by decide⟩
  | .define _ _ _, h => by
    simp only [Stmt.text, plainText_append]
    exact ⟨⟨⟨⟨⟨⟨by decide, h.1.text⟩, by decide⟩, plainText_idents h.2.1⟩, by decide⟩,
      Stmt.AllPlain.render h.2.2⟩, by decide⟩
  | .call _ _, h => by
    simp only [Stmt.text, plainText_append]
    exact ⟨⟨⟨h.1.text, by decide⟩, plainText_idents h.2⟩, by decide⟩
  | .wrap _, h => by
    simp only [Stmt.text, plainText_append]
    exact ⟨Stmt.Plain.text h, by decide⟩
  | .bare _, h => Operand.Plain.text h
  | .invalid _, h => h

theorem Stmt.AllPlain.render : ∀ {ss : List Stmt}, Stmt.AllPlain ss → PlainText (render ss)
  | [], _ => plainText_empty
  | _ :: _, h => by
    simp only [render, plainText_append]
    exact ⟨⟨Stmt.Plain.text h.1, by decide⟩, Stmt.AllPlain.render h.2⟩

end

theorem Diagnostic.plain_text {d : Diagnostic} (hr : PlainText d.reason.message)
    (hc : PlainText d.culprit.text) : PlainText d.text := by
  have htext : d.text = "Compiler Error: " ++ d.reason.message ++ ", " ++ d.culprit.text := rfl
  rw [htext, plainText_append, plainText_append, plainText_append]
  exact ⟨⟨⟨by decide, hr⟩, by decide⟩, hc⟩

theorem Ident.Plain.diagnostic {i : Ident} {reason : Reason} (hi : i.Plain) (hr : PlainText reason.message) :
    PlainText (Diagnostic.text ⟨reason, .ident i⟩) :=
  Diagnostic.plain_text hr hi.text

end TapeCompiler
