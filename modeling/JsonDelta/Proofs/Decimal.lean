import Mathlib.Data.List.Induction
import JsonDelta.Decimal
/-!
Decimal notation as a grammar. Digits are read from the left, and the last one counts units. Main
statements: what is read as a natural number is one or more digits, what is read as an integer is
digits behind at most one minus sign, and numbers that are written alike are equal.
-/

namespace JsonDelta

namespace Decimal

/-- One or more decimal digits and the number they denote. -/
inductive Digits : List Char → Nat → Prop
  | single {c : Char} (h : c.isDigit = true) : Digits [c] (c.toNat - '0'.toNat)
  | snoc {text : List Char} {n : Nat} {c : Char} (front : Digits text n) (h : c.isDigit = true) :
      Digits (text ++ [c]) (10 * n + (c.toNat - '0'.toNat))

/-- Digits behind at most one sign. -/
inductive SignedDigits : List Char → Int → Prop
  | unsigned {text : List Char} {n : Nat} (h : Digits text n) : SignedDigits text n
  | plus {text : List Char} {n : Nat} (h : Digits text n) : SignedDigits ('+' :: text) n
  | minus {text : List Char} {n : Nat} (h : Digits text n) : SignedDigits ('-' :: text) (-n)

variable {text : List Char} {n : Nat} {z : Int}

theorem Digits.ne_nil (h : Digits text n) : text ≠ [] := by
  cases h <;> simp

theorem Digits.isDigit (h : Digits text n) : ∀ c ∈ text, c.isDigit = true := by
  induction h with
  | single h => simpa using h
  | snoc _ h ih =>
      intro c hc
      rcases List.mem_append.1 hc with hc | hc
      · exact ih c hc
      · rwa [List.mem_singleton.1 hc]

theorem Digits.ofDigitChars_eq (h : Digits text n) : Nat.ofDigitChars 10 text 0 = n := by
  induction h with
  | single h => simp [Nat.ofDigitChars_cons]
  | snoc _ h ih => rw [Nat.ofDigitChars_append, ih]; rfl

theorem digits_ofDigitChars (hne : text ≠ []) (h : ∀ c ∈ text, c.isDigit = true) :
    Digits text (Nat.ofDigitChars 10 text 0) := by
  induction text using List.reverseRecOn with
  | nil => exact absurd rfl hne
  | append_singleton text c ih =>
      have hc : c.isDigit = true := h c (by simp)
      by_cases htext : text = []
      · have hvalue : Nat.ofDigitChars 10 [c] 0 = c.toNat - '0'.toNat := by
          simp [Nat.ofDigitChars_cons]
        rw [htext, List.nil_append, hvalue]
        exact .single hc
      · rw [Nat.ofDigitChars_append]
        exact .snoc (ih htext fun d hd => h d (List.mem_append_left _ hd)) hc

theorem readNat?_eq_some_iff : readNat? text = some n ↔ Digits text n := by
  unfold readNat?
  constructor
  · intro h
    split at h
    · rename_i hdigits
      cases h
      exact digits_ofDigitChars hdigits.1 (List.all_eq_true.1 hdigits.2)
    · cases h
  · intro h
    rw [if_pos ⟨h.ne_nil, List.all_eq_true.2 h.isDigit⟩, h.ofDigitChars_eq]

theorem Digits.ne_cons {c : Char} (h : Digits text n) (hc : c.isDigit = false)
    (rest : List Char) : text ≠ c :: rest := by
  rintro rfl
  rw [h.isDigit c List.mem_cons_self] at hc
  cases hc

theorem readInt?_minus (text : List Char) :
    readInt? ('-' :: text) = (readNat? text).map fun n : Nat => -(n : Int) := by
  cases h : readNat? text <;> simp [readInt?, h]

theorem readInt?_of_ne_minus (h : ∀ rest, text ≠ '-' :: rest) :
    readInt? text = (readNat? text).map fun n : Nat => (n : Int) := by
  unfold readInt?
  split
  · exact absurd rfl (h _)
  · cases readNat? text <;> rfl

theorem readInt?_eq_some_iff :
    readInt? text = some z ↔ (∃ n, Digits text n ∧ (n : Int) = z) ∨
      ∃ digits n, text = '-' :: digits ∧ Digits digits n ∧ -(n : Int) = z := by
  by_cases hminus : ∃ digits, text = '-' :: digits
  · obtain ⟨digits, rfl⟩ := hminus
    simp only [readInt?_minus, Option.map_eq_some_iff, readNat?_eq_some_iff]
    constructor
    · rintro ⟨n, hdigits, hz⟩
      exact .inr ⟨digits, n, rfl, hdigits, hz⟩
    · rintro (⟨n, hdigits, -⟩ | ⟨_, n, heq, hdigits, hz⟩)
      · exact absurd rfl (hdigits.ne_cons (by decide) digits)
      · obtain rfl := (List.cons.inj heq).2
        exact ⟨n, hdigits, hz⟩
  · have hne : ∀ rest, text ≠ '-' :: rest := fun rest heq => hminus ⟨rest, heq⟩
    simp only [readInt?_of_ne_minus hne, Option.map_eq_some_iff, readNat?_eq_some_iff]
    constructor
    · exact .inl
    · rintro (hdigits | ⟨digits, _, heq, -⟩)
      · exact hdigits
      · exact absurd heq (hne digits)

/-- A negative number is written with a minus sign. -/
theorem SignedDigits.exists_minus (h : SignedDigits text z) (hz : z < 0) :
    ∃ digits, text = '-' :: digits := by
  cases h with
  | unsigned _ => omega
  | plus _ => omega
  | minus _ => exact ⟨_, rfl⟩

/-! Writing. -/

theorem natText_injective : Function.Injective natText := by
  intro m n h
  have hread := congrArg (fun text => readNat? text.toList) h
  simpa [natText] using hread

theorem intText_injective : Function.Injective intText := by
  intro n m h
  have hread := congrArg (fun text => readInt? text.toList) h
  simpa using hread

end Decimal

end JsonDelta
