import JsonDelta.Binary64
/-!
Decimal notation: digits of integers, and decimal numbers `coefficient * 10 ^ exponent` rounded to
binary64.
-/

namespace JsonDelta

namespace Decimal

def digits (n : Nat) : List Char := Nat.toDigits 10 n

def natText (n : Nat) : String := String.ofList (digits n)

def intText (z : Int) : String :=
  if z < 0 then "-" ++ natText z.natAbs else natText z.natAbs

/-- Reads one or more decimal digits and nothing else. -/
def readNat? (text : List Char) : Option Nat :=
  if text ≠ [] ∧ text.all Char.isDigit then some (Nat.ofDigitChars 10 text 0) else none

/-- Reads decimal digits after an optional minus sign. -/
def readInt? : List Char → Option Int
  | '-' :: text => (readNat? text).map fun n => -(n : Int)
  | text => (readNat? text).map fun n => (n : Int)

theorem isDigit_of_mem_digits {n : Nat} {c : Char} (h : c ∈ digits n) : c.isDigit = true :=
  Nat.isDigit_of_mem_toDigits (by decide) (by decide) h

@[simp] theorem readNat?_digits (n : Nat) : readNat? (digits n) = some n := by
  have h : ∀ c ∈ digits n, c.isDigit = true := fun c => isDigit_of_mem_digits
  rw [readNat?, if_pos ⟨Nat.toDigits_ne_nil, List.all_eq_true.2 h⟩]
  exact congrArg some Nat.ofDigitChars_ten_toDigits

theorem readInt?_digits (n : Nat) : readInt? (digits n) = some (n : Int) := by
  unfold readInt?
  split
  · rename_i rest hminus
    have hmem : '-' ∈ digits n := by simp [hminus]
    have hdigit := isDigit_of_mem_digits hmem
    simp at hdigit
  · rw [readNat?_digits]
    rfl

@[simp] theorem readInt?_intText (z : Int) : readInt? (intText z).toList = some z := by
  unfold intText natText
  split
  · have hz : -((z.natAbs : Nat) : Int) = z := by omega
    have htext : ("-" ++ String.ofList (digits z.natAbs)).toList = '-' :: digits z.natAbs := by simp
    rw [htext, readInt?, readNat?_digits]
    exact congrArg some hz
  · have hz : ((z.natAbs : Nat) : Int) = z := by omega
    rw [String.toList_ofList, readInt?_digits, hz]

theorem mem_intText {z : Int} {c : Char} (h : c ∈ (intText z).toList) :
    c = '-' ∨ c.isDigit = true := by
  unfold intText natText at h
  split at h
  · simp only [String.toList_append, List.mem_append, String.toList_ofList] at h
    exact h.imp List.mem_singleton.1 isDigit_of_mem_digits
  · rw [String.toList_ofList] at h
    exact .inr (isDigit_of_mem_digits h)

theorem intText_ne_nil (z : Int) : (intText z).toList ≠ [] := by
  intro hnil
  have hread := readInt?_intText z
  rw [hnil] at hread
  simp [readInt?, readNat?] at hread

end Decimal

/-- The number `coefficient * 10 ^ exponent`. -/
structure Decimal where
  coefficient : Nat
  exponent : Int
  deriving DecidableEq, Repr

namespace Decimal

/-- The nearest binary64 number, unless it overflows. Exponents beyond the range of the format are
answered before any power is computed. -/
def toBinary64? (negative : Bool) (d : Decimal) : Option Binary64 :=
  if d.coefficient = 0 ∨ (d.coefficient.log2 : Int) + 3 * d.exponent < -1076 then
    some { Binary64.zero with negative }
  else if 310 < d.exponent then
    none
  else if 0 ≤ d.exponent then
    Binary64.ofRatio? negative (d.coefficient * Nat.pow 10 d.exponent.toNat) 1
  else
    Binary64.ofRatio? negative d.coefficient (Nat.pow 10 (-d.exponent).toNat)

/-- Moves trailing zeros of the coefficient into the exponent, at most `fuel` of them. -/
def trim : Nat → Decimal → Decimal
  | 0, d => d
  | fuel + 1, d =>
    if d.coefficient % 10 = 0 ∧ d.coefficient ≠ 0 then
      trim fuel ⟨d.coefficient / 10, d.exponent + 1⟩
    else
      d

end Decimal

end JsonDelta
