import JsonDelta.Number
import JsonDelta.Proofs.Binary64
/-!
The values of numbers. Main statement: numbers of different values are equal exactly when one of
them wraps around to the other or is rounded to it.
-/

namespace JsonDelta

namespace Number

def value : Number → ℚ
  | unsigned n => n.toNat
  | signed n => n.toInt
  | real x => x.value

def toInt? : Number → Option Int
  | unsigned n => some n.toNat
  | signed n => some n.toInt
  | real _ => none

variable {m n : Number} {i j : Int}

theorem value_of_toInt? (h : n.toInt? = some i) : n.value = i := by
  cases n with
  | unsigned n =>
      cases h
      rfl
  | signed n =>
      cases h
      rfl
  | real x => cases h

theorem toBinary64_of_toInt? (h : n.toInt? = some i) : n.toBinary64 = .ofInt i := by
  cases n with
  | unsigned n =>
      cases h
      rfl
  | signed n =>
      cases h
      rfl
  | real x => cases h

/-- The word of an integer is the integer modulo `2 ^ 64`. -/
theorem exists_toWord?_of_toInt? (h : n.toInt? = some i) :
    ∃ word, n.toWord? = some word ∧ word.toInt % 2 ^ 64 = i % 2 ^ 64 ∧
      -2 ^ 63 ≤ i ∧ i < 2 ^ 64 := by
  cases n with
  | unsigned n =>
      cases h
      refine ⟨_, rfl, ?_, by omega, by exact_mod_cast n.toNat_lt⟩
      change n.toBitVec.toInt % 2 ^ 64 = (n.toBitVec.toNat : Int) % 2 ^ 64
      rw [BitVec.toInt_eq_toNat_bmod]
      exact Int.bmod_emod
  | signed n =>
      cases h
      exact ⟨_, rfl, rfl, n.le_toInt, n.toInt_lt.trans (by norm_num)⟩
  | real x => cases h

/-- An unsigned integer whose word is that of a negative one. -/
def Wraps (m n : Number) : Prop := ∃ i, m.toInt? = some (i + 2 ^ 64) ∧ n.toInt? = some i

/-- An integer whose nearest binary64 number has another value. -/
def RoundsTo (m n : Number) : Prop :=
  ∃ i x, m.toInt? = some i ∧ n = real x ∧ 2 ^ 53 < i.natAbs ∧ (Binary64.ofInt i).same x = true ∧
    x.value ≠ i

/-- Numbers that are taken for equal although their values differ. -/
def Conflated (m n : Number) : Prop :=
  (m.Wraps n ∨ n.Wraps m) ∨ m.RoundsTo n ∨ n.RoundsTo m

theorem value_eq_or_wraps_of_same (hm : m.toInt? = some i) (hn : n.toInt? = some j)
    (h : m.same n = true) : m.value = n.value ∨ m.Wraps n ∨ n.Wraps m := by
  obtain ⟨v, hv, hvi, hi, hi'⟩ := exists_toWord?_of_toInt? hm
  obtain ⟨w, hw, hwj, hj, hj'⟩ := exists_toWord?_of_toInt? hn
  have hword : v = w := by simpa [same, hv, hw] using h
  rw [hword, hwj] at hvi
  have hcases : i = j ∨ i = j + 2 ^ 64 ∨ j = i + 2 ^ 64 := by omega
  rcases hcases with rfl | rfl | rfl
  · exact .inl ((value_of_toInt? hm).trans (value_of_toInt? hn).symm)
  · exact .inr (.inl ⟨j, hm, hn⟩)
  · exact .inr (.inr ⟨i, hn, hm⟩)

theorem same_real_of_toInt? {x : Binary64} (hm : m.toInt? = some i) :
    m.same (real x) = (Binary64.ofInt i).same x := by
  obtain ⟨word, hword, -⟩ := exists_toWord?_of_toInt? hm
  rw [same, hword, ← toBinary64_of_toInt? hm]
  rfl

theorem value_eq_or_roundsTo_of_same {x : Binary64} (hm : m.toInt? = some i)
    (h : m.same (real x) = true) : m.value = x.value ∨ m.RoundsTo (real x) := by
  rw [same_real_of_toInt? hm] at h
  rw [value_of_toInt? hm]
  by_cases hx : x.value = i
  · exact .inl hx.symm
  · refine .inr ⟨i, x, hm, rfl, Nat.lt_of_not_le fun hsmall => hx ?_, h, hx⟩
    rw [← Binary64.value_eq_of_same h, Binary64.value_ofInt hsmall]

theorem exists_real_of_toInt?_eq_none (h : n.toInt? = none) : ∃ x, n = real x := by
  cases n with
  | unsigned n => cases h
  | signed n => cases h
  | real x => exact ⟨x, rfl⟩

/-- Equal numbers have one value, unless one of them wraps around or is rounded. -/
theorem value_eq_or_conflated_of_same (h : m.same n = true) :
    m.value = n.value ∨ m.Conflated n := by
  cases hm : m.toInt? with
  | some i =>
      cases hn : n.toInt? with
      | some j => exact (value_eq_or_wraps_of_same hm hn h).imp_right .inl
      | none =>
          obtain ⟨x, rfl⟩ := exists_real_of_toInt?_eq_none hn
          exact (value_eq_or_roundsTo_of_same hm h).imp_right (.inr ∘ .inl)
  | none =>
      obtain ⟨x, rfl⟩ := exists_real_of_toInt?_eq_none hm
      cases hn : n.toInt? with
      | some j =>
          rw [same_comm] at h
          exact (value_eq_or_roundsTo_of_same hn h).imp .symm (.inr ∘ .inr)
      | none =>
          obtain ⟨y, rfl⟩ := exists_real_of_toInt?_eq_none hn
          exact .inl (Binary64.value_eq_of_same h)

theorem Wraps.same (h : m.Wraps n) : m.same n = true := by
  obtain ⟨i, hm, hn⟩ := h
  obtain ⟨v, hv, hvi, -⟩ := exists_toWord?_of_toInt? hm
  obtain ⟨w, hw, hwi, -⟩ := exists_toWord?_of_toInt? hn
  have hword : v.toInt = w.toInt := by
    have hv := v.le_toInt
    have hv' := v.toInt_lt
    have hw := w.le_toInt
    have hw' := w.toInt_lt
    omega
  simp [Number.same, hv, hw, Int64.toInt_inj.1 hword]

theorem Wraps.value_ne (h : m.Wraps n) : m.value ≠ n.value := by
  obtain ⟨i, hm, hn⟩ := h
  rw [value_of_toInt? hm, value_of_toInt? hn, Ne, Int.cast_inj]
  omega

theorem RoundsTo.same (h : m.RoundsTo n) : m.same n = true := by
  obtain ⟨i, x, hm, rfl, -, hsame, -⟩ := h
  rwa [same_real_of_toInt? hm]

theorem RoundsTo.value_ne (h : m.RoundsTo n) : m.value ≠ n.value := by
  obtain ⟨i, x, hm, rfl, -, -, hx⟩ := h
  rw [value_of_toInt? hm]
  exact hx.symm

/-- Integers that wrap around or are rounded are the only false equalities. -/
theorem conflated_iff : m.Conflated n ↔ m.same n = true ∧ m.value ≠ n.value := by
  constructor
  · rintro ((h | h) | h | h)
    · exact ⟨h.same, h.value_ne⟩
    · exact ⟨same_comm .. ▸ h.same, h.value_ne.symm⟩
    · exact ⟨h.same, h.value_ne⟩
    · exact ⟨same_comm .. ▸ h.same, h.value_ne.symm⟩
  · rintro ⟨hsame, hvalue⟩
    exact (value_eq_or_conflated_of_same hsame).resolve_left hvalue

/-- Holds of all reals, and of the integers that are binary64 numbers without exception. -/
def Small (n : Number) : Prop := ∀ i, n.toInt? = some i → i.natAbs ≤ 2 ^ 53

theorem not_conflated_of_small (hm : m.Small) (hn : n.Small) : ¬ m.Conflated n := by
  rintro ((⟨i, hwrap, hword⟩ | ⟨i, hwrap, hword⟩) | ⟨i, x, hi, -, hlarge, -⟩ |
    ⟨i, x, hi, -, hlarge, -⟩)
  · have hi := hm _ hwrap
    have hi' := hn _ hword
    omega
  · have hi := hn _ hwrap
    have hi' := hm _ hword
    omega
  · exact Nat.not_le_of_lt hlarge (hm i hi)
  · exact Nat.not_le_of_lt hlarge (hn i hi)

end Number

end JsonDelta
