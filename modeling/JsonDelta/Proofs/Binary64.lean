import JsonDelta.Binary64
import Mathlib.Algebra.Order.Ring.Rat
import Mathlib.Tactic.NormNum
import Mathlib.Tactic.Ring
/-!
The values of binary64 numbers, as rationals. Main statement: integers up to `2 ^ 53` are binary64
numbers themselves.
-/

namespace JsonDelta

namespace Binary64

def value (x : Binary64) : ℚ := (if x.negative then -1 else 1) * x.significand * 2 ^ x.exponent

theorem value_unsignedZero (x : Binary64) : x.unsignedZero.value = x.value := by
  rw [unsignedZero]
  split
  · rename_i h
    have hzero : x.significand = 0 := by
      rw [significand, h]
      rfl
    rw [value, value, hzero, show zero.significand = 0 from rfl, Nat.cast_zero, mul_zero, mul_zero,
      zero_mul, zero_mul]
  · rfl

theorem value_eq_of_same {x y : Binary64} (h : x.same y = true) : x.value = y.value := by
  rw [← x.value_unsignedZero, ← y.value_unsignedZero, of_decide_eq_true h]

/-! Small integers are exact. -/

/-- The number `k * fractions + f` has the fraction `f`, and the exponent `k` if it is normal. -/
theorem significand_and_exponent_of_eq {x : Binary64} {k f : Nat} (hk : 1 ≤ k) (hf : f < fractions)
    (h : x.magnitude.val = k * fractions + f) :
    x.significand = fractions + f ∧ x.exponent = (k : Int) - 1075 := by
  have hdiv : (k * fractions + f) / fractions = k := by
    rw [Nat.mul_comm, Nat.mul_add_div (by decide), Nat.div_eq_of_lt hf, Nat.add_zero]
  have hmod : (k * fractions + f) % fractions = f := by
    rw [Nat.mul_comm, Nat.mul_add_mod, Nat.mod_eq_of_lt hf]
  have hlarge : ¬ k * fractions + f < fractions := by
    have hfirst := Nat.mul_le_mul_right fractions hk
    omega
  rw [significand, exponent, h, if_neg hlarge, hmod, hdiv, Nat.max_eq_left hk]
  exact ⟨rfl, rfl⟩

theorem roundHalfEven_one (n : Nat) : roundHalfEven n 1 = n := by
  simp [roundHalfEven, Nat.mod_one]

theorem scaled_neg (num den k : Nat) : scaled num den (-(k : Int)) = (num * 2 ^ k, den) := by
  rw [scaled]
  split
  · obtain rfl : k = 0 := by omega
    simp
  · rw [neg_neg, Int.toNat_natCast, Nat.shiftLeft_eq]

section Small

variable {n : Nat}

/-- Shifted by what it lacks of 53 bits, an integer lies where significands do. -/
theorem shifted_bounds (hpos : 0 < n) (hn : n < 2 ^ 53) :
    fractions ≤ n * 2 ^ (52 - n.log2) ∧ n * 2 ^ (52 - n.log2) < 2 * fractions := by
  have hlog : n.log2 < 53 := (Nat.log2_lt hpos.ne').2 hn
  constructor
  · calc fractions = 2 ^ n.log2 * 2 ^ (52 - n.log2) := by
          rw [← Nat.pow_add, Nat.add_sub_cancel' (Nat.le_of_lt_succ hlog)]
      _ ≤ n * 2 ^ (52 - n.log2) := Nat.mul_le_mul_right _ (Nat.log2_self_le hpos.ne')
  · calc n * 2 ^ (52 - n.log2) < 2 ^ (n.log2 + 1) * 2 ^ (52 - n.log2) :=
          Nat.mul_lt_mul_of_pos_right Nat.lt_log2_self (Nat.two_pow_pos _)
      _ = 2 * fractions := by
          rw [← Nat.pow_add, show n.log2 + 1 + (52 - n.log2) = 53 by omega]
          rfl

theorem fittingExponent_one (hpos : 0 < n) (hn : n < 2 ^ 53) :
    fittingExponent n 1 = -((52 - n.log2 : Nat) : Int) := by
  have hlog : n.log2 < 53 := (Nat.log2_lt hpos.ne').2 hn
  have hfirst : (n.log2 : Int) - (Nat.log2 1 : Nat) - 53 = -((53 - n.log2 : Nat) : Int) := by
    rw [show Nat.log2 1 = 0 from rfl]
    omega
  have hfull : ¬ n * 2 ^ (53 - n.log2) < 2 * fractions * 1 := by
    have hlow := (shifted_bounds hpos hn).1
    rw [show 53 - n.log2 = 52 - n.log2 + 1 by omega, Nat.pow_succ, ← Nat.mul_assoc]
    omega
  simp only [fittingExponent, hfirst, scaled_neg, if_neg hfull]
  omega

theorem magnitudeNumber_one (hpos : 0 < n) (hn : n < 2 ^ 53) :
    magnitudeNumber n 1 = (n.log2 + 1022) * fractions + n * 2 ^ (52 - n.log2) := by
  have hlog : n.log2 < 53 := (Nat.log2_lt hpos.ne').2 hn
  have hexponent : (-((52 - n.log2 : Nat) : Int) + 1074).toNat = n.log2 + 1022 := by omega
  simp only [magnitudeNumber, if_neg hpos.ne', fittingExponent_one hpos hn, scaled_neg, hexponent,
    roundHalfEven_one]

/-- The magnitude of a small integer, with its fraction set apart. -/
theorem exists_magnitudeNumber_eq (hpos : 0 < n) (hn : n ≤ 2 ^ 53) :
    ∃ k f, magnitudeNumber n 1 = k * fractions + f ∧ 1 ≤ k ∧ k < 2047 ∧ f < fractions ∧
      ((fractions + f : Nat) : ℚ) * 2 ^ ((k : Int) - 1075) = n := by
  rcases hn.lt_or_eq with hn | rfl
  · have hlog : n.log2 < 53 := (Nat.log2_lt hpos.ne').2 hn
    obtain ⟨hlow, hhigh⟩ := shifted_bounds hpos hn
    obtain ⟨f, hf⟩ := Nat.exists_eq_add_of_le hlow
    refine ⟨n.log2 + 1023, f, ?_, by omega, by omega, by omega, ?_⟩
    · rw [magnitudeNumber_one hpos hn, hf]
      ring
    · have hexponent : ((n.log2 + 1023 : Nat) : Int) - 1075 = -((52 - n.log2 : Nat) : Int) := by
        omega
      rw [← hf, hexponent, zpow_neg, zpow_natCast, Nat.cast_mul, Nat.cast_pow, Nat.cast_ofNat]
      exact mul_inv_cancel_right₀ (by positivity) _
  -- The first integer with 54 bits is a power of two.
  · exact ⟨1076, 0, by decide, by decide, by decide, by decide, by norm_num⟩

end Small

/-- Up to `2 ^ 53`, nothing is rounded. -/
theorem value_ofInt {z : Int} (hz : z.natAbs ≤ 2 ^ 53) : (ofInt z).value = z := by
  rcases Nat.eq_zero_or_pos z.natAbs with hzero | hpos
  · obtain rfl := Int.natAbs_eq_zero.1 hzero
    norm_num [value, significand, ofInt, magnitudeNumber]
  · obtain ⟨k, f, hm, hk, hk', hf, hvalue⟩ := exists_magnitudeNumber_eq hpos hz
    have hmax : k * fractions + f ≤ magnitudes - 1 := by
      have hnext := Nat.mul_le_mul_right fractions (Nat.succ_le_of_lt hk')
      rw [Nat.succ_mul] at hnext
      exact Nat.le_sub_one_of_lt (lt_of_lt_of_le (Nat.add_lt_add_left hf _) hnext)
    have hmagnitude : (ofInt z).magnitude.val = k * fractions + f := by
      change min (magnitudeNumber z.natAbs 1) (magnitudes - 1) = _
      rw [hm, Nat.min_eq_left hmax]
    obtain ⟨hsignificand, hexponent⟩ := significand_and_exponent_of_eq hk hf hmagnitude
    rw [value, hsignificand, hexponent, mul_assoc, hvalue]
    change (if decide (z < 0) = true then _ else _) * _ = _
    rcases Int.lt_or_le z 0 with hneg | hneg
    · rw [if_pos (by simpa using hneg), Nat.cast_natAbs, abs_of_neg hneg]
      simp
    · rw [if_neg (by simpa using hneg), Nat.cast_natAbs, abs_of_nonneg hneg, one_mul]

end Binary64

end JsonDelta
