/-!
Finite IEEE 754 binary64 numbers. A magnitude is numbered by its bit pattern, so the numbering
increases with the value: number `c` has biased exponent `c / 2 ^ 52` and fraction `c % 2 ^ 52`.
Infinities and NaNs are left out; rounding that would reach them is reported as overflow.
-/

namespace JsonDelta

/-- The number of fractions for one exponent, `2 ^ 52`. -/
abbrev Binary64.fractions : Nat := 4503599627370496

/-- The number of finite magnitudes: 2047 exponents with all their fractions. -/
abbrev Binary64.magnitudes : Nat := 2047 * fractions

structure Binary64 where
  negative : Bool
  magnitude : Fin Binary64.magnitudes
  deriving DecidableEq, Repr

namespace Binary64

def zero : Binary64 := ⟨false, 0⟩

/-- The value of a finite number is its significand times two to its exponent, up to sign. -/
def significand (x : Binary64) : Nat :=
  if x.magnitude.val < fractions then x.magnitude.val
  else fractions + x.magnitude.val % fractions

def exponent (x : Binary64) : Int :=
  ((max (x.magnitude.val / fractions) 1 : Nat) : Int) - 1075

/-- Both zeros are written as the positive one. -/
def unsignedZero (x : Binary64) : Binary64 :=
  if x.magnitude.val = 0 then zero else x

/-- Numeric equality: the two zeros are the same number. -/
def same (x y : Binary64) : Bool :=
  x.unsignedZero = y.unsignedZero

theorem same_comm (x y : Binary64) : x.same y = y.same x := by
  simp [same, eq_comm]

/-! Rounding of a quotient of natural numbers. -/

/-- The natural number nearest to `num / den`; of two nearest ones, the even one. -/
def roundHalfEven (num den : Nat) : Nat :=
  let quotient := num / den
  let rest := 2 * (num % den)
  if rest < den ∨ rest = den ∧ quotient % 2 = 0 then quotient else quotient + 1

/-- `num / den` divided by `2 ^ e`, as a numerator and a denominator. -/
def scaled (num den : Nat) (e : Int) : Nat × Nat :=
  if 0 ≤ e then (num, den <<< e.toNat) else (num <<< (-e).toNat, den)

/-- The least exponent whose significand for `num / den` stays below `2 ^ 53`, and no less than the
exponent of the subnormal numbers. -/
def fittingExponent (num den : Nat) : Int :=
  let e : Int := (num.log2 : Int) - (den.log2 : Int) - 53
  let (n, d) := scaled num den e
  max (if n < 2 * fractions * d then e else e + 1) (-1074)

/-- The number of the magnitude nearest to `num / den`, ties to even, the exponent unbounded. A
significand rounded up to `2 ^ 53` carries into the exponent. -/
def magnitudeNumber (num den : Nat) : Nat :=
  if num = 0 then 0 else
    let e := fittingExponent num den
    let (n, d) := scaled num den e
    (e + 1074).toNat * fractions + roundHalfEven n d

/-- The nearest number to `± num / den`, unless it overflows. -/
def ofRatio? (negative : Bool) (num den : Nat) : Option Binary64 :=
  if h : magnitudeNumber num den < magnitudes then
    some ⟨negative, ⟨magnitudeNumber num den, h⟩⟩
  else
    none

/-- The nearest number to an integer; the largest finite number of its sign when it overflows. -/
def ofInt (z : Int) : Binary64 :=
  ⟨decide (z < 0), min (magnitudeNumber z.natAbs 1) (magnitudes - 1),
    Nat.lt_of_le_of_lt (Nat.min_le_right ..) (by decide)⟩

end Binary64

end JsonDelta
