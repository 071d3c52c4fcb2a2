import JsonDelta.Decimal
/-!
The shortest decimal number that reads back as a given binary64 magnitude; of several, the nearest
to the exact value, and of two equally near ones the one with the even last digit.
-/

namespace JsonDelta

/-- Every finite binary number has a finite decimal expansion: `m / 2 ^ k = m * 5 ^ k / 10 ^ k`. -/
def Binary64.expansion (x : Binary64) : Decimal :=
  if 0 ≤ x.exponent then
    ⟨x.significand <<< x.exponent.toNat, 0⟩
  else
    ⟨x.significand * Nat.pow 5 (-x.exponent).toNat, x.exponent⟩

namespace Decimal

def ReadsBack (x : Binary64) (d : Decimal) : Prop :=
  d.toBinary64? x.negative = some x

instance (x : Binary64) (d : Decimal) : Decidable (ReadsBack x d) :=
  inferInstanceAs (Decidable (_ = _))

/-- Of the two neighbours of `d` with `drop` digits fewer, the one that reads back as `x`; if both
do, the nearer one. -/
def neighbour? (x : Binary64) (d : Decimal) (drop : Nat) : Option Decimal :=
  let step := Nat.pow 10 drop
  let below : Decimal := ⟨d.coefficient / step, d.exponent + drop⟩
  let above : Decimal := ⟨d.coefficient / step + 1, d.exponent + drop⟩
  let rest := 2 * (d.coefficient % step)
  if ReadsBack x below then
    if ReadsBack x above ∧
        (step < rest ∨ rest = step ∧ below.coefficient % 2 = 1) then
      some above
    else
      some below
  else if ReadsBack x above then
    some above
  else
    none

/-- Tries the longest cut of `d` first, down to none. -/
def shortestFrom (x : Binary64) (d : Decimal) : Nat → Decimal
  | 0 => d
  | drop + 1 => (neighbour? x d (drop + 1)).getD (shortestFrom x d drop)

end Decimal

/-- The shortest decimal number that reads back as the magnitude of `x`. -/
def Binary64.shortest (x : Binary64) : Decimal :=
  let exact := x.expansion
  let length := (Decimal.digits exact.coefficient).length
  (Decimal.shortestFrom x exact (length - 1)).trim 20

end JsonDelta
