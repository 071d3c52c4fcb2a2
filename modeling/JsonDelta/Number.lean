import JsonDelta.Decimal.Shortest
/-!
JSON numbers: unsigned and signed 64-bit integers and binary64 reals. The kind of a number is part
of its written form only; numbers of different kinds can be equal.
-/

namespace JsonDelta

inductive Number where
  | unsigned (n : UInt64)
  | signed (n : Int64)
  | real (x : Binary64)
  deriving DecidableEq

namespace Number

def toBinary64 : Number → Binary64
  | unsigned n => .ofInt n.toNat
  | signed n => .ofInt n.toInt
  | real x => x

/-- An integer as a signed 64-bit word; unsigned integers from `2 ^ 63` on wrap around. -/
def toWord? : Number → Option Int64
  | unsigned n => some n.toInt64
  | signed n => some n
  | real _ => none

/-- Equality of numbers: integers are compared as signed 64-bit words, and a real with anything as
binary64 numbers. -/
def same (a b : Number) : Bool :=
  match a.toWord?, b.toWord? with
  | some m, some n => m = n
  | _, _ => a.toBinary64.same b.toBinary64

theorem same_comm (a b : Number) : a.same b = b.same a := by
  unfold same
  cases a.toWord? <;> cases b.toWord? <;> simp [Binary64.same_comm, eq_comm]

/-- The layout of a positive real with the given digits, where the decimal point stands after the
first `point` of them: positional from `0.0001` up to fifteen integer digits, with an exponent of at
least two digits otherwise. -/
def layout (digits : List Char) (point : Int) : List Char :=
  let length : Int := digits.length
  if length ≤ point ∧ point ≤ 15 then
    digits ++ List.replicate (point - length).toNat '0' ++ ['.', '0']
  else if 0 < point ∧ point ≤ 15 then
    digits.take point.toNat ++ '.' :: digits.drop point.toNat
  else if -4 < point ∧ point ≤ 0 then
    '0' :: '.' :: List.replicate (-point).toNat '0' ++ digits
  else
    let fraction := if digits.tail = [] then [] else '.' :: digits.tail
    let sign := if point - 1 < 0 then '-' else '+'
    let power := Decimal.digits (point - 1).natAbs
    digits.take 1 ++ fraction ++ 'e' :: sign :: List.replicate (2 - power.length) '0' ++ power

/-- The digits are the fewest that read back as the number, and the nearest to it of those. For a
small part of the numbers a printer that follows Grisu2 gives more digits or another last digit,
such as `9.999999999999999e+22` where this is `1e+23`; its text reads back as the same number. -/
def realText (x : Binary64) : String :=
  let sign := if x.negative then ['-'] else []
  if x.magnitude.val = 0 then
    String.ofList (sign ++ ['0', '.', '0'])
  else
    let shortest := x.shortest
    let digits := Decimal.digits shortest.coefficient
    String.ofList (sign ++ layout digits (digits.length + shortest.exponent))

/-- The written form of a number. -/
def text : Number → String
  | unsigned n => Decimal.natText n.toNat
  | signed n => Decimal.intText n.toInt
  | real x => realText x

end Number

end JsonDelta
