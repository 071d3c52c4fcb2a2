import JsonDelta.Binary64
/-!
Hashes in 64-bit words. How reals and texts are hashed is left to the standard library; hashes of
several parts are mixed and combined from these.
-/

namespace JsonDelta

/-- The hash functions of the standard library. Equal reals have the same hash; nothing else is
known of them. -/
class StandardHash where
  real : Binary64 → UInt64
  text : String → UInt64
  real_eq_of_same {x y : Binary64} (h : x.same y = true) : real x = real y

namespace StandardHash

/-- The finalizer of SplitMix64. -/
def mix (h : UInt64) : UInt64 :=
  let x := (h ^^^ (h >>> 30)) * 0xbf58476d1ce4e5b9
  let y := (x ^^^ (x >>> 27)) * 0x94d049bb133111eb
  y ^^^ (y >>> 31)

example : mix 1 = 0x5692161d100b05e5 := by decide

def combine (seed h : UInt64) : UInt64 :=
  let offset : UInt64 := 0x9e3779b97f4a7c15
  seed ^^^ (h + offset + (seed <<< 6) + (seed >>> 2))

/-! Hash functions to run with. -/

/-- The bit pattern of a finite number. -/
def pattern (x : Binary64) : UInt64 :=
  UInt64.ofNat (x.magnitude.val + if x.negative then 9223372036854775808 else 0)

/-- The 64-bit FNV-1a hash. -/
def fnv1a (bytes : List UInt8) : UInt64 :=
  bytes.foldl (fun h byte => (h ^^^ byte.toUInt64) * 1099511628211) 14695981039346656037

instance : StandardHash where
  real x := pattern x.unsignedZero
  text s := fnv1a s.toUTF8.data.toList
  real_eq_of_same h := congrArg pattern (of_decide_eq_true h)

end StandardHash

end JsonDelta
