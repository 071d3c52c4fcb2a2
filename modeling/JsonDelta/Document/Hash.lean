import JsonDelta.Document.Basic
import JsonDelta.StandardHash
/-!
Hashes of documents. A number is hashed as the binary64 number next to it, an object by its members
in any order, an array by its items in order or in any order. Integers that are equal as 64-bit
words can have different hashes, and integers that differ can share one.
-/

namespace JsonDelta

open StandardHash

def Kind.code : Kind → UInt64
  | null => 1
  | boolean => 2
  | number => 3
  | string => 4
  | array => 5
  | object => 6

def Kind.seed (k : Kind) : UInt64 := mix k.code

namespace Document

variable [StandardHash]

mutual

def hash (ignoreOrder : Bool) : Document → UInt64
  | null => Kind.null.seed
  | bool b => combine Kind.boolean.seed (if b then 1 else 2)
  | number n => combine Kind.number.seed (StandardHash.real n.toBinary64)
  | string s => combine Kind.string.seed (StandardHash.text s)
  | array items => combine Kind.array.seed (itemsHash ignoreOrder 0 items)
  | object members => combine Kind.object.seed (membersHash ignoreOrder 0 members)

/-- Continues from the hash of the items before. -/
def itemsHash (ignoreOrder : Bool) (before : UInt64) : List Document → UInt64
  | [] => before
  | item :: rest =>
    let h := hash ignoreOrder item
    itemsHash ignoreOrder (if ignoreOrder then before + mix h else combine before h) rest

/-- Continues from the hash of the members before. -/
def membersHash (ignoreOrder : Bool) (before : UInt64) : List (String × Document) → UInt64
  | [] => before
  | (key, value) :: rest =>
    let h := combine (StandardHash.text key) (hash ignoreOrder value)
    membersHash ignoreOrder (before + mix h) rest

end

end Document

end JsonDelta
