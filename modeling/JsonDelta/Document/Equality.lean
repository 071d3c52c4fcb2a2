import JsonDelta.Document.Hash
import JsonDelta.Matching.Buckets
/-!
Structural equality. Objects are equal when they have the same keys with equal values. Arrays are
equal when their items are equal one by one or, when order is ignored, when first-fit matching finds
a place for every item among those with the same hash.
-/

namespace JsonDelta.Document

variable [StandardHash]

/-- An item under its hash. -/
def hashed (d : Document) : UInt64 × Document := (d.hash true, d)

mutual

def equal (ignoreOrder : Bool) : Document → Document → Bool
  | null, null => true
  | bool a, bool b => a == b
  | number a, number b => a.same b
  | string a, string b => a == b
  | array items, array others =>
    items.length == others.length &&
      if ignoreOrder then
        (Matching.bucketFit (fun equals other => equals other) (candidates items)
          (others.map hashed)).all Option.isSome
      else
        itemsEqual items others
  | object members, object others =>
    members.length == others.length && membersEqual ignoreOrder members others
  | _, _ => false

/-- Each item under its hash, ready to be compared with another. -/
def candidates : List Document → List (UInt64 × (Document → Bool))
  | [] => []
  | item :: rest => (item.hash true, equal true item) :: candidates rest

def itemsEqual : List Document → List Document → Bool
  | [], [] => true
  | item :: rest, other :: others => equal false item other && itemsEqual rest others
  | _, _ => false

def membersEqual (ignoreOrder : Bool) :
    List (String × Document) → List (String × Document) → Bool
  | [], _ => true
  | (key, value) :: rest, others =>
    (match others.lookup key with
      | some other => equal ignoreOrder value other
      | none => false) && membersEqual ignoreOrder rest others

end

/-- For each new item, the place of the old item it matches. -/
def matchItems (old new : List Document) : List (Option Nat) :=
  Matching.bucketFit (fun equals other => equals other) (candidates old) (new.map hashed)

/-- An item fits another when both have the same hash and are equal. -/
def fits (a b : Document) : Bool := a.hash true == b.hash true && a.equal true b

theorem candidates_eq_map (items : List Document) :
    candidates items = items.map fun item => (item.hash true, equal true item) := by
  induction items with
  | nil => rfl
  | cons item rest ih => rw [candidates, ih, List.map_cons]

theorem matchItems_eq_firstFit (old new : List Document) :
    matchItems old new = Matching.firstFit fits old new := by
  rw [matchItems, candidates_eq_map, Matching.bucketFit_eq_firstFit, Matching.firstFit_map]
  rfl

end JsonDelta.Document
