import JsonDelta.Document.Equality
/-!
Alignment of two arrays whose order is ignored. Equal items are matched. Each old item left over
is paired with the first new item left over, when both are arrays or both are objects; otherwise it
counts as removed, and the new item waits for the next old one.
-/

namespace JsonDelta

structure Alignment where
  /-- Old and new place of the matched items, in new order. -/
  matched : List (Nat × Nat)
  /-- Old places without a match, each with the new place of its partner. -/
  leftovers : List (Nat × Option Nat)
  /-- New places without match and partner. -/
  added : List Nat

namespace Alignment

/-- Goes through the old places once and uses up the new ones in order; also gives those that
remain. -/
def pairUp (partners : Nat → Nat → Bool) :
    List Nat → List Nat → List (Nat × Option Nat) × List Nat
  | [], new => ([], new)
  | i :: old, [] => ((i, none) :: old.map (·, none), [])
  | i :: old, j :: new =>
    if partners i j then
      let (leftovers, rest) := pairUp partners old new
      ((i, some j) :: leftovers, rest)
    else
      let (leftovers, rest) := pairUp partners old (j :: new)
      ((i, none) :: leftovers, rest)

theorem map_fst_pairUp (partners : Nat → Nat → Bool) (old new : List Nat) :
    (pairUp partners old new).1.map Prod.fst = old := by
  fun_induction pairUp partners old new <;> simp_all [Function.comp_def]

def sameContainer (a b : Document) : Bool := a.kind.isContainer && a.kind = b.kind

def unmatchedOld (old : List Document) (places : List (Option Nat)) : List Nat :=
  (List.range old.length).filter fun i => some i ∉ places

def unmatchedNew (places : List (Option Nat)) : List Nat :=
  places.zipIdx.filterMap fun (place, j) => if place = none then some j else none

variable [StandardHash]

def ofItems (old new : List Document) : Alignment :=
  let places := Document.matchItems old new
  let partners i j :=
    match old[i]?, new[j]? with
    | some a, some b => sameContainer a b
    | _, _ => false
  let (leftovers, added) := pairUp partners (unmatchedOld old places) (unmatchedNew places)
  { matched := places.zipIdx.filterMap fun (place, j) => place.map fun i => (i, j)
    leftovers
    added }

end Alignment

end JsonDelta
