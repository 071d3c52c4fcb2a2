import JsonDelta.Matching
/-!
First fit with buckets. The elements of the first list are put into buckets by a key, and each
element of the second list only looks into the bucket of its own key. Main statement: this is first
fit among the elements with the same key.
-/

namespace JsonDelta.Matching

/-- Free elements under their keys, in order, with their places in the first list. -/
abbrev Buckets (κ α : Type) := List (κ × List (α × Nat))

variable {κ α β : Type} [DecidableEq κ]

namespace Buckets

/-- The bucket of a key; a key that was never used has an empty one. -/
def get (key : κ) : Buckets κ α → List (α × Nat)
  | [] => []
  | (k, bucket) :: rest => if k = key then bucket else get key rest

def update (key : κ) (change : List (α × Nat) → List (α × Nat)) : Buckets κ α → Buckets κ α
  | [] => [(key, change [])]
  | (k, bucket) :: rest =>
    if k = key then (k, change bucket) :: rest else (k, bucket) :: update key change rest

/-- Puts an element behind those of its bucket. -/
def add (buckets : Buckets κ α) (c : (κ × α) × Nat) : Buckets κ α :=
  buckets.update c.1.1 (· ++ [(c.1.2, c.2)])

def ofList (xs : List (κ × α)) : Buckets κ α := xs.zipIdx.foldl add []

end Buckets

def assignBuckets (fits : α → β → Bool) (buckets : Buckets κ α) :
    List (κ × β) → List (Option Nat)
  | [] => []
  | (key, y) :: ys =>
    match takeFirst? (fun candidate => fits candidate.1 y) (buckets.get key) with
    | some (taken, rest) => some taken.2 :: assignBuckets fits (buckets.update key fun _ => rest) ys
    | none => none :: assignBuckets fits buckets ys

/-- For each element of the second list, its place in the first, if it found one in its bucket. -/
def bucketFit (fits : α → β → Bool) (xs : List (κ × α)) (ys : List (κ × β)) : List (Option Nat) :=
  assignBuckets fits (.ofList xs) ys

/-! Taking from a part of a list. -/

variable {γ : Type}

theorem takeFirst?_filter (p q : γ → Bool) (xs : List γ) :
    takeFirst? p (xs.filter q) =
      (takeFirst? (fun x => q x && p x) xs).map fun (y, rest) => (y, rest.filter q) := by
  induction xs with
  | nil => rfl
  | cons x xs ih =>
    cases hq : q x with
    | false => simp [takeFirst?, hq, ih, Option.map_map, Function.comp_def]
    | true => cases hp : p x <;> simp [takeFirst?, hq, hp, ih, Option.map_map, Function.comp_def]

/-- A part without the element that was taken stays as it is. -/
theorem filter_of_takeFirst? {p q : γ → Bool} {xs rest : List γ} {y : γ}
    (h : takeFirst? p xs = some (y, rest)) (hy : q y = false) : rest.filter q = xs.filter q := by
  induction xs generalizing rest with
  | nil => cases h
  | cons x xs ih =>
    rw [takeFirst?] at h
    split at h
    · cases h
      rw [List.filter_cons_of_neg (by simp [hy])]
    · obtain ⟨⟨z, others⟩, hz, heq⟩ := Option.map_eq_some_iff.1 h
      cases heq
      rw [List.filter_cons, List.filter_cons, ih hz]

/-! Buckets and the list of all free elements. -/

namespace Buckets

variable {buckets : Buckets κ α} {free : List ((κ × α) × Nat)}

theorem get_update (key key' : κ) (change : List (α × Nat) → List (α × Nat))
    (buckets : Buckets κ α) : (buckets.update key change).get key' =
      if key = key' then change (buckets.get key) else buckets.get key' := by
  induction buckets with
  | nil => simp [update, get]
  | cons bucket buckets ih =>
    obtain ⟨k, bucket⟩ := bucket
    by_cases hk : k = key
    · by_cases hkey : key = key' <;> simp [update, get, hk, hkey]
    · by_cases hk' : k = key'
      · have hkey : key ≠ key' := fun heq => hk (hk'.trans heq.symm)
        simp [update, get, hk', hkey.symm, hkey]
      · simp [update, get, hk, hk', ih]

/-- Each bucket has the free elements with its key. -/
def Hold (buckets : Buckets κ α) (free : List ((κ × α) × Nat)) : Prop :=
  ∀ key, buckets.get key = (free.filter fun c => c.1.1 == key).map fun c => (c.1.2, c.2)

theorem Hold.add (h : Hold buckets free) (c : (κ × α) × Nat) :
    Hold (buckets.add c) (free ++ [c]) := by
  intro key
  rw [Buckets.add, get_update, h c.1.1, h key, List.filter_append, List.map_append]
  by_cases hkey : c.1.1 = key
  · simp [hkey]
  · simp [hkey]

theorem Hold.foldl_add (h : Hold buckets free) (cs : List ((κ × α) × Nat)) :
    Hold (cs.foldl Buckets.add buckets) (free ++ cs) := by
  induction cs generalizing buckets free with
  | nil => rwa [List.append_nil]
  | cons c cs ih =>
    rw [List.foldl_cons, List.append_cons]
    exact ih (h.add c)

theorem hold_ofList (xs : List (κ × α)) : Hold (ofList xs) xs.zipIdx := by
  have hnone : Hold ([] : Buckets κ α) [] := fun _ => rfl
  exact hnone.foldl_add xs.zipIdx

/-- Taking an element from its bucket is taking it from all free elements. -/
theorem Hold.update {taken : (κ × α) × Nat} {rest : List ((κ × α) × Nat)}
    {p : (κ × α) × Nat → Bool} (h : Hold buckets free)
    (htaken : takeFirst? p free = some (taken, rest)) :
    Hold (buckets.update taken.1.1 fun _ =>
      (rest.filter fun c => c.1.1 == taken.1.1).map fun c => (c.1.2, c.2)) rest := by
  intro key
  rw [get_update]
  by_cases hkey : taken.1.1 = key
  · rw [if_pos hkey, hkey]
  · have hother : (taken.1.1 == key) = false := by simpa using hkey
    rw [if_neg hkey, h key, filter_of_takeFirst? htaken hother]

end Buckets

theorem assignBuckets_eq_assign (fits : α → β → Bool) {buckets : Buckets κ α}
    {free : List ((κ × α) × Nat)} (h : buckets.Hold free) (ys : List (κ × β)) :
    assignBuckets fits buckets ys = assign (fun x y => x.1 == y.1 && fits x.2 y.2) free ys := by
  induction ys generalizing buckets free with
  | nil => rfl
  | cons y ys ih =>
    obtain ⟨key, y⟩ := y
    rw [assignBuckets, assign, h key, takeFirst?_map, takeFirst?_filter, Option.map_map]
    cases htaken : takeFirst? (fun c => c.1.1 == key && fits c.1.2 y) free with
    | none => simp [Function.comp_def, htaken, ih h]
    | some found =>
      obtain ⟨taken, rest⟩ := found
      have hfits := satisfies_of_takeFirst? htaken
      obtain rfl : taken.1.1 = key := by simpa using (Bool.and_eq_true_iff.1 hfits).1
      simp [Function.comp_def, htaken, ih (h.update htaken)]

theorem bucketFit_eq_firstFit (fits : α → β → Bool) (xs : List (κ × α)) (ys : List (κ × β)) :
    bucketFit fits xs ys = firstFit (fun x y => x.1 == y.1 && fits x.2 y.2) xs ys :=
  assignBuckets_eq_assign fits (Buckets.hold_ofList xs) ys

end JsonDelta.Matching
