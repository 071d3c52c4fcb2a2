/-!
First-fit matching of two lists: each element of the second list, in order, takes the first element
of the first list that fits it and is still free.
-/

namespace JsonDelta.Matching

variable {α β γ δ : Type}

/-- The first element that satisfies `p`, and the others in order. -/
def takeFirst? (p : α → Bool) : List α → Option (α × List α)
  | [] => none
  | x :: xs => if p x then some (x, xs) else (takeFirst? p xs).map fun (y, rest) => (y, x :: rest)

/-- `free` holds the elements not yet taken, with their places in the first list. -/
def assign (fits : α → β → Bool) (free : List (α × Nat)) : List β → List (Option Nat)
  | [] => []
  | y :: ys =>
    match takeFirst? (fun candidate => fits candidate.1 y) free with
    | some (taken, rest) => some taken.2 :: assign fits rest ys
    | none => none :: assign fits free ys

/-- For each element of the second list, its place in the first, if it found one. -/
def firstFit (fits : α → β → Bool) (xs : List α) (ys : List β) : List (Option Nat) :=
  assign fits xs.zipIdx ys

theorem takeFirst?_map (p : β → Bool) (f : α → β) (xs : List α) :
    takeFirst? p (xs.map f) = (takeFirst? (p ∘ f) xs).map fun (y, rest) => (f y, rest.map f) := by
  induction xs with
  | nil => rfl
  | cons x xs ih =>
    by_cases h : p (f x)
    · simp [takeFirst?, h]
    · simp [takeFirst?, h, ih, Option.map_map, Function.comp_def]

theorem perm_of_takeFirst? {p : α → Bool} {xs rest : List α} {y : α}
    (h : takeFirst? p xs = some (y, rest)) : (y :: rest).Perm xs := by
  induction xs generalizing y rest with
  | nil => simp [takeFirst?] at h
  | cons x xs ih =>
    rw [takeFirst?] at h
    split at h
    · cases h
      exact .refl _
    · obtain ⟨⟨z, others⟩, hz, hy⟩ := Option.map_eq_some_iff.1 h
      cases hy
      exact (List.Perm.swap ..).trans ((ih hz).cons x)

theorem satisfies_of_takeFirst? {p : α → Bool} {xs rest : List α} {x : α}
    (h : takeFirst? p xs = some (x, rest)) : p x = true := by
  induction xs generalizing rest with
  | nil => cases h
  | cons y ys ih =>
    rw [takeFirst?] at h
    split at h
    · cases h
      assumption
    · obtain ⟨⟨z, others⟩, hz, heq⟩ := Option.map_eq_some_iff.1 h
      cases heq
      exact ih hz

theorem takeFirst?_eq_none_iff {p : α → Bool} {xs : List α} :
    takeFirst? p xs = none ↔ ∀ x ∈ xs, p x = false := by
  induction xs with
  | nil => simp [takeFirst?]
  | cons x xs ih => by_cases h : p x <;> simp [takeFirst?, h, ih]

theorem assign_map (fits : γ → δ → Bool) (f : α → γ) (g : β → δ) (free : List (α × Nat))
    (ys : List β) :
    assign fits (free.map fun c => (f c.1, c.2)) (ys.map g) =
      assign (fun x y => fits (f x) (g y)) free ys := by
  induction ys generalizing free with
  | nil => rfl
  | cons y ys ih =>
    simp only [assign, List.map_cons, takeFirst?_map, Function.comp_def]
    cases takeFirst? (fun c => fits (f c.1) (g y)) free with
    | none => simp [ih]
    | some found => simp [ih]

theorem firstFit_map (fits : γ → δ → Bool) (f : α → γ) (g : β → δ) (xs : List α) (ys : List β) :
    firstFit fits (xs.map f) (ys.map g) = firstFit (fun x y => fits (f x) (g y)) xs ys := by
  rw [firstFit, List.zipIdx_map]
  exact assign_map fits f g xs.zipIdx ys

@[simp] theorem length_assign (fits : α → β → Bool) (free : List (α × Nat)) (ys : List β) :
    (assign fits free ys).length = ys.length := by
  induction ys generalizing free with
  | nil => rfl
  | cons y ys ih =>
    rw [assign]
    split <;> simp [ih]

@[simp] theorem length_firstFit (fits : α → β → Bool) (xs : List α) (ys : List β) :
    (firstFit fits xs ys).length = ys.length := length_assign ..

end JsonDelta.Matching
