import Mathlib.Data.List.Find
import JsonDelta.Proofs.Matching.Stable
/-!
First fit as a plain scan. Each element of the second list goes through all places of the first and
takes the least one that is unused and fits. Keeping a list of free elements, as first fit does,
changes nothing.
-/

namespace JsonDelta.Matching

variable {α β : Type}

/-- The least unused place whose element fits. -/
def leastUnused? (fits : α → β → Bool) (xs : List α) (used : List Nat) (y : β) : Option Nat :=
  (List.range xs.length).find? fun i => i ∉ used ∧ xs[i]?.any fun x => fits x y

def scan (fits : α → β → Bool) (xs : List α) : List Nat → List β → List (Option Nat)
  | _, [] => []
  | used, y :: ys =>
    let place := leastUnused? fits xs used y
    place :: scan fits xs (place.toList ++ used) ys

/-- The elements at unused places. -/
def unused (xs : List α) (used : List Nat) : List (α × Nat) :=
  xs.zipIdx.filter fun c => c.2 ∉ used

theorem leastUnused?_eq_map_find? (fits : α → β → Bool) (xs : List α) (used : List Nat) (y : β) :
    leastUnused? fits xs used y =
      ((unused xs used).find? fun c => fits c.1 y).map Prod.snd := by
  rw [leastUnused?, ← snd_zipIdx, List.find?_map, unused, List.find?_filter]
  congr 1
  refine List.find?_congr fun c hc => ?_
  have hget := List.mem_zipIdx_iff_getElem?.1 hc
  simp [hget]

/-- Taking an element from the unused ones is using its place. -/
theorem eraseP_unused {p : α × Nat → Bool} {xs : List α} {used : List Nat} {c : α × Nat}
    (h : (unused xs used).find? p = some c) :
    (unused xs used).eraseP p = unused xs (c.2 :: used) := by
  have hsorted : (unused xs used).Pairwise fun c d => c.2 < d.2 := (pairwise_snd_zipIdx xs).filter _
  have hmore : unused xs (c.2 :: used) = (unused xs used).filter fun d => d.2 ≠ c.2 := by
    rw [unused, unused, List.filter_filter]
    refine List.filter_congr fun d _ => ?_
    simp
  obtain ⟨hc, before, after, hsplit, hbefore⟩ := List.find?_eq_some_iff_append.1 h
  rw [hsplit] at hsorted
  obtain ⟨_, hafter, hlt⟩ := List.pairwise_append.1 hsorted
  have hne (d) (hd : d ∈ before ++ after) : d.2 ≠ c.2 := by
    rcases List.mem_append.1 hd with hd | hd
    · exact Nat.ne_of_lt (hlt d hd c List.mem_cons_self)
    · exact Nat.ne_of_gt ((List.pairwise_cons.1 hafter).1 d hd)
  have hkept : (before ++ after).filter (fun d => d.2 ≠ c.2) = before ++ after :=
    List.filter_eq_self.2 fun d hd => by simpa using hne d hd
  rw [hmore, hsplit, List.eraseP_append_right _ fun d hd => by simpa using hbefore d hd,
    List.eraseP_cons_of_pos hc, List.filter_append, List.filter_cons_of_neg (by simp),
    ← List.filter_append, hkept]

theorem assign_eq_scan (fits : α → β → Bool) (xs : List α) (used : List Nat) (ys : List β) :
    assign fits (unused xs used) ys = scan fits xs used ys := by
  induction ys generalizing used with
  | nil => rfl
  | cons y ys ih =>
      rw [assign, scan, takeFirst?_eq_find?, leastUnused?_eq_map_find?]
      cases hfind : (unused xs used).find? fun c => fits c.1 y with
      | none => exact congrArg _ (ih used)
      | some c =>
          have hrest := eraseP_unused hfind
          simp [hrest, ih]

theorem firstFit_eq_scan (fits : α → β → Bool) (xs : List α) (ys : List β) :
    firstFit fits xs ys = scan fits xs [] ys := by
  rw [← assign_eq_scan, firstFit, unused, List.filter_eq_self.2 fun c _ => by simp]

theorem scan_congr {fits fits' : α → β → Bool} {xs : List α} {ys : List β}
    (h : ∀ x ∈ xs, ∀ y ∈ ys, fits x y = fits' x y) (used : List Nat) :
    scan fits xs used ys = scan fits' xs used ys := by
  induction ys generalizing used with
  | nil => rfl
  | cons y ys ih =>
      have hplace : leastUnused? fits xs used y = leastUnused? fits' xs used y := by
        refine List.find?_congr fun i hi => ?_
        have hx := List.getElem?_eq_getElem (List.mem_range.1 hi)
        rw [hx, Option.any_some, Option.any_some, h _ (List.getElem_mem _) y List.mem_cons_self]
      rw [scan, scan, hplace, ih fun x hx z hz => h x hx z (List.mem_cons_of_mem y hz)]

end JsonDelta.Matching
