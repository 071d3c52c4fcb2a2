import Mathlib.Data.Fintype.List
import Mathlib.Data.List.FinRange
import Mathlib.Data.List.NodupEquivFin
import Mathlib.Data.List.ReduceOption
import Mathlib.Data.Multiset.MapFold
import JsonDelta.Matching
/-!
Laws of first-fit matching. A match is a fit, no element is taken twice, and an element that stays
free fits no element that stays unmatched. Greedy choices cost nothing when fitting is
rectangular: if any perfect matching exists, first fit finds one.
-/

namespace JsonDelta.Matching

variable {α β : Type} {fits : α → β → Bool}

/-! What a whole run does, told by what is free at its start. -/

theorem assign_cons_some {free rest : List (α × Nat)} {y : β} {ys : List β} {taken : α × Nat}
    (h : takeFirst? (fun candidate => fits candidate.1 y) free = some (taken, rest)) :
    assign fits free (y :: ys) = some taken.2 :: assign fits rest ys := by
  rw [assign, h]

theorem assign_cons_none {free : List (α × Nat)} {y : β} {ys : List β}
    (h : takeFirst? (fun candidate => fits candidate.1 y) free = none) :
    assign fits free (y :: ys) = none :: assign fits free ys := by
  rw [assign, h]

theorem fits_of_assign {free : List (α × Nat)} {ys : List β} {i j : Nat}
    (h : (assign fits free ys)[j]? = some (some i)) :
    ∃ x y, (x, i) ∈ free ∧ ys[j]? = some y ∧ fits x y = true := by
  induction ys generalizing free j with
  | nil => simp [assign] at h
  | cons y ys ih =>
      cases hc : takeFirst? (fun candidate => fits candidate.1 y) free with
      | none =>
          rw [assign_cons_none hc] at h
          cases j with
          | zero => simp at h
          | succ j => simpa using ih (by simpa using h)
      | some found =>
          obtain ⟨⟨x, k⟩, rest⟩ := found
          have hperm := perm_of_takeFirst? hc
          rw [assign_cons_some hc] at h
          cases j with
          | zero =>
              obtain rfl : k = i := by simpa using h
              have hf := satisfies_of_takeFirst? (p := fun c : α × Nat => fits c.1 y) hc
              exact ⟨x, y, hperm.subset List.mem_cons_self, rfl, hf⟩
          | succ j =>
              obtain ⟨x', y', hx, hy, hf⟩ := ih (by simpa using h)
              exact ⟨x', y', hperm.subset (List.mem_cons_of_mem _ hx), by simpa using hy, hf⟩

theorem mem_free_of_mem_assign {free : List (α × Nat)} {ys : List β} {i : Nat}
    (h : some i ∈ assign fits free ys) : i ∈ free.map Prod.snd := by
  obtain ⟨j, hj⟩ := List.mem_iff_getElem?.1 h
  obtain ⟨x, _, hx, _⟩ := fits_of_assign hj
  exact List.mem_map.2 ⟨(x, i), hx, rfl⟩

theorem nodup_reduceOption_assign {free : List (α × Nat)} {ys : List β}
    (h : (free.map Prod.snd).Nodup) : (assign fits free ys).reduceOption.Nodup := by
  induction ys generalizing free with
  | nil => simp [assign]
  | cons y ys ih =>
      cases hc : takeFirst? (fun candidate => fits candidate.1 y) free with
      | none =>
          rw [assign_cons_none hc, List.reduceOption_cons_of_none]
          exact ih h
      | some found =>
          obtain ⟨taken, rest⟩ := found
          have hperm := (perm_of_takeFirst? hc).map Prod.snd
          obtain ⟨hnew, hrest⟩ := List.nodup_cons.1 (hperm.nodup_iff.2 h)
          rw [assign_cons_some hc, List.reduceOption_cons_of_some]
          refine List.nodup_cons.2 ⟨fun hmem => hnew ?_, ih hrest⟩
          exact mem_free_of_mem_assign (List.reduceOption_mem_iff.1 hmem)

/-- What is still free at the end was free all the time, so no unmatched element could have taken
it. -/
theorem not_fits_of_assign {free : List (α × Nat)} {ys : List β} {x : α} {y : β} {i j : Nat}
    (hx : (x, i) ∈ free) (hi : some i ∉ assign fits free ys) (hy : ys[j]? = some y)
    (hj : (assign fits free ys)[j]? = some none) : fits x y = false := by
  -- What is never taken is still free when the run comes to `y`.
  induction ys generalizing free j with
  | nil => simp at hy
  | cons z ys ih =>
      cases hc : takeFirst? (fun candidate => fits candidate.1 z) free with
      | none =>
          rw [assign_cons_none hc] at hi hj
          cases j with
          | zero =>
              obtain rfl : z = y := by simpa using hy
              exact takeFirst?_eq_none_iff.1 hc (x, i) hx
          | succ j =>
              exact ih hx (fun h => hi (List.mem_cons_of_mem _ h)) (by simpa using hy)
                (by simpa using hj)
      | some found =>
          obtain ⟨taken, rest⟩ := found
          rw [assign_cons_some hc] at hi hj
          cases j with
          | zero => simp at hj
          | succ j =>
              have hrest : (x, i) ∈ rest := by
                rcases List.mem_cons.1 ((perm_of_takeFirst? hc).symm.subset hx) with rfl | h
                · exact absurd List.mem_cons_self hi
                · exact h
              exact ih hrest (fun h => hi (List.mem_cons_of_mem _ h)) (by simpa using hy)
                (by simpa using hj)

/-! The same for runs that start with a whole list. -/

theorem snd_zipIdx (xs : List α) : xs.zipIdx.map Prod.snd = List.range xs.length := by
  rw [List.zipIdx_map_snd, List.range_eq_range']

theorem fits_of_firstFit {xs : List α} {ys : List β} {i j : Nat}
    (h : (firstFit fits xs ys)[j]? = some (some i)) :
    ∃ x y, xs[i]? = some x ∧ ys[j]? = some y ∧ fits x y = true := by
  obtain ⟨x, y, hx, hy, hf⟩ := fits_of_assign h
  exact ⟨x, y, List.mem_zipIdx_iff_getElem?.1 hx, hy, hf⟩

theorem lt_length_of_mem_firstFit {xs : List α} {ys : List β} {i : Nat}
    (h : some i ∈ firstFit fits xs ys) : i < xs.length := by
  simpa [snd_zipIdx] using mem_free_of_mem_assign h

theorem nodup_reduceOption_firstFit (fits : α → β → Bool) (xs : List α) (ys : List β) :
    (firstFit fits xs ys).reduceOption.Nodup :=
  nodup_reduceOption_assign (by rw [snd_zipIdx]; exact List.nodup_range)

theorem not_fits_of_firstFit {xs : List α} {ys : List β} {x : α} {y : β} {i j : Nat}
    (hx : xs[i]? = some x) (hi : some i ∉ firstFit fits xs ys) (hy : ys[j]? = some y)
    (hj : (firstFit fits xs ys)[j]? = some none) : fits x y = false :=
  not_fits_of_assign (List.mem_zipIdx_iff_getElem?.2 hx) hi hy hj

/-! Perfect matchings. A perfect matching of two collections is a derivation of `Multiset.Rel`; of
two lists it is a bijection of their indices. -/

theorem rel_of_forall₂ {r : α → β → Prop} {xs : List α} {ys : List β}
    (h : List.Forall₂ r xs ys) : Multiset.Rel r xs ys := by
  induction h with
  | nil => exact .zero
  | cons hxy _ ih => exact .cons hxy ih

theorem exists_forall₂_of_rel {r : α → β → Prop} {xs : List α} {ys : List β}
    (h : Multiset.Rel r xs ys) : ∃ zs, List.Forall₂ r xs zs ∧ zs.Perm ys := by
  induction xs generalizing ys with
  | nil =>
      obtain rfl : ys = [] := by simpa using h
      exact ⟨[], .nil, .refl _⟩
  | cons x xs ih =>
      rw [← Multiset.cons_coe, Multiset.rel_cons_left] at h
      obtain ⟨y, rest, hxy, hrest, hys⟩ := h
      induction rest using Quotient.inductionOn with
      | h rest =>
          obtain ⟨zs, hzs, hperm⟩ := ih hrest
          have hys : ys.Perm (y :: rest) := Multiset.coe_eq_coe.1 hys
          exact ⟨y :: zs, .cons hxy hzs, (hperm.cons y).trans hys.symm⟩

theorem rel_of_equiv {r : α → β → Prop} {xs : List α} {ys : List β}
    (σ : Fin xs.length ≃ Fin ys.length) (h : ∀ i, r (xs.get i) (ys.get (σ i))) :
    Multiset.Rel r xs ys := by
  have hperm : ((List.finRange xs.length).map σ).Perm (List.finRange ys.length) := by
    refine (List.perm_ext_iff_of_nodup ?_ (List.nodup_finRange _)).2 fun j => ?_
    · exact (List.nodup_finRange _).map σ.injective
    · simpa using ⟨σ.symm j, σ.apply_symm_apply j⟩
  rw [← List.map_get_finRange xs, ← List.map_get_finRange ys, ← Multiset.coe_eq_coe.2 (hperm.map _),
    ← Multiset.map_coe, ← Multiset.map_coe, ← Multiset.map_coe, Multiset.map_map, Multiset.rel_map]
  exact Multiset.rel_refl_of_refl_on fun i _ => h i

theorem exists_equiv_of_rel {r : α → β → Prop} {xs : List α} {ys : List β}
    (h : Multiset.Rel r xs ys) :
    ∃ σ : Fin xs.length ≃ Fin ys.length, ∀ i, r (xs.get i) (ys.get (σ i)) := by
  rw [← List.map_get_finRange xs, ← List.map_get_finRange ys, ← Multiset.map_coe,
    ← Multiset.map_coe, Multiset.rel_map] at h
  obtain ⟨places, hplaces, hperm⟩ := exists_forall₂_of_rel h
  have hlen : xs.length = places.length := by simpa using hplaces.length_eq
  have hnodup : places.Nodup := hperm.nodup_iff.2 (List.nodup_finRange _)
  have hmem (j : Fin ys.length) : j ∈ places := hperm.mem_iff.2 (List.mem_finRange j)
  refine ⟨(finCongr hlen).trans (hnodup.getEquivOfForallMemList places hmem), fun i => ?_⟩
  simpa using hplaces.get (i := i.val) (by simp) (by omega)

/-- Pairs that meet every place on both sides once make up a bijection. -/
theorem exists_equiv_of_pairs {r : Nat → Nat → Prop} {pairs : List (Nat × Nat)} {m n : Nat}
    (hfst : (pairs.map Prod.fst).Perm (List.range m))
    (hsnd : (pairs.map Prod.snd).Perm (List.range n)) (h : ∀ i j, (i, j) ∈ pairs → r i j) :
    ∃ σ : Fin m ≃ Fin n, ∀ i, r i.val (σ i).val := by
  have hrel : Multiset.Rel r (List.range m) (List.range n) := by
    rw [← Multiset.coe_eq_coe.2 hfst, ← Multiset.coe_eq_coe.2 hsnd, ← Multiset.map_coe,
      ← Multiset.map_coe, Multiset.rel_map]
    exact Multiset.rel_refl_of_refl_on fun p hp => h p.1 p.2 hp
  obtain ⟨σ, hσ⟩ := exists_equiv_of_rel hrel
  have hm : m = (List.range m).length := List.length_range.symm
  refine ⟨(finCongr hm).trans (σ.trans (finCongr List.length_range)), fun i => ?_⟩
  simpa using hσ (finCongr hm i)

/-- Elements that share a neighbour have all their neighbours in common. -/
def Rectangular (r : α → β → Prop) : Prop :=
  ∀ a a' b b', r a b → r a' b → r a' b' → r a b'

/-- A pair that fits can be taken out of a perfect matching, whatever its two elements were matched
with: their former partners fit each other. -/
theorem Rectangular.rel_of_cons {r : α → β → Prop} (hr : Rectangular r) {a : α} {b : β}
    {as : Multiset α} {bs : Multiset β} (hab : r a b) (h : Multiset.Rel r (a ::ₘ as) (b ::ₘ bs)) :
    Multiset.Rel r as bs := by
  obtain ⟨b', bs', hab', has, hbs⟩ := Multiset.rel_cons_left.1 h
  rcases Multiset.cons_eq_cons.1 hbs with ⟨_, rfl⟩ | ⟨_, cs, rfl, rfl⟩
  · exact has
  · obtain ⟨a', as', ha'b, has', rfl⟩ := Multiset.rel_cons_right.1 has
    exact .cons (hr a' a b b' ha'b hab hab') has'

theorem isSome_of_mem_assign {r : α → β → Prop} (hr : Rectangular r) {free : List (α × Nat)}
    {ys : List β} (hf : ∀ x ∈ free.map Prod.fst, ∀ y ∈ ys, fits x y = true ↔ r x y)
    (h : Multiset.Rel r (free.map Prod.fst) ys) :
    ∀ place ∈ assign fits free ys, place.isSome := by
  induction ys generalizing free with
  | nil => simp [assign]
  | cons y ys ih =>
      have hy := List.mem_cons_self (a := y) (l := ys)
      cases hc : takeFirst? (fun candidate => fits candidate.1 y) free with
      | none =>
          -- The partner of `y` is still free, and it fits.
          obtain ⟨x, rest, hxy, _, hfree⟩ := Multiset.rel_cons_right.1 (Multiset.cons_coe y ys ▸ h)
          have hx : x ∈ free.map Prod.fst := by
            rw [← Multiset.mem_coe, hfree]
            exact Multiset.mem_cons_self x rest
          obtain ⟨candidate, hmem, rfl⟩ := List.mem_map.1 hx
          have hno := takeFirst?_eq_none_iff.1 hc candidate hmem
          simp [(hf _ hx y hy).2 hxy] at hno
      | some found =>
          obtain ⟨taken, rest⟩ := found
          have hperm := (perm_of_takeFirst? hc).map Prod.fst
          rw [List.map_cons] at hperm
          have hfits := satisfies_of_takeFirst? (p := fun c : α × Nat => fits c.1 y) hc
          have htaken := (hf _ (hperm.subset List.mem_cons_self) y hy).1 hfits
          -- What was taken need not be the partner of `y`, but the rest still has a matching.
          have hrest : Multiset.Rel r (rest.map Prod.fst) ys := by
            refine hr.rel_of_cons htaken ?_
            rwa [Multiset.cons_coe, Multiset.cons_coe, Multiset.coe_eq_coe.2 hperm]
          rw [assign_cons_some hc]
          refine List.forall_mem_cons.2 ⟨rfl, ih (fun x hx z hz => ?_) hrest⟩
          exact hf x (hperm.subset (List.mem_cons_of_mem _ hx)) z (List.mem_cons_of_mem _ hz)

theorem rel_of_assign {free : List (α × Nat)} {ys : List β} (hlen : free.length = ys.length)
    (h : ∀ place ∈ assign fits free ys, place.isSome) :
    Multiset.Rel (fun x y => fits x y = true) (free.map Prod.fst) ys := by
  induction ys generalizing free with
  | nil =>
      obtain rfl : free = [] := List.eq_nil_of_length_eq_zero hlen
      exact .zero
  | cons y ys ih =>
      cases hc : takeFirst? (fun candidate => fits candidate.1 y) free with
      | none => simp [assign_cons_none hc] at h
      | some found =>
          obtain ⟨taken, rest⟩ := found
          have hperm := perm_of_takeFirst? hc
          have hfits := satisfies_of_takeFirst? (p := fun c : α × Nat => fits c.1 y) hc
          rw [assign_cons_some hc] at h
          have hrest := ih (by simpa [hlen] using hperm.length_eq) (List.forall_mem_cons.1 h).2
          rw [← Multiset.coe_eq_coe.2 (hperm.map Prod.fst), List.map_cons, ← Multiset.cons_coe,
            ← Multiset.cons_coe]
          exact .cons hfits hrest

/-- A run that matches everything is a perfect matching. -/
theorem rel_of_firstFit {xs : List α} {ys : List β} (hlen : xs.length = ys.length)
    (h : ∀ place ∈ firstFit fits xs ys, place.isSome) :
    Multiset.Rel (fun x y => fits x y = true) xs ys := by
  have hrel := rel_of_assign (by simpa using hlen) h
  rwa [List.zipIdx_map_fst 0 xs] at hrel

/-- First fit finds a perfect matching if there is one. -/
theorem isSome_of_mem_firstFit {r : α → β → Prop} (hr : Rectangular r) {xs : List α} {ys : List β}
    (hf : ∀ x ∈ xs, ∀ y ∈ ys, fits x y = true ↔ r x y) (h : Multiset.Rel r xs ys) :
    ∀ place ∈ firstFit fits xs ys, place.isSome := by
  have hfst : xs.zipIdx.map Prod.fst = xs := List.zipIdx_map_fst 0 xs
  exact isSome_of_mem_assign hr (by rwa [hfst]) (by rwa [hfst])

end JsonDelta.Matching
