import JsonDelta.Proofs.Matching
/-!
First fit as a stable matching. Both sides take the earliest partner they can get: a pair of places
is matched exactly when it fits and neither place has an earlier partner. Only one matching obeys
this rule, and the rule does not tell the two lists apart. Main statement: first fit finds the same
pairs whichever of the two lists it scans.
-/

namespace JsonDelta.Matching

/-- A pair of places is matched exactly when it fits and neither place has an earlier partner. -/
def Stable (fit matched : Nat → Nat → Prop) : Prop :=
  ∀ i j, matched i j ↔ fit i j ∧ (∀ k < i, ¬matched k j) ∧ ∀ k < j, ¬matched i k

namespace Stable

variable {fit matched others : Nat → Nat → Prop}

theorem swap (h : Stable fit matched) : Stable (fun j i => fit i j) (fun j i => matched i j) :=
  fun j i => (h i j).trans (and_congr_right fun _ => and_comm)

theorem unique (h : Stable fit matched) (ho : Stable fit others) (i j : Nat) :
    matched i j ↔ others i j := by
  -- Earlier partners make a smaller sum of places.
  induction hsum : i + j using Nat.strong_induction_on generalizing i j with
  | _ sum ih =>
      subst hsum
      rw [h i j, ho i j]
      refine and_congr_right fun _ => and_congr ?_ ?_
      · exact forall₂_congr fun k hk => not_congr (ih (k + j) (by omega) k j rfl)
      · exact forall₂_congr fun k hk => not_congr (ih (i + k) (by omega) i k rfl)

end Stable

variable {α β : Type} {fits : α → β → Bool}

/-! Taking the first. -/

theorem takeFirst?_eq_find? (p : α → Bool) (xs : List α) :
    takeFirst? p xs = (xs.find? p).map fun x => (x, xs.eraseP p) := by
  induction xs with
  | nil => rfl
  | cons x xs ih =>
      by_cases h : p x
      · simp [takeFirst?, h]
      · simp [takeFirst?, h, ih, Function.comp_def]

theorem sublist_of_takeFirst? {p : α → Bool} {xs rest : List α} {y : α}
    (h : takeFirst? p xs = some (y, rest)) : rest.Sublist xs := by
  rw [takeFirst?_eq_find?] at h
  obtain ⟨_, _, heq⟩ := Option.map_eq_some_iff.1 h
  cases heq
  exact List.eraseP_sublist

/-- Nothing that satisfies `p` stands in front of what is taken. -/
theorem le_of_takeFirst? {p : α × Nat → Bool} {free rest : List (α × Nat)} {taken c : α × Nat}
    (hfree : free.Pairwise fun c d => c.2 < d.2) (h : takeFirst? p free = some (taken, rest))
    (hc : c ∈ free) (hp : p c = true) : taken.2 ≤ c.2 := by
  rw [takeFirst?_eq_find?] at h
  obtain ⟨_, hfind, heq⟩ := Option.map_eq_some_iff.1 h
  cases heq
  obtain ⟨_, before, after, rfl, hbefore⟩ := List.find?_eq_some_iff_append.1 hfind
  rcases List.mem_append.1 hc with hc | hc
  · have hno := hbefore c hc
    simp [hp] at hno
  · rcases List.mem_cons.1 hc with rfl | hc
    · exact Nat.le_refl _
    · have hlater := (List.pairwise_cons.1 (List.pairwise_append.1 hfree).2.1).1
      exact Nat.le_of_lt (hlater c hc)

/-! First fit is stable. -/

theorem pairwise_snd_zipIdx (xs : List α) : xs.zipIdx.Pairwise fun c d => c.2 < d.2 := by
  have hplaces : (xs.zipIdx.map Prod.snd).Pairwise (· < ·) := by
    rw [snd_zipIdx]
    exact List.pairwise_lt_range
  exact List.pairwise_map.1 hplaces

/-- Of two places that fit, one is matched with the other or with an earlier one. -/
theorem exists_earlier_of_fits {free : List (α × Nat)} {ys : List β} {x : α} {y : β} {i j : Nat}
    (hfree : free.Pairwise fun c d => c.2 < d.2) (hx : (x, i) ∈ free) (hy : ys[j]? = some y)
    (hf : fits x y = true) :
    (∃ k ≤ i, (assign fits free ys)[j]? = some (some k)) ∨
      ∃ k < j, (assign fits free ys)[k]? = some (some i) := by
  induction ys generalizing free j with
  | nil => simp at hy
  | cons z ys ih =>
      cases j with
      | zero =>
          obtain rfl : z = y := by simpa using hy
          cases hc : takeFirst? (fun candidate => fits candidate.1 z) free with
          | none =>
              have hno := takeFirst?_eq_none_iff.1 hc (x, i) hx
              simp [hf] at hno
          | some found =>
              have hle := le_of_takeFirst? hfree hc hx hf
              exact .inl ⟨found.1.2, hle, by rw [assign_cons_some hc, List.getElem?_cons_zero]⟩
      | succ j =>
          -- Either `x` is taken now, or it is still free for the rest of the run.
          have hlater {place : Option Nat} {rest : List (α × Nat)}
              (hassign : assign fits free (z :: ys) = place :: assign fits rest ys)
              (hrest : rest.Sublist free) (hmem : (x, i) ∈ rest) :
              (∃ k ≤ i, (assign fits free (z :: ys))[j + 1]? = some (some k)) ∨
                ∃ k < j + 1, (assign fits free (z :: ys))[k]? = some (some i) := by
            rw [hassign]
            rcases ih (hfree.sublist hrest) hmem (by simpa using hy) with ⟨k, hk, h⟩ | ⟨k, hk, h⟩
            · exact .inl ⟨k, hk, by simpa using h⟩
            · exact .inr ⟨k + 1, by omega, by simpa using h⟩
          cases hc : takeFirst? (fun candidate => fits candidate.1 z) free with
          | none => exact hlater (assign_cons_none hc) (.refl _) hx
          | some found =>
              obtain ⟨taken, rest⟩ := found
              rcases List.mem_cons.1 ((perm_of_takeFirst? hc).symm.subset hx) with rfl | hmem
              · exact .inr ⟨0, Nat.succ_pos j, by rw [assign_cons_some hc, List.getElem?_cons_zero]⟩
              · exact hlater (assign_cons_some hc) (sublist_of_takeFirst? hc) hmem

theorem eq_of_firstFit_eq_some {xs : List α} {ys : List β} {i j k : Nat}
    (hj : (firstFit fits xs ys)[j]? = some (some i))
    (hk : (firstFit fits xs ys)[k]? = some (some i)) : j = k := by
  have hnodup := nodup_reduceOption_firstFit fits xs ys
  rw [List.reduceOption, List.Nodup, List.pairwise_filterMap, List.pairwise_iff_getElem] at hnodup
  obtain ⟨hj, hji⟩ := List.getElem?_eq_some_iff.1 hj
  obtain ⟨hk, hki⟩ := List.getElem?_eq_some_iff.1 hk
  rcases Nat.lt_trichotomy j k with hlt | heq | hlt
  · exact absurd rfl (hnodup j k hj hk hlt i hji i hki)
  · exact heq
  · exact absurd rfl (hnodup k j hk hj hlt i hki i hji)

/-- The elements at two places fit. -/
def FitsAt (fits : α → β → Bool) (xs : List α) (ys : List β) (i j : Nat) : Prop :=
  ∃ x y, xs[i]? = some x ∧ ys[j]? = some y ∧ fits x y = true

theorem stable_firstFit (fits : α → β → Bool) (xs : List α) (ys : List β) :
    Stable (FitsAt fits xs ys) fun i j => (firstFit fits xs ys)[j]? = some (some i) := by
  intro i j
  constructor
  · intro h
    refine ⟨fits_of_firstFit h, fun k hk hkj => ?_, fun k hk hik => ?_⟩
    · obtain rfl : i = k := by simpa using h.symm.trans hkj
      exact Nat.lt_irrefl i hk
    · exact Nat.ne_of_lt hk (eq_of_firstFit_eq_some hik h)
  · rintro ⟨⟨x, y, hx, hy, hf⟩, hi, hj⟩
    have hfree : (x, i) ∈ xs.zipIdx := List.mem_zipIdx_iff_getElem?.2 hx
    rcases exists_earlier_of_fits (pairwise_snd_zipIdx xs) hfree hy hf with
      ⟨k, hk, hkj⟩ | ⟨k, hk, hik⟩
    · rcases Nat.lt_or_eq_of_le hk with hlt | rfl
      · exact absurd hkj (hi k hlt)
      · exact hkj
    · exact absurd hik (hj k hk)

/-- Only which places fit decides how two lists are matched. -/
theorem firstFit_eq_of_fitsAt {γ δ : Type} {fits' : γ → δ → Bool} {xs : List α} {ys : List β}
    {zs : List γ} {ws : List δ} (hlen : ys.length = ws.length)
    (h : ∀ i j, FitsAt fits xs ys i j ↔ FitsAt fits' zs ws i j) :
    firstFit fits xs ys = firstFit fits' zs ws := by
  have hfits : FitsAt fits xs ys = FitsAt fits' zs ws := funext₂ fun i j => propext (h i j)
  have hstable := stable_firstFit fits xs ys
  rw [hfits] at hstable
  refine List.ext_getElem (by simpa using hlen) fun j hj hj' => Option.ext fun i => ?_
  have hplace := hstable.unique (stable_firstFit fits' zs ws) i j
  rwa [List.getElem?_eq_getElem hj, List.getElem?_eq_getElem hj', Option.some_inj,
    Option.some_inj] at hplace

/-- Where equal places fit, every place takes its equal. -/
theorem firstFit_eq_map_range {xs : List α} {ys : List β}
    (h : List.Forall₂ (fun x y => fits x y = true) xs ys) :
    firstFit fits xs ys = (List.range ys.length).map some := by
  obtain ⟨hlen, hall⟩ := List.forall₂_iff_get.1 h
  have hdiagonal : Stable (FitsAt fits xs ys) fun i j => i = j ∧ j < ys.length := by
    intro i j
    constructor
    · rintro ⟨rfl, hi⟩
      refine ⟨⟨xs[i], ys[i], List.getElem?_eq_getElem _, List.getElem?_eq_getElem hi, ?_⟩, ?_, ?_⟩
      · exact hall i (hlen ▸ hi) hi
      · exact fun k hk hki => Nat.ne_of_lt hk hki.1
      · exact fun k hk hik => Nat.ne_of_gt hk hik.1
    · rintro ⟨⟨x, y, hx, hy, _⟩, hi, hj⟩
      have hx : i < xs.length := (List.getElem?_eq_some_iff.1 hx).1
      have hy : j < ys.length := (List.getElem?_eq_some_iff.1 hy).1
      rcases Nat.lt_trichotomy i j with hlt | heq | hlt
      · exact absurd ⟨rfl, hlen ▸ hx⟩ (hj i hlt)
      · exact ⟨heq, hy⟩
      · exact absurd ⟨rfl, hy⟩ (hi j hlt)
  refine List.ext_getElem (by simp) fun j hj _ => ?_
  have hj : j < ys.length := by simpa using hj
  have hget := ((stable_firstFit fits xs ys).unique hdiagonal j j).2 ⟨rfl, hj⟩
  simpa using (List.getElem?_eq_some_iff.1 hget).2

/-! The other way round. -/

section Swap

variable {fits' : β → α → Bool} {xs : List α} {ys : List β}

theorem firstFit_swap (h : ∀ x ∈ xs, ∀ y ∈ ys, fits x y = fits' y x) (i j : Nat) :
    (firstFit fits xs ys)[j]? = some (some i) ↔ (firstFit fits' ys xs)[i]? = some (some j) := by
  have hfit : (fun i j => FitsAt fits' ys xs j i) = FitsAt fits xs ys := by
    funext i j
    refine propext ⟨?_, ?_⟩
    · rintro ⟨y, x, hy, hx, hf⟩
      rw [← h x (List.mem_of_getElem? hx) y (List.mem_of_getElem? hy)] at hf
      exact ⟨x, y, hx, hy, hf⟩
    · rintro ⟨x, y, hx, hy, hf⟩
      rw [h x (List.mem_of_getElem? hx) y (List.mem_of_getElem? hy)] at hf
      exact ⟨y, x, hy, hx, hf⟩
  have hswapped := (stable_firstFit fits' ys xs).swap
  rw [hfit] at hswapped
  exact (stable_firstFit fits xs ys).unique hswapped i j

/-- If every place finds a partner in one direction and the lists are equally long, every place
finds one in the other. -/
theorem isSome_of_mem_firstFit_swap (h : ∀ x ∈ xs, ∀ y ∈ ys, fits x y = fits' y x)
    (hlen : xs.length = ys.length) (hall : ∀ place ∈ firstFit fits xs ys, place.isSome) :
    ∀ place ∈ firstFit fits' ys xs, place.isSome := by
  -- As many distinct places as there are in `xs` are taken, so all of them are.
  have hcount : (firstFit fits xs ys).reduceOption.length = xs.length := by
    rw [List.reduceOption_length_eq_iff.2 hall, length_firstFit, hlen]
  have hsub : (firstFit fits xs ys).reduceOption ⊆ List.range xs.length := fun i hi =>
    List.mem_range.2 (lt_length_of_mem_firstFit (List.reduceOption_mem_iff.1 hi))
  have hsubperm := List.subperm_of_subset (nodup_reduceOption_firstFit fits xs ys) hsub
  have hperm := hsubperm.perm_of_length_le (by rw [hcount, List.length_range])
  intro place hplace
  obtain ⟨i, hi⟩ := List.mem_iff_getElem?.1 hplace
  have hlt : i < xs.length := by
    simpa using (List.getElem?_eq_some_iff.1 hi).1
  have htaken := hperm.mem_iff.2 (List.mem_range.2 hlt)
  obtain ⟨j, hj⟩ := List.mem_iff_getElem?.1 (List.reduceOption_mem_iff.1 htaken)
  rw [(firstFit_swap h i j).1 hj] at hi
  cases hi
  rfl

end Swap

end JsonDelta.Matching
