import Mathlib.Data.List.Nodup
import Mathlib.Data.List.Perm.Basic
import JsonDelta.Diff.Compare
import JsonDelta.Proofs.Document.Members
import JsonDelta.Proofs.Matching
/-!
Alignments. Every old place is matched or left over, every new place is matched, a partner of a
leftover, or added, and none twice. Comparing in order is an alignment too, one that pairs equal
indices.
-/

namespace JsonDelta

namespace Alignment

/-! Pairing up the leftovers. -/

theorem filterMap_snd_pairUp (partners : Nat → Nat → Bool) (old new : List Nat) :
    (pairUp partners old new).1.filterMap Prod.snd ++ (pairUp partners old new).2 = new := by
  fun_induction pairUp partners old new <;> simp_all

theorem partners_of_mem_pairUp {partners : Nat → Nat → Bool} {old new : List Nat} {i j : Nat}
    (h : (i, some j) ∈ (pairUp partners old new).1) : partners i j = true := by
  fun_induction pairUp partners old new with
  | case1 => cases h
  | case2 i old => simp at h
  | case3 k old l new hkl leftovers rest hrest ih =>
      rcases List.mem_cons.1 h with heq | h
      · cases heq
        exact hkl
      · exact ih (by rwa [hrest])
  | case4 k old l new hkl leftovers rest hrest ih =>
      rcases List.mem_cons.1 h with heq | h
      · cases heq
      · exact ih (by rwa [hrest])

/-- Matched items keep their index. -/
def Unmoved (alignment : Alignment) : Prop := ∀ i j, (i, j) ∈ alignment.matched → i = j

/-! Covering both arrays. -/

/-- Nothing of two arrays of these lengths is lost or counted twice, and leftovers come in order. -/
structure Covers (alignment : Alignment) (oldLength newLength : Nat) : Prop where
  old : (alignment.matched.map Prod.fst ++ alignment.leftovers.map Prod.fst).Perm
    (List.range oldLength)
  new : (alignment.matched.map Prod.snd ++
    (alignment.leftovers.filterMap Prod.snd ++ alignment.added)).Perm (List.range newLength)
  leftovers_sublist : (alignment.leftovers.map Prod.fst).Sublist (List.range oldLength)

namespace Covers

variable {alignment : Alignment} {oldLength newLength : Nat}

theorem nodup_leftovers (h : alignment.Covers oldLength newLength) :
    (alignment.leftovers.map Prod.fst).Nodup :=
  h.leftovers_sublist.nodup List.nodup_range

theorem lt_of_mem_matched (h : alignment.Covers oldLength newLength) {i j : Nat}
    (hmem : (i, j) ∈ alignment.matched) : j < newLength :=
  List.mem_range.1 (h.new.subset (List.mem_append_left _ (List.mem_map_of_mem hmem)))

theorem lt_of_mem_leftovers (h : alignment.Covers oldLength newLength) {i : Nat}
    {partner : Option Nat} (hmem : (i, partner) ∈ alignment.leftovers) : i < oldLength :=
  List.mem_range.1 (h.leftovers_sublist.subset (List.mem_map_of_mem hmem))

theorem lt_of_partner (h : alignment.Covers oldLength newLength) {i j : Nat}
    (hmem : (i, some j) ∈ alignment.leftovers) : j < newLength := by
  refine List.mem_range.1 (h.new.subset (List.mem_append_right _ ?_))
  exact List.mem_append_left _ (List.mem_filterMap.2 ⟨_, hmem, rfl⟩)

theorem lt_of_mem_added (h : alignment.Covers oldLength newLength) {j : Nat}
    (hmem : j ∈ alignment.added) : j < newLength :=
  List.mem_range.1 (h.new.subset (List.mem_append_right _ (List.mem_append_right _ hmem)))

theorem lookup_of_mem_leftovers (h : alignment.Covers oldLength newLength) {i : Nat}
    {partner : Option Nat} (hmem : (i, partner) ∈ alignment.leftovers) :
    alignment.leftovers.lookup i = some partner :=
  (Members.lookup_eq_some_iff h.nodup_leftovers).2 hmem

theorem lookup_of_mem_matched (h : alignment.Covers oldLength newLength) {i j : Nat}
    (hmem : (i, j) ∈ alignment.matched) : alignment.leftovers.lookup i = none := by
  rw [Members.lookup_eq_none_iff]
  intro hleft
  have hnodup := h.old.nodup_iff.2 List.nodup_range
  exact (List.nodup_append.1 hnodup).2.2 i (List.mem_map_of_mem hmem) i hleft rfl

end Covers

/-- Leftovers that come in order are met on a walk through all old places. -/
theorem flatMap_leftovers {β γ : Type} {leftovers : List (Nat × β)} {i n : Nat}
    (h : (leftovers.map Prod.fst).Sublist (List.range' i n)) (f : Nat × β → List γ) :
    leftovers.flatMap f =
      (List.range' i n).flatMap fun k => ((leftovers.lookup k).map fun b => f (k, b)).getD [] := by
  induction n generalizing i leftovers with
  | zero =>
      obtain rfl : leftovers = [] := List.map_eq_nil_iff.1 (List.sublist_nil.1 h)
      rfl
  | succ n ih =>
      rw [List.range'_succ] at h ⊢
      rw [List.flatMap_cons]
      cases leftovers with
      | nil => simp
      | cons leftover leftovers =>
          obtain ⟨k, b⟩ := leftover
          have hbound {l : Nat} (hl : l ∈ List.range' (i + 1) n) : i < l := by
            have := List.mem_range'_1.1 hl
            omega
          -- The first leftover is met now, or no leftover is.
          by_cases hk : k = i
          · subst hk
            have htail : (leftovers.map Prod.fst).Sublist (List.range' (k + 1) n) := by
              simpa using h
            rw [List.flatMap_cons, ih htail, List.lookup_cons_self]
            congr 1
            refine List.flatMap_congr fun l hl => ?_
            have hne := hbound hl
            rw [List.lookup_cons, beq_false_of_ne (by omega)]
          · have hsub : (((k, b) :: leftovers).map Prod.fst).Sublist (List.range' (i + 1) n) := by
              cases h with
              | cons _ h => exact h
              | cons_cons _ _ => exact absurd rfl hk
            have hnone : ((k, b) :: leftovers).lookup i = none := by
              rw [Members.lookup_eq_none_iff]
              intro hmem
              exact Nat.lt_irrefl i (hbound (hsub.subset hmem))
            rw [ih hsub, hnone]
            rfl

/-! Matches and leftovers of items in any order. -/

theorem mem_unmatchedNew {places : List (Option Nat)} {j : Nat} :
    j ∈ unmatchedNew places ↔ places[j]? = some none := by
  rw [unmatchedNew, List.mem_filterMap]
  constructor
  · rintro ⟨⟨place, k⟩, hmem, heq⟩
    cases place with
    | none =>
        obtain rfl : k = j := by simpa using heq
        exact List.mem_zipIdx_iff_getElem?.1 hmem
    | some i => simp at heq
  · intro h
    exact ⟨(none, j), List.mem_zipIdx_iff_getElem?.2 h, rfl⟩

theorem matched_append_unmatchedNew_perm (places : List (Option Nat × Nat)) :
    ((places.filterMap fun (place, j) => place.map fun i => (i, j)).map Prod.snd ++
      places.filterMap fun (place, j) => if place = none then some j else none).Perm
        (places.map Prod.snd) := by
  induction places with
  | nil => exact .refl _
  | cons p places ih =>
      obtain ⟨place, j⟩ := p
      cases place with
      | none => simpa using List.perm_middle.trans (ih.cons j)
      | some i => simpa using ih.cons j

section OfItems

variable {old new : List Document}

variable [StandardHash]

theorem matched_ofItems :
    (ofItems old new).matched =
      (Document.matchItems old new).zipIdx.filterMap fun (place, j) => place.map fun i => (i, j) :=
  rfl

theorem map_fst_leftovers_ofItems :
    (ofItems old new).leftovers.map Prod.fst =
      unmatchedOld old (Document.matchItems old new) :=
  map_fst_pairUp ..

theorem new_leftovers_ofItems :
    (ofItems old new).leftovers.filterMap Prod.snd ++ (ofItems old new).added =
      unmatchedNew (Document.matchItems old new) :=
  filterMap_snd_pairUp ..

theorem map_fst_matched_ofItems :
    (ofItems old new).matched.map Prod.fst = (Document.matchItems old new).reduceOption := by
  conv => rhs; rw [← List.zipIdx_map_fst 0 (Document.matchItems old new)]
  rw [matched_ofItems, List.reduceOption, List.filterMap_map, List.map_filterMap]
  refine List.filterMap_congr fun ⟨place, j⟩ _ => ?_
  cases place <;> rfl

theorem mem_matched_ofItems {i j : Nat} :
    (i, j) ∈ (ofItems old new).matched ↔ (Document.matchItems old new)[j]? = some (some i) := by
  rw [matched_ofItems, List.mem_filterMap]
  constructor
  · rintro ⟨⟨place, k⟩, hmem, heq⟩
    obtain ⟨i', rfl, hik⟩ := Option.map_eq_some_iff.1 heq
    cases hik
    exact List.mem_zipIdx_iff_getElem?.1 hmem
  · intro h
    exact ⟨(some i, j), List.mem_zipIdx_iff_getElem?.2 h, rfl⟩

theorem fits_of_mem_matched {i j : Nat} (h : (i, j) ∈ (ofItems old new).matched) :
    ∃ a b, old[i]? = some a ∧ new[j]? = some b ∧ Document.fits a b = true := by
  rw [mem_matched_ofItems, Document.matchItems_eq_firstFit] at h
  exact Matching.fits_of_firstFit h

/-- An old item that was left over fits no new item that was left over. -/
theorem not_fits_of_leftovers {i j : Nat} {a b : Document} (ha : old[i]? = some a)
    (hb : new[j]? = some b) (hi : i ∈ (ofItems old new).leftovers.map Prod.fst)
    (hj : j ∈ (ofItems old new).leftovers.filterMap Prod.snd ++ (ofItems old new).added) :
    Document.fits a b = false := by
  rw [map_fst_leftovers_ofItems, unmatchedOld, List.mem_filter, decide_eq_true_eq] at hi
  rw [new_leftovers_ofItems, mem_unmatchedNew] at hj
  rw [Document.matchItems_eq_firstFit] at hi hj
  exact Matching.not_fits_of_firstFit ha hi.2 hb hj

/-- Partners are two arrays or two objects. -/
theorem sameContainer_of_mem_leftovers {i j : Nat}
    (h : (i, some j) ∈ (ofItems old new).leftovers) :
    ∃ a b, old[i]? = some a ∧ new[j]? = some b ∧ sameContainer a b = true := by
  have hpartners := partners_of_mem_pairUp h
  split at hpartners
  · exact ⟨_, _, ‹_›, ‹_›, hpartners⟩
  · cases hpartners

theorem covers_ofItems (old new : List Document) :
    (ofItems old new).Covers old.length new.length := by
  let places := Document.matchItems old new
  refine ⟨?_, ?_, ?_⟩
  · have hmatched : places.reduceOption.Perm
        ((List.range old.length).filter fun i => decide (some i ∈ places)) := by
      have hnodup : places.reduceOption.Nodup := by
        simp only [places, Document.matchItems_eq_firstFit]
        exact Matching.nodup_reduceOption_firstFit ..
      refine (List.perm_ext_iff_of_nodup hnodup (List.nodup_range.filter _)).2 fun i => ?_
      rw [List.reduceOption_mem_iff, List.mem_filter, decide_eq_true_eq, List.mem_range]
      refine ⟨fun h => ⟨?_, h⟩, And.right⟩
      simp only [places, Document.matchItems_eq_firstFit] at h
      exact Matching.lt_length_of_mem_firstFit h
    rw [map_fst_matched_ofItems, map_fst_leftovers_ofItems]
    refine (hmatched.append_right _).trans ?_
    simpa [unmatchedOld] using List.filter_append_perm (fun i => decide (some i ∈ places)) _
  · rw [new_leftovers_ofItems]
    refine (matched_append_unmatchedNew_perm places.zipIdx).trans (.of_eq ?_)
    rw [Matching.snd_zipIdx, show places.length = new.length from ?_]
    simp [places, Document.matchItems_eq_firstFit]
  · rw [map_fst_leftovers_ofItems]
    exact List.filter_sublist

end OfItems

/-! Comparing in order: equal indices are partners, whatever they hold. -/

def byIndex (oldLength newLength : Nat) : Alignment where
  matched := []
  leftovers := (List.range oldLength).map fun i => (i, if i < newLength then some i else none)
  added := List.range' oldLength (newLength - oldLength)

theorem mem_leftovers_byIndex {m n i : Nat} {partner : Option Nat} :
    (i, partner) ∈ (byIndex m n).leftovers ↔
      i < m ∧ partner = if i < n then some i else none := by
  simp [byIndex, eq_comm]

theorem eq_of_mem_leftovers_byIndex {m n i j : Nat} (h : (i, some j) ∈ (byIndex m n).leftovers) :
    j = i := by
  obtain ⟨_, hpartner⟩ := mem_leftovers_byIndex.1 h
  split at hpartner <;> cases hpartner
  rfl

theorem le_of_mem_leftovers_byIndex {m n i : Nat} (h : (i, none) ∈ (byIndex m n).leftovers) :
    n ≤ i := by
  obtain ⟨_, hpartner⟩ := mem_leftovers_byIndex.1 h
  split at hpartner
  · cases hpartner
  · omega

theorem mem_added_byIndex {m n j : Nat} : j ∈ (byIndex m n).added ↔ m ≤ j ∧ j < n := by
  simp only [byIndex, List.mem_range'_1]
  omega

theorem map_fst_leftovers_byIndex (m n : Nat) :
    (byIndex m n).leftovers.map Prod.fst = List.range m := by
  simp [byIndex, Function.comp_def]

theorem new_leftovers_byIndex (m n : Nat) :
    (byIndex m n).leftovers.filterMap Prod.snd ++ (byIndex m n).added = List.range n := by
  have hsnd : (byIndex m n).leftovers.filterMap Prod.snd = (List.range m).filter (· < n) := by
    rw [byIndex, List.filterMap_map, ← List.filterMap_eq_filter]
    refine List.filterMap_congr fun i _ => ?_
    by_cases h : i < n <;> simp [Option.guard, h]
  rw [hsnd]
  -- Both sides ascend and hold the same places.
  have hascending : ((List.range m).filter (· < n) ++ (byIndex m n).added).Pairwise (· < ·) := by
    refine List.pairwise_append.2 ⟨List.pairwise_lt_range.filter _, List.pairwise_lt_range' .., ?_⟩
    intro i hi j hj
    have hi : i < m := List.mem_range.1 (List.mem_filter.1 hi).1
    have hj : m ≤ j := (mem_added_byIndex.1 hj).1
    omega
  refine List.Perm.eq_of_pairwise (fun i j _ _ hij hji => absurd hij (Nat.lt_asymm hji))
    hascending List.pairwise_lt_range ?_
  refine (List.perm_ext_iff_of_nodup (hascending.imp Nat.ne_of_lt) List.nodup_range).2 fun j => ?_
  simp only [List.mem_append, List.mem_filter, List.mem_range, decide_eq_true_eq,
    mem_added_byIndex]
  omega

theorem covers_byIndex (m n : Nat) : (byIndex m n).Covers m n where
  old := .of_eq (map_fst_leftovers_byIndex m n)
  new := .of_eq (new_leftovers_byIndex m n)
  leftovers_sublist := map_fst_leftovers_byIndex m n ▸ .refl _

end Alignment

variable [StandardHash]

/-- How the items of two arrays are compared in the mode of the options. -/
def DiffOptions.align (options : DiffOptions) (old new : List Document) : Alignment :=
  if options.ignoreOrder then .ofItems old new else .byIndex old.length new.length

theorem DiffOptions.align_inOrder {options : DiffOptions} (h : options.ignoreOrder = false)
    (old new : List Document) : options.align old new = .byIndex old.length new.length := by
  rw [align, h, if_neg Bool.false_ne_true]

theorem DiffOptions.align_anyOrder {options : DiffOptions} (h : options.ignoreOrder = true)
    (old new : List Document) : options.align old new = .ofItems old new := by
  rw [align, if_pos h]

theorem DiffOptions.covers_align (options : DiffOptions) (old new : List Document) :
    (options.align old new).Covers old.length new.length := by
  unfold align
  split
  · exact Alignment.covers_ofItems old new
  · exact Alignment.covers_byIndex old.length new.length

end JsonDelta
