import JsonDelta.Report.Entry
/-!
Listings of report entries. Cutting keeps a front part of the entries, and the note accounts for the
rest; a full listing that is cut later is the listing that was cut at once.
-/

namespace JsonDelta.Report.Listing

/-- The note on `k` entries that are left out. -/
def leftOutNote (k : Nat) : String :=
  if k = 0 then "" else "...(" ++ Decimal.natText k ++ " more items)"

/-- A limit of zero, or one that the entries keep, leaves out nothing. -/
theorem truncate_of_not_cut {listing : Listing} {limit : Nat}
    (h : limit = 0 ∨ listing.entries.length ≤ limit) :
    listing.truncate limit = { listing with note := "" } := by
  rw [truncate, if_neg]
  omega

theorem truncate_zero (listing : Listing) : listing.truncate 0 = { listing with note := "" } :=
  truncate_of_not_cut (.inl rfl)

theorem entries_truncate_of_pos (listing : Listing) {limit : Nat} (h : 0 < limit) :
    (listing.truncate limit).entries = listing.entries.take limit := by
  rcases Nat.lt_or_ge limit listing.entries.length with hcut | hkept
  · rw [truncate, if_pos ⟨h, hcut⟩]
  · rw [truncate_of_not_cut (.inr hkept), List.take_of_length_le hkept]

theorem truncate_accounts (listing : Listing) (limit : Nat) :
    ∃ k, (listing.truncate limit).note = leftOutNote k ∧
      (listing.truncate limit).entries.length + k = listing.entries.length := by
  by_cases h : 0 < limit ∧ limit < listing.entries.length
  · refine ⟨listing.entries.length - limit, ?_⟩
    have hk : listing.entries.length - limit ≠ 0 := Nat.sub_ne_zero_of_lt h.2
    rw [truncate, if_pos h, leftOutNote, if_neg hk, List.length_take,
      Nat.min_eq_left (Nat.le_of_lt h.2)]
    exact ⟨rfl, Nat.add_sub_of_le (Nat.le_of_lt h.2)⟩
  · rw [truncate_of_not_cut (by omega)]
    exact ⟨0, rfl, rfl⟩

variable (set : ChangeSet) (limit : Nat)

/-- Cutting the full listing is listing with the limit. -/
theorem truncate_flatten : (flatten set 0).truncate limit = flatten set limit := by
  rw [flatten, truncate_zero]
  rfl

theorem entries_flatten_zero : (flatten set 0).entries = entriesOf set := by
  rw [flatten, truncate_zero]

theorem entries_flatten_eq_nil (h : set.isEmpty = true) : (flatten set limit).entries = [] := by
  simp only [ChangeSet.isEmpty, ChangeSet.size, decide_eq_true_eq, Nat.add_eq_zero_iff,
    List.length_eq_zero_iff] at h
  obtain ⟨⟨⟨⟨⟨hka, hkr⟩, hia⟩, hir⟩, hv⟩, hm⟩ := h
  have hnone : entriesOf set = [] := by
    rw [entriesOf, hka, hkr, hia, hir, hv, hm]
    rfl
  rw [flatten, truncate_of_not_cut (.inr (by simp [hnone])), hnone]

/-- A move is left out only where a value has changed, so never is everything left out. -/
theorem isEmpty_of_entriesOf_eq_nil (h : entriesOf set = []) : set.isEmpty = true := by
  simp only [entriesOf, itemEntries, List.append_eq_nil_iff, List.map_eq_nil_iff,
    List.flatMap_eq_nil_iff] at h
  obtain ⟨⟨⟨⟨⟨hka, hia⟩, hkr⟩, hir⟩, hvalues⟩, hmoves⟩ := h
  have hv : set.valueChanged = [] := by
    rw [List.eq_nil_iff_forall_not_mem]
    intro change hchange
    cases hvalues change hchange
  have hm : set.itemMoved = [] := by
    rw [hv, moveEntries, List.map_eq_nil_iff, List.filter_eq_nil_iff] at hmoves
    exact List.eq_nil_iff_forall_not_mem.2 fun item hitem => hmoves item hitem (by simp)
  simp [ChangeSet.isEmpty, ChangeSet.size, hka, hia, hkr, hir, hv, hm]

/-- A limit leaves an entry. -/
theorem entries_flatten_ne_nil (h : ¬set.isEmpty = true) : (flatten set limit).entries ≠ [] := by
  have hall : entriesOf set ≠ [] := mt (isEmpty_of_entriesOf_eq_nil set) h
  rcases Nat.eq_zero_or_pos limit with rfl | hpos
  · rwa [entries_flatten_zero]
  · rw [flatten, entries_truncate_of_pos _ hpos, Ne, List.take_eq_nil_iff, not_or]
    exact ⟨Nat.pos_iff_ne_zero.1 hpos, hall⟩

/-- What is shown and what the note counts are all the entries. -/
theorem flatten_accounts :
    ∃ k, (flatten set limit).note = leftOutNote k ∧
      (flatten set limit).entries.length + k = (flatten set 0).entries.length := by
  rw [← truncate_flatten]
  exact truncate_accounts ..

end JsonDelta.Report.Listing
