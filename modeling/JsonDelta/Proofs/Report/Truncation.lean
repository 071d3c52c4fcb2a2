import JsonDelta.Proofs.Decimal
import JsonDelta.Proofs.Report.Entry
/-!
Listings that are cut more than once. The entries that are left are those within the least positive
limit, whatever the other limits were. Main statement: the note counts what the last limit left out,
so it accounts for all entries that are gone exactly when no earlier limit left out any.
-/

namespace JsonDelta.Report.Listing

variable {listing : Listing} {limit : Nat} {limits : List Nat}

/-- The listing cut to one limit after the other. -/
def truncateAll (listing : Listing) (limits : List Nat) : Listing := limits.foldl truncate listing

/-- The least limit that is not zero, if there is one. -/
def leastLimit? (limits : List Nat) : Option Nat := (limits.filter (0 < ·)).min?

/-! One limit. -/

theorem entries_truncate_of_eq_zero (h : limit = 0) :
    (listing.truncate limit).entries = listing.entries := by
  rw [h, truncate_zero]

theorem length_truncate_le (listing : Listing) (limit : Nat) :
    (listing.truncate limit).entries.length ≤ listing.entries.length := by
  obtain ⟨k, -, hlength⟩ := truncate_accounts listing limit
  omega

theorem length_truncate_eq_iff :
    (listing.truncate limit).entries.length = listing.entries.length ↔
      limit = 0 ∨ listing.entries.length ≤ limit := by
  rcases Nat.eq_zero_or_pos limit with h | h
  · rw [entries_truncate_of_eq_zero h]
    exact iff_of_true rfl (.inl h)
  · rw [entries_truncate_of_pos listing h, List.length_take]
    omega

/-- The note counts what this limit leaves out. -/
theorem note_truncate (listing : Listing) (limit : Nat) :
    (listing.truncate limit).note =
      leftOutNote (listing.entries.length - (listing.truncate limit).entries.length) := by
  obtain ⟨k, hnote, hlength⟩ := truncate_accounts listing limit
  rw [hnote, ← hlength, Nat.add_sub_cancel_left]

theorem leftOutNote_inj {j k : Nat} : leftOutNote j = leftOutNote k ↔ j = k := by
  constructor
  · intro h
    by_cases hj : j = 0 <;> by_cases hk : k = 0 <;> simp [leftOutNote, hj, hk] at h ⊢
    exact Decimal.natText_injective h
  · exact congrArg leftOutNote

/-- A second cut to the same limit leaves no entry out, and its note says so. -/
theorem truncate_truncate_eq_iff :
    (listing.truncate limit).truncate limit = listing.truncate limit ↔
      limit = 0 ∨ listing.entries.length ≤ limit := by
  constructor
  · intro h
    have hnote := note_truncate (listing.truncate limit) limit
    rw [h, note_truncate, leftOutNote_inj, Nat.sub_self] at hnote
    have hle := length_truncate_le listing limit
    exact length_truncate_eq_iff.1 (by omega)
  · intro h
    rw [truncate_of_not_cut h]
    exact truncate_of_not_cut h

/-! One limit after the other. -/

theorem truncateAll_cons (listing : Listing) (limit : Nat) (limits : List Nat) :
    listing.truncateAll (limit :: limits) = (listing.truncate limit).truncateAll limits := rfl

theorem truncateAll_eq_truncate (h : limits ≠ []) : listing.truncateAll limits =
    (listing.truncateAll limits.dropLast).truncate (limits.getLast h) := by
  have hfold := congrArg (listing.truncateAll ·) (List.dropLast_concat_getLast h)
  simpa only [truncateAll, List.foldl_append, List.foldl_cons, List.foldl_nil] using hfold.symm

theorem leastLimit?_cons_zero (limits : List Nat) :
    leastLimit? (0 :: limits) = leastLimit? limits := rfl

theorem leastLimit?_cons_of_pos (h : 0 < limit) (limits : List Nat) :
    leastLimit? (limit :: limits) = some ((leastLimit? limits).elim limit (min limit)) := by
  rw [leastLimit?, List.filter_cons_of_pos (by simpa using h), List.min?_cons]
  rfl

theorem entries_truncateAll (listing : Listing) (limits : List Nat) :
    (listing.truncateAll limits).entries =
      ((leastLimit? limits).map listing.entries.take).getD listing.entries := by
  induction limits generalizing listing with
  | nil => rfl
  | cons limit limits ih =>
      rw [truncateAll_cons, ih]
      rcases Nat.eq_zero_or_pos limit with rfl | h
      · rw [leastLimit?_cons_zero, entries_truncate_of_eq_zero rfl]
      · rw [leastLimit?_cons_of_pos h, entries_truncate_of_pos listing h]
        cases leastLimit? limits with
        | none => rfl
        | some least => simp [List.take_take, Nat.min_comm]

theorem length_truncateAll_le (listing : Listing) (limits : List Nat) :
    (listing.truncateAll limits).entries.length ≤ listing.entries.length := by
  rw [entries_truncateAll]
  cases leastLimit? limits with
  | none => exact Nat.le_refl _
  | some least => exact List.length_take_le' least listing.entries

/-- No entry is gone exactly when no limit left out any. -/
theorem length_truncateAll_eq_iff :
    (listing.truncateAll limits).entries.length = listing.entries.length ↔
      ∀ limit ∈ limits, limit = 0 ∨ listing.entries.length ≤ limit := by
  induction limits generalizing listing with
  | nil => exact iff_of_true rfl nofun
  | cons limit limits ih =>
      rw [truncateAll_cons, List.forall_mem_cons, ← length_truncate_eq_iff]
      have hfirst := length_truncate_le listing limit
      have hothers := length_truncateAll_le (listing.truncate limit) limits
      constructor
      · intro h
        have hkept : (listing.truncate limit).entries.length = listing.entries.length := by omega
        rw [← hkept] at h ⊢
        exact ⟨rfl, ih.1 h⟩
      · rintro ⟨hkept, hlimits⟩
        rw [← hkept] at hlimits ⊢
        exact ih.2 hlimits

/-- The note counts what is gone since the limit before the last one. -/
theorem note_truncateAll (h : limits ≠ []) :
    (listing.truncateAll limits).note =
      leftOutNote ((listing.truncateAll limits.dropLast).entries.length -
        (listing.truncateAll limits).entries.length) := by
  rw [truncateAll_eq_truncate h, note_truncate]

theorem note_truncateAll_eq_iff (hnote : listing.note = "") :
    (listing.truncateAll limits).note =
        leftOutNote (listing.entries.length - (listing.truncateAll limits).entries.length) ↔
      ∀ limit ∈ limits.dropLast, limit = 0 ∨ listing.entries.length ≤ limit := by
  by_cases h : limits = []
  · subst h
    refine iff_of_true ?_ nofun
    rw [truncateAll, List.foldl_nil, hnote, Nat.sub_self]
    rfl
  · rw [note_truncateAll h, leftOutNote_inj, ← length_truncateAll_eq_iff]
    have hearlier := length_truncateAll_le listing limits.dropLast
    have hlast : (listing.truncateAll limits).entries.length ≤
        (listing.truncateAll limits.dropLast).entries.length := by
      rw [truncateAll_eq_truncate h]
      exact length_truncate_le ..
    omega

/-- Cut to any limits one after the other, a listing keeps the entries within the least positive
limit, or all of them. The note counts what the last limit left out; it counts all entries that are
gone exactly when no earlier limit left out any. So cutting twice to one limit is cutting once
exactly where nothing is cut. -/
theorem truncateAll_accounts (listing : Listing) (hnote : listing.note = "") (limits : List Nat) :
    let cut := listing.truncateAll limits
    cut.entries = ((leastLimit? limits).map listing.entries.take).getD listing.entries ∧
      (limits ≠ [] → cut.note = leftOutNote
        ((listing.truncateAll limits.dropLast).entries.length - cut.entries.length)) ∧
      (cut.note = leftOutNote (listing.entries.length - cut.entries.length) ↔
        ∀ limit ∈ limits.dropLast, limit = 0 ∨ listing.entries.length ≤ limit) ∧
      ∀ limit, (listing.truncate limit).truncate limit = listing.truncate limit ↔
        limit = 0 ∨ listing.entries.length ≤ limit :=
  ⟨entries_truncateAll listing limits, note_truncateAll, note_truncateAll_eq_iff hnote,
    fun _ => truncate_truncate_eq_iff⟩

/-- Limits that leave out nothing stand before one that does. -/
theorem truncateAll_accounts_once :
    let entry : Entry := ⟨[], .added, .null⟩
    let listing : Listing := ⟨[entry, entry, entry], ""⟩
    let limits := [0, 5, 3, 2]
    listing.note = "" ∧ limits ≠ [] ∧
      (∀ limit ∈ limits.dropLast, limit = 0 ∨ listing.entries.length ≤ limit) ∧
      (listing.truncateAll limits).entries = [entry, entry] ∧
      (listing.truncateAll limits).note = leftOutNote 1 ∧ leftOutNote 1 = "...(1 more items)" := by
  intro entry listing limits
  have hlimits : ∀ limit ∈ limits.dropLast, limit = 0 ∨ listing.entries.length ≤ limit := by decide
  obtain ⟨hentries, -, hcounted, -⟩ := truncateAll_accounts listing rfl limits
  exact ⟨rfl, by decide, hlimits, hentries, hcounted.2 hlimits, rfl⟩

/-- The second of two equal limits takes the note back, and that of two falling limits counts its
own entries only. -/
theorem note_truncateAll_forgets :
    let entry : Entry := ⟨[], .added, .null⟩
    let listing : Listing := ⟨[entry, entry, entry], ""⟩
    (listing.truncateAll [1, 1]).entries.length = 1 ∧ (listing.truncateAll [1, 1]).note = "" ∧
      (listing.truncateAll [2, 1]).entries.length = 1 ∧
      (listing.truncateAll [2, 1]).note = leftOutNote 1 ∧
      leftOutNote (listing.entries.length - 1) = "...(2 more items)" ∧
      (listing.truncate 1).truncate 1 ≠ listing.truncate 1 := by
  refine ⟨rfl, rfl, rfl, rfl, rfl, fun h => ?_⟩
  have hnote := congrArg Listing.note h
  exact absurd hnote (by decide)

end JsonDelta.Report.Listing
