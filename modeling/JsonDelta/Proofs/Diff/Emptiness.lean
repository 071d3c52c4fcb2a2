import JsonDelta.Diff.ChangeSet
import JsonDelta.Proofs.Diff.Walk
import JsonDelta.Proofs.Document.AnyOrder
/-!
When two documents have no changes. Main statement: without moves the change set is empty exactly
when the documents are equal. In any order this needs that no two leftovers of an alignment are
equal, so it is stated for documents whose hashes never separate equal items.
-/

namespace JsonDelta

namespace Document

variable (options : DiffOptions) {old new : List Document}
  {members others : List (String × Document)} {place : Location}

theorem addedMembers_eq_nil_iff :
    addedMembers members others place = [] ↔
      ∀ key ∈ others.map Prod.fst, key ∈ members.map Prod.fst := by
  simp [addedMembers]

theorem moves_eq_nil_iff {i j : Nat} (hj : j < new.length) :
    moves options new place (i, j) = [] ↔ (options.reportMoves = true → i = j) := by
  simp [moves, hj]

/-- All leftovers have partners that are related to them, and nothing is added. -/
def LeftoversRelated (r : Nat → Document → Document → Prop) (alignment : Alignment)
    (old new : List Document) : Prop :=
  (∀ i partner, (i, partner) ∈ alignment.leftovers →
    ∃ j a b, partner = some j ∧ old[i]? = some a ∧ new[j]? = some b ∧ r i a b) ∧
  alignment.added = []

theorem LeftoversRelated.imp {r s : Nat → Document → Document → Prop} {alignment : Alignment}
    (h : LeftoversRelated r alignment old new)
    (hrs : ∀ i, ∀ a ∈ old, ∀ b ∈ new, r i a b → s i a b) :
    LeftoversRelated s alignment old new := by
  refine ⟨fun i partner hmem => ?_, h.2⟩
  obtain ⟨j, a, b, hj, ha, hb, hr⟩ := h.1 i partner hmem
  exact ⟨j, a, b, hj, ha, hb, hrs i a (List.mem_of_getElem? ha) b (List.mem_of_getElem? hb) hr⟩

theorem leftoversRelated_congr {r s : Nat → Document → Document → Prop} {alignment : Alignment}
    (h : ∀ i, ∀ a ∈ old, ∀ b ∈ new, r i a b ↔ s i a b) :
    LeftoversRelated r alignment old new ↔ LeftoversRelated s alignment old new :=
  ⟨fun hr => hr.imp fun i a ha b hb => (h i a ha b hb).1,
    fun hs => hs.imp fun i a ha b hb => (h i a ha b hb).2⟩

/-- In order, items at equal indices are the partners. -/
theorem leftoversRelated_byIndex_iff {r : Nat → Document → Document → Prop} :
    LeftoversRelated r (.byIndex old.length new.length) old new ↔
      old.length = new.length ∧ ∀ i a b, old[i]? = some a → new[i]? = some b → r i a b := by
  constructor
  · rintro ⟨hpartners, hadded⟩
    have hpartner (i : Nat) (hi : i < old.length) := hpartners i _
      (Alignment.mem_leftovers_byIndex.2 ⟨hi, rfl⟩)
    refine ⟨?_, fun i a b ha hb => ?_⟩
    · apply Nat.le_antisymm
      · refine Nat.le_of_not_lt fun hlt => ?_
        obtain ⟨j, _, _, hj, _⟩ := hpartner new.length hlt
        simp at hj
      · refine Nat.le_of_not_lt fun hlt => ?_
        have hmem := Alignment.mem_added_byIndex.2 ⟨Nat.le_refl old.length, hlt⟩
        exact List.eq_nil_iff_forall_not_mem.1 hadded _ hmem
    · have hi : i < old.length := (List.getElem?_eq_some_iff.1 ha).1
      have hj : i < new.length := (List.getElem?_eq_some_iff.1 hb).1
      obtain ⟨j, a', b', hij, ha', hb', hab⟩ := hpartner i hi
      rw [if_pos hj] at hij
      cases hij
      rw [ha] at ha'
      rw [hb] at hb'
      cases ha'
      cases hb'
      exact hab
  · rintro ⟨hlen, hall⟩
    refine ⟨fun i partner hmem => ?_, List.eq_nil_iff_forall_not_mem.2 fun j hj => ?_⟩
    · obtain ⟨hi, hpartner⟩ := Alignment.mem_leftovers_byIndex.1 hmem
      have hj : i < new.length := hlen ▸ hi
      rw [if_pos hj] at hpartner
      have ha := List.getElem?_eq_getElem hi
      have hb := List.getElem?_eq_getElem hj
      exact ⟨i, _, _, hpartner, ha, hb, hall i _ _ ha hb⟩
    · have := Alignment.mem_added_byIndex.1 hj
      omega

/-! The changes of two containers. -/

variable [StandardHash]

theorem memberChanges_eq_nil_iff :
    memberChanges options members others place = [] ↔
      ∀ m ∈ members, ∃ other, others.lookup m.1 = some other ∧
        changes options m.2 other (place.key m.1) = [] := by
  rw [memberChanges_eq_flatMap, List.flatMap_eq_nil_iff]
  refine forall₂_congr fun m _ => ?_
  rw [memberChange]
  cases others.lookup m.1 <;> simp

theorem changes_object_eq_nil_iff (ho : (others.map Prod.fst).Nodup) :
    changes options (object members) (object others) place = [] ↔
      Members.Related (fun key a b => changes options a b (place.key key) = []) members others := by
  rw [changes, List.append_eq_nil_iff, memberChanges_eq_nil_iff, addedMembers_eq_nil_iff,
    Members.related_iff_lookup ho]

theorem changes_array_eq_nil_iff :
    changes options (array old) (array new) place = [] ↔
      (options.reportMoves = true → (options.align old new).Unmoved) ∧
        LeftoversRelated (fun i a b => changes options a b (place.index i) = [])
          (options.align old new) old new := by
  have hcovers := options.covers_align old new
  have hmoves (m : Nat × Nat) (hm : m ∈ (options.align old new).matched) :
      moves options new place m = [] ↔ (options.reportMoves = true → m.1 = m.2) :=
    moves_eq_nil_iff options (hcovers.lt_of_mem_matched hm)
  rw [changes_array_align, List.append_eq_nil_iff, List.append_eq_nil_iff, List.flatMap_eq_nil_iff,
    List.flatMap_eq_nil_iff, List.flatMap_eq_nil_iff, forall₂_congr hmoves]
  refine and_congr ⟨fun h hreported i j hij => h (i, j) hij hreported,
    fun h m hm hreported => h hreported m.1 m.2 hm⟩ (and_congr ?_ ?_)
  · rw [Prod.forall]
    refine forall₃_congr fun i partner hmem => ?_
    have hi := hcovers.lt_of_mem_leftovers hmem
    cases partner with
    | none => simp [leftoverChanges_alone (List.getElem?_eq_getElem hi)]
    | some j =>
        have hj := hcovers.lt_of_partner hmem
        have ha := List.getElem?_eq_getElem hi
        have hb := List.getElem?_eq_getElem hj
        simp [leftoverChanges_partner options ha hb, ha, hb]
  · rw [List.eq_nil_iff_forall_not_mem]
    refine forall_congr' fun j => ?_
    refine ⟨fun hnil hmem => ?_, fun hno hmem => absurd hmem hno⟩
    have hj := hcovers.lt_of_mem_added hmem
    simp [addedItems_of_getElem? (List.getElem?_eq_getElem hj)] at hnil
    exact hnil hmem

/-! Equality of arrays, told by the leftovers of their alignment. -/

theorem equal_inOrder_iff_leftoversRelated :
    (array old).equal false (array new) = true ↔
      LeftoversRelated (fun _ a b => a.equal false b = true) (.byIndex old.length new.length)
        old new := by
  rw [equal_array_inOrder, forall₂_iff_getElem?, leftoversRelated_byIndex_iff]

/-- Two leftovers that are equal would have been matched, so equal leftovers can only be none. -/
theorem leftovers_eq_nil_of_related
    (hf : ∀ a ∈ old, ∀ b ∈ new, a.equal true b = true → fits a b = true)
    (h : LeftoversRelated (fun _ a b => a.equal true b = true) (.ofItems old new) old new) :
    (Alignment.ofItems old new).leftovers = [] := by
  refine List.eq_nil_iff_forall_not_mem.2 fun ⟨i, partner⟩ hmem => ?_
  obtain ⟨j, a, b, rfl, ha, hb, hab⟩ := h.1 i partner hmem
  have hno := Alignment.not_fits_of_leftovers ha hb (List.mem_map_of_mem hmem)
    (List.mem_append_left _ (List.mem_filterMap.2 ⟨_, hmem, rfl⟩))
  rw [hf a (List.mem_of_getElem? ha) b (List.mem_of_getElem? hb) hab] at hno
  cases hno

/-- Between equal arrays every item is matched. -/
theorem leftovers_eq_nil_of_equal (h : (array old).equal true (array new) = true) :
    (Alignment.ofItems old new).leftovers = [] ∧ (Alignment.ofItems old new).added = [] := by
  obtain ⟨hlen, hall⟩ := equal_array_anyOrder.1 h
  have hcovers := Alignment.covers_ofItems old new
  have hold := hcovers.old.length_eq
  have hnew := hcovers.new.length_eq
  simp only [List.length_append, List.length_map, List.length_range] at hold hnew
  have hnone : Alignment.unmatchedNew (matchItems old new) = [] := by
    refine List.eq_nil_iff_forall_not_mem.2 fun j hj => ?_
    have hplace := List.mem_of_getElem? (Alignment.mem_unmatchedNew.1 hj)
    cases hall none hplace
  rw [← Alignment.new_leftovers_ofItems, List.append_eq_nil_iff] at hnone
  rw [hnone.1, hnone.2, List.length_nil] at hnew
  exact ⟨List.eq_nil_of_length_eq_zero (by omega), hnone.2⟩

theorem equal_anyOrder_iff_leftoversRelated
    (hf : ∀ a ∈ old, ∀ b ∈ new, a.equal true b = true → fits a b = true) :
    (array old).equal true (array new) = true ↔
      LeftoversRelated (fun _ a b => a.equal true b = true) (.ofItems old new) old new := by
  constructor
  · intro h
    obtain ⟨hleftovers, hadded⟩ := leftovers_eq_nil_of_equal h
    refine ⟨fun i partner hmem => ?_, hadded⟩
    rw [hleftovers] at hmem
    cases hmem
  · intro h
    have hleftovers := leftovers_eq_nil_of_related hf h
    have hcovers := Alignment.covers_ofItems old new
    have hold := hcovers.old.length_eq
    have hnew := hcovers.new.length_eq
    -- Without leftovers, both lengths count the matches.
    simp only [hleftovers, h.2, List.length_append, List.length_map, List.length_range,
      List.length_nil, List.filterMap_nil] at hold hnew
    refine equal_array_anyOrder.2 ⟨by omega, fun place hplace => ?_⟩
    cases place with
    | some i => rfl
    | none =>
        obtain ⟨j, hj⟩ := List.mem_iff_getElem?.1 hplace
        have hmem := Alignment.mem_unmatchedNew.2 hj
        rw [← Alignment.new_leftovers_ofItems, hleftovers, h.2] at hmem
        cases hmem

/-! The whole walk. -/

theorem changes_eq_nil_iff (hmoves : options.reportMoves = false) {a b : Document}
    (ha : a.KeysDistinct) (hb : b.KeysDistinct)
    (hn : options.ignoreOrder = true → RealsAgree a b) (place : Location) :
    changes options a b place = [] ↔ a.equal options.ignoreOrder b = true := by
  induction a, b using Document.pairInduction generalizing place with
  | whole a b h => simp [changes_whole options h, equal_whole options.ignoreOrder h]
  | array old new ih =>
      rw [keysDistinct_array] at ha hb
      have hreals {a b} (hi : a ∈ old) (ho : b ∈ new) (h : options.ignoreOrder = true) :
          RealsAgree a b :=
        (hn h).mono (numbers_subset_array hi) (numbers_subset_array ho)
      have hitems : LeftoversRelated (fun i a b => changes options a b (place.index i) = [])
          (options.align old new) old new ↔
          LeftoversRelated (fun _ a b => a.equal options.ignoreOrder b = true)
            (options.align old new) old new :=
        leftoversRelated_congr fun i a hi b ho =>
          ih a hi b ho (ha a hi) (hb b ho) (hreals hi ho) _
      rw [changes_array_eq_nil_iff, hmoves, and_iff_right nofun, hitems, DiffOptions.align]
      cases hmode : options.ignoreOrder with
      | false => exact equal_inOrder_iff_leftoversRelated.symm
      | true =>
          refine (equal_anyOrder_iff_leftoversRelated fun a hi b ho hab => ?_).symm
          rwa [fits_eq_equal (ha a hi) (hb b ho) (hreals hi ho hmode)]
  | object members others ih =>
      obtain ⟨hkeys, hvalues⟩ := keysDistinct_object.1 ha
      obtain ⟨hotherKeys, hotherValues⟩ := keysDistinct_object.1 hb
      have hvalue key a b (hka : (key, a) ∈ members) (hkb : (key, b) ∈ others) :=
        ih _ hka _ hkb (hvalues _ hka) (hotherValues _ hkb)
          (fun h => (hn h).mono (numbers_subset_object hka) (numbers_subset_object hkb))
          (place.key key)
      rw [changes_object_eq_nil_iff options hotherKeys, equal_object_iff_related hkeys hotherKeys]
      exact Members.Related.congr hvalue

end Document

/-! The change set. -/

namespace ChangeSet

/-- Every change is in one bucket. -/
theorem size_ofChanges (changes : List Change) : (ofChanges changes).size = changes.length := by
  induction changes with
  | nil => rfl
  | cons change changes ih =>
      rw [List.length_cons, ← ih]
      cases change <;> simp only [ofChanges, size, List.filterMap_cons, List.length_cons] <;> omega

theorem isEmpty_ofChanges_iff {changes : List Change} :
    (ofChanges changes).isEmpty = true ↔ changes = [] := by
  rw [isEmpty, size_ofChanges, decide_eq_true_eq, List.length_eq_zero_iff]

section AnyHash

variable [StandardHash]

/-- Without moves, no change is reported exactly between documents that are equal in the same
mode. In any order, integers must not wrap around. -/
theorem isEmpty_between_eq_equal (options : DiffOptions) (hmoves : options.reportMoves = false)
    {old new : Document} (ho : old.KeysDistinct) (hn : new.KeysDistinct)
    (hwords : options.ignoreOrder = true → ∀ n ∈ old.numbers ++ new.numbers, n.FitsWord) :
    (between options old new).isEmpty = old.equal options.ignoreOrder new := by
  have hreals (h : options.ignoreOrder = true) : Document.RealsAgree old new := by
    intro m hm n hn
    exact (hwords h m (List.mem_append_left _ hm)).same_toBinary64
      (hwords h n (List.mem_append_right _ hn))
  rw [Bool.eq_iff_iff, between, isEmpty_ofChanges_iff]
  exact Document.changes_eq_nil_iff options hmoves ho hn hreals .root

end AnyHash

theorem isEmpty_between_rotated :
    (between {} (.array [.number (.unsigned 1), .object [("a", .null), ("b", .array [])]])
      (.array [.object [("b", .array []), ("a", .null)], .number (.unsigned 1)])).isEmpty =
        true := by
  refine (isEmpty_between_eq_equal {} rfl ?_ ?_ fun _ => ?_).trans (by decide)
  · simp [Document.KeysDistinct, Document.ItemsDistinct, Document.MembersDistinct]
  · simp [Document.KeysDistinct, Document.ItemsDistinct, Document.MembersDistinct]
  · simp [Document.numbers, Document.itemNumbers, Document.memberNumbers, Number.FitsWord]

end ChangeSet

end JsonDelta
