import JsonDelta.Proofs.Diff.Emptiness
import JsonDelta.Proofs.Document.InPlace
import JsonDelta.Proofs.Document.Rearrangement
/-!
What a change set with moves sees. Moves are recorded for the items of the two arrays that are being
aligned, and matched items are not looked into. Main statements: with moves the change set is empty
exactly when the documents are equal in place, so it is empty between documents that are equal in
order, but it misses a reordering inside an item that was matched; between a document and itself it
is empty whatever the options.
-/

namespace JsonDelta

namespace Alignment

variable {old new : List Document}

variable [StandardHash]

/-- An alignment without moves and leftovers matches equal indices. -/
theorem forall₂_fits_of_unmoved (hunmoved : (ofItems old new).Unmoved)
    (hleftovers : (ofItems old new).leftovers = []) (hadded : (ofItems old new).added = []) :
    List.Forall₂ (fun a b => Document.fits a b = true) old new := by
  have hcovers := covers_ofItems old new
  have hold := hcovers.old
  have hnew := hcovers.new
  rw [hleftovers, List.map_nil, List.append_nil] at hold
  rw [hleftovers, hadded, List.filterMap_nil, List.append_nil, List.append_nil] at hnew
  have hlen : old.length = new.length := by
    have holdLength := hold.length_eq
    have hnewLength := hnew.length_eq
    simp only [List.length_map, List.length_range] at holdLength hnewLength
    omega
  refine Document.forall₂_iff_getElem?.2 ⟨hlen, fun i a b ha hb => ?_⟩
  have hi := List.mem_range.2 (List.getElem?_eq_some_iff.1 ha).1
  obtain ⟨⟨k, j⟩, hkj, rfl⟩ := List.mem_map.1 (hold.mem_iff.2 hi)
  obtain rfl : k = j := hunmoved k j hkj
  obtain ⟨a', b', ha', hb', hfits⟩ := fits_of_mem_matched hkj
  obtain rfl : a = a' := Option.some.inj (ha.symm.trans ha')
  obtain rfl : b = b' := Option.some.inj (hb.symm.trans hb')
  exact hfits

theorem unmoved_of_forall₂_fits (h : List.Forall₂ (fun a b => Document.fits a b = true) old new) :
    (ofItems old new).Unmoved := by
  intro i j hij
  rw [mem_matched_ofItems, Document.matchItems_eq_map_range h] at hij
  obtain ⟨_, hi⟩ := List.getElem?_eq_some_iff.1 hij
  simpa using hi.symm

end Alignment

namespace Document

variable {options : DiffOptions} {a b : Document} {old new : List Document} {place : Location}

variable [StandardHash]

theorem leftoversRelated_of_equal {r : Nat → Document → Document → Prop}
    (h : (array old).equal true (array new) = true) :
    LeftoversRelated r (.ofItems old new) old new := by
  obtain ⟨hleftovers, hadded⟩ := leftovers_eq_nil_of_equal h
  refine ⟨fun i partner hmem => ?_, hadded⟩
  rw [hleftovers] at hmem
  cases hmem

/-- When leftovers are only related to items that equal them, there are none. -/
theorem unmoved_and_leftoversRelated_iff {r : Nat → Document → Document → Prop}
    (ha : (array old).KeysDistinct) (hb : (array new).KeysDistinct)
    (hn : RealsAgree (array old) (array new))
    (hr : ∀ i, ∀ a ∈ old, ∀ b ∈ new, r i a b → a.equal true b = true) :
    (Alignment.ofItems old new).Unmoved ∧ LeftoversRelated r (.ofItems old new) old new ↔
      List.Forall₂ (fun a b => a.equal true b = true) old new := by
  constructor
  · rintro ⟨hunmoved, hrelated⟩
    have hfits (a) (hi : a ∈ old) (b) (ho : b ∈ new) (hab : a.equal true b = true) :
        fits a b = true := by
      rwa [fits_eq_equal (keysDistinct_array.1 ha a hi) (keysDistinct_array.1 hb b ho)
        (hn.mono (numbers_subset_array hi) (numbers_subset_array ho))]
    have hnone := leftovers_eq_nil_of_related hfits (hrelated.imp hr)
    exact (Alignment.forall₂_fits_of_unmoved hunmoved hnone hrelated.2).imp fun _ _ => equal_of_fits
  · intro h
    have hfits := forall₂_fits ha hb hn h
    exact ⟨Alignment.unmoved_of_forall₂_fits hfits,
      leftoversRelated_of_equal (equal_array_of_forall₂_fits hfits)⟩

/-- With moves, nothing is reported exactly when the documents are equal in place. -/
theorem changes_eq_nil_iff_equalInPlace (hmode : options.ignoreOrder = true)
    (hmoves : options.reportMoves = true) (ha : a.KeysDistinct) (hb : b.KeysDistinct)
    (hn : RealsAgree a b) (place : Location) :
    changes options a b place = [] ↔ EqualInPlace a b := by
  induction a, b using Document.pairInduction generalizing place with
  | whole a b hwhole => simp [changes_whole options hwhole, equalInPlace_whole hwhole]
  | array old new ih =>
      rw [changes_array_eq_nil_iff, forall_prop_of_true hmoves, DiffOptions.align_anyOrder hmode,
        equalInPlace_array]
      refine unmoved_and_leftoversRelated_iff ha hb hn fun i a hi b ho hnil => ?_
      have hdistinct := keysDistinct_array.1 ha a hi
      have hotherDistinct := keysDistinct_array.1 hb b ho
      have hreals := hn.mono (numbers_subset_array hi) (numbers_subset_array ho)
      have hplace := (ih a hi b ho hdistinct hotherDistinct hreals (place.index i)).1 hnil
      exact hplace.equal_anyOrder hdistinct hotherDistinct hreals
  | object members others ih =>
      obtain ⟨hkeys, hvalues⟩ := keysDistinct_object.1 ha
      obtain ⟨hotherKeys, hotherValues⟩ := keysDistinct_object.1 hb
      have hvalue key a b (hka : (key, a) ∈ members) (hkb : (key, b) ∈ others) :=
        ih _ hka _ hkb (hvalues _ hka) (hotherValues _ hkb)
          (hn.mono (numbers_subset_object hka) (numbers_subset_object hkb)) (place.key key)
      rw [changes_object_eq_nil_iff options hotherKeys, equalInPlace_object]
      exact Members.Related.congr hvalue

/-- A document does not differ from itself, in either mode and whatever its numbers. -/
theorem changes_self (options : DiffOptions) (a : Document) (ha : a.KeysDistinct)
    (place : Location) : changes options a a place = [] := by
  induction a using Document.induction generalizing place with
  | scalar d hd => rw [changes_scalar options hd, equal_inOrder_self d ha, if_pos rfl]
  | array items ih =>
      rw [changes_array_eq_nil_iff]
      cases hmode : options.ignoreOrder with
      | false =>
          rw [DiffOptions.align_inOrder hmode, leftoversRelated_byIndex_iff]
          refine ⟨fun _ i j hij => (nomatch hij), rfl, fun i a b hi ho => ?_⟩
          obtain rfl : a = b := Option.some.inj (hi.symm.trans ho)
          have hmem := List.mem_of_getElem? hi
          exact ih a hmem (keysDistinct_array.1 ha a hmem) _
      | true =>
          have hfits : List.Forall₂ (fun a b => fits a b = true) items items :=
            List.forall₂_same.2 fun a hi => fits_self (keysDistinct_array.1 ha a hi)
          rw [DiffOptions.align_anyOrder hmode]
          exact ⟨fun _ => Alignment.unmoved_of_forall₂_fits hfits,
            leftoversRelated_of_equal (equal_array_of_forall₂_fits hfits)⟩
  | object members ih =>
      obtain ⟨hkeys, hvalues⟩ := keysDistinct_object.1 ha
      refine (changes_object_eq_nil_iff options hkeys).2 ⟨fun _ => .rfl, fun key a b hka hkb => ?_⟩
      obtain rfl : a = b := Members.eq_of_mem hkeys hka hkb
      exact ih _ hka (hvalues _ hka) _

end Document

namespace ChangeSet

variable {options : DiffOptions} {a b : Document}

section AnyHash

variable [StandardHash]

theorem isEmpty_between_iff_equalInPlace (hmode : options.ignoreOrder = true)
    (hmoves : options.reportMoves = true) (ha : a.KeysDistinct) (hb : b.KeysDistinct)
    (hn : Document.RealsAgree a b) : (between options a b).isEmpty = true ↔ a.EqualInPlace b := by
  rw [between, isEmpty_ofChanges_iff]
  exact Document.changes_eq_nil_iff_equalInPlace hmode hmoves ha hb hn .root

/-- With moves, an empty change set means equality in place. It means equality in order if no array
inside another one has two items that could have changed places. -/
theorem equal_inOrder_of_isEmpty_between (options : DiffOptions)
    (hmode : options.ignoreOrder = true) (hmoves : options.reportMoves = true)
    (ha : a.KeysDistinct) (hb : b.KeysDistinct)
    (hwords : ∀ n ∈ a.numbers ++ b.numbers, n.FitsWord) :
    ((between options a b).isEmpty = true ↔ a.EqualInPlace b) ∧
      (a.InnerArraysShort → (between options a b).isEmpty = true → a.equal false b = true) := by
  have hplace := isEmpty_between_iff_equalInPlace hmode hmoves ha hb
    (Document.realsAgree_of_fitsWord hwords)
  exact ⟨hplace, fun hs hempty => (hplace.1 hempty).equal_inOrder hs ha hb⟩

end AnyHash

/-- An array of two items in an object, with an array of one item inside. -/
theorem equal_inOrder_of_isEmpty_between_nested :
    let a := Document.object
      [("x", .array [.number (.unsigned 1), .object [("y", .array [.null])]]), ("z", .bool true)]
    let b := Document.object
      [("z", .bool true),
        ("x", .array [.number (.real (.ofInt 1)), .object [("y", .array [.null])]])]
    a.InnerArraysShort ∧
      (between { ignoreOrder := true, reportMoves := true } a b).isEmpty = true ∧
      a.EqualInPlace b ∧ a.equal false b = true := by
  intro a b
  have ha : a.KeysDistinct := by
    simp [a, Document.KeysDistinct, Document.ItemsDistinct, Document.MembersDistinct]
  have hb : b.KeysDistinct := by
    simp [b, Document.KeysDistinct, Document.ItemsDistinct, Document.MembersDistinct]
  have hwords : ∀ n ∈ a.numbers ++ b.numbers, n.FitsWord := by
    simp [a, b, Document.numbers, Document.itemNumbers, Document.memberNumbers, Number.FitsWord]
  have hinner : (Document.object [("y", .array [.null])]).ArraysShort := by
    refine .object (List.forall_mem_singleton.2 (.array (by simp) ?_))
    exact List.forall_mem_singleton.2 (.scalar rfl)
  have hshort : a.InnerArraysShort := by
    refine .object (List.forall_mem_cons.2 ⟨.array ?_, List.forall_mem_singleton.2 (.scalar rfl)⟩)
    exact List.forall_mem_cons.2 ⟨.scalar rfl, List.forall_mem_singleton.2 hinner⟩
  have hempty : (between { ignoreOrder := true, reportMoves := true } a b).isEmpty = true := by
    decide
  obtain ⟨hplace, hequal⟩ := equal_inOrder_of_isEmpty_between
    { ignoreOrder := true, reportMoves := true } rfl rfl ha hb hwords
  exact ⟨hshort, hempty, hplace.1 hempty, hequal hshort hempty⟩

/-- The inner arrays are matched as items of the outer ones and not looked into. -/
theorem isEmpty_between_reordered_inside :
    let a := Document.array [.array [.number (.unsigned 1), .number (.unsigned 2)]]
    let b := Document.array [.array [.number (.unsigned 2), .number (.unsigned 1)]]
    a.KeysDistinct ∧ b.KeysDistinct ∧ (∀ n ∈ a.numbers ++ b.numbers, n.FitsWord) ∧
      (between { ignoreOrder := true, reportMoves := true } a b).isEmpty = true ∧
      a.equal false b = false := by
  intro a b
  refine ⟨?_, ?_, ?_, by decide, by decide⟩
  · simp [a, Document.KeysDistinct, Document.ItemsDistinct]
  · simp [b, Document.KeysDistinct, Document.ItemsDistinct]
  · simp [a, b, Document.numbers, Document.itemNumbers, Number.FitsWord]

section AnyHash

variable [StandardHash]

/-- Between documents that are equal in order nothing moves at any depth. -/
theorem isEmpty_between_of_equal_inOrder_and_self :
    (∀ a b : Document, a.KeysDistinct → b.KeysDistinct →
      (∀ n ∈ a.numbers ++ b.numbers, n.FitsWord) → a.equal false b = true →
        (∀ (path : Path) (items others : List Document), a.get? path = some (.array items) →
          b.get? path = some (.array others) →
            Document.matchItems items others = (List.range others.length).map some) ∧
        (between { ignoreOrder := true, reportMoves := true } a b).isEmpty = true) ∧
    ∀ (options : DiffOptions) (a : Document), a.KeysDistinct →
      (between options a a).isEmpty = true := by
  constructor
  · intro a b ha hb hwords hequal
    have hreals := Document.realsAgree_of_fitsWord hwords
    refine ⟨fun path items others hitems hothers => ?_, ?_⟩
    · exact Document.matchItems_get?_inOrder ha hb hreals hequal hitems hothers
    · refine (isEmpty_between_iff_equalInPlace rfl rfl ha hb hreals).2 ?_
      exact Document.equalInPlace_of_equal_inOrder ha hb hreals hequal
  · intro options a ha
    exact isEmpty_ofChanges_iff.2 (Document.changes_self options a ha .root)

end AnyHash

/-- Every item equals every other one across the two arrays but for the two integers, and still each
is matched with the one at its index. -/
theorem isEmpty_between_of_equal_inOrder_and_self_rounded :
    let small := Document.number (.unsigned 9007199254740992)
    let large := Document.number (.unsigned 9007199254740993)
    let rounded := Document.number (.real (.ofInt 9007199254740992))
    let a := Document.object [("x", .array [.array [small, rounded, large], .null])]
    let b := Document.object [("x", .array [.array [rounded, small, rounded], .null])]
    a.equal false b = true ∧
      Document.matchItems [small, rounded, large] [rounded, small, rounded] =
        (List.range 3).map some ∧
      (between { ignoreOrder := true, reportMoves := true } a b).isEmpty = true ∧
      (between { ignoreOrder := false } a a).isEmpty = true := by
  intro small large rounded a b
  have ha : a.KeysDistinct := by
    simp [a, small, large, rounded, Document.KeysDistinct, Document.ItemsDistinct,
      Document.MembersDistinct]
  have hb : b.KeysDistinct := by
    simp [b, small, rounded, Document.KeysDistinct, Document.ItemsDistinct,
      Document.MembersDistinct]
  have hwords : ∀ n ∈ a.numbers ++ b.numbers, n.FitsWord := by
    simp [a, b, small, large, rounded, Document.numbers, Document.itemNumbers,
      Document.memberNumbers, Number.FitsWord]
  have hequal : a.equal false b = true := by decide
  obtain ⟨hinOrder, hself⟩ := isEmpty_between_of_equal_inOrder_and_self
  obtain ⟨hmatched, hempty⟩ := hinOrder a b ha hb hwords hequal
  exact ⟨hequal, hmatched [.key "x", .index 0] _ _ rfl rfl, hempty,
    hself { ignoreOrder := false } a ha⟩

end ChangeSet

end JsonDelta
