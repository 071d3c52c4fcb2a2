import JsonDelta.Proofs.Document.AnyOrder
import JsonDelta.Proofs.Document.Edit
/-!
Equality in place: every item of an array has to be at its index, but inside an item order does not
count any more. It lies between the two modes of structural equality. Main statements: documents
that are equal in order are equal in place, and their arrays are matched index by index at every
depth; the converse holds where no array inside another one has two items.
-/

namespace JsonDelta.Document

variable [StandardHash]

/-- Objects are compared member by member, and arrays index by index, but the items in any order. -/
inductive EqualInPlace : Document → Document → Prop
  | scalar {a b : Document} (hkind : a.kind.isContainer = false) (h : a.equal false b = true) :
      EqualInPlace a b
  | array {items others : List Document}
      (h : List.Forall₂ (fun a b => a.equal true b = true) items others) :
      EqualInPlace (array items) (array others)
  | object {members others : List (String × Document)}
      (keys : ∀ key, key ∈ members.map Prod.fst ↔ key ∈ others.map Prod.fst)
      (values : ∀ key a b, (key, a) ∈ members → (key, b) ∈ others → EqualInPlace a b) :
      EqualInPlace (object members) (object others)

variable {a b c d : Document} {items others : List Document}
  {members otherMembers : List (String × Document)} {segment : Segment} {path : Path}

theorem equalInPlace_whole (hwhole : a.kind.isContainer = false ∨ a.kind ≠ b.kind) :
    EqualInPlace a b ↔ a.equal false b = true := by
  constructor
  · intro h
    cases h with
    | scalar _ h => exact h
    | array _ => exact absurd hwhole (by simp [kind, Kind.isContainer])
    | object _ _ => exact absurd hwhole (by simp [kind, Kind.isContainer])
  · intro h
    exact .scalar (hwhole.resolve_right fun hne => hne (kind_eq_of_equal h)) h

theorem equalInPlace_array :
    EqualInPlace (array items) (array others) ↔
      List.Forall₂ (fun a b => a.equal true b = true) items others := by
  refine ⟨fun h => ?_, .array⟩
  cases h with
  | scalar hkind _ => cases hkind
  | array h => exact h

theorem equalInPlace_object :
    EqualInPlace (object members) (object otherMembers) ↔
      Members.Related (fun _ a b => EqualInPlace a b) members otherMembers := by
  refine ⟨fun h => ?_, fun h => .object h.keys h.values⟩
  cases h with
  | scalar hkind _ => cases hkind
  | object keys values => exact ⟨keys, values⟩

/-! Between the two modes. -/

/-- Where equal numbers are equal as reals, items that are equal at equal indices also fit. -/
theorem forall₂_fits (ha : (array items).KeysDistinct) (hb : (array others).KeysDistinct)
    (hn : RealsAgree (array items) (array others))
    (h : List.Forall₂ (fun a b => a.equal true b = true) items others) :
    List.Forall₂ (fun a b => fits a b = true) items others := by
  rw [keysDistinct_array] at ha hb
  rw [forall₂_iff_getElem?] at h ⊢
  refine ⟨h.1, fun i a b hi ho => ?_⟩
  have hai := List.mem_of_getElem? hi
  have hbo := List.mem_of_getElem? ho
  rw [fits_eq_equal (ha a hai) (hb b hbo)
    (hn.mono (numbers_subset_array hai) (numbers_subset_array hbo))]
  exact h.2 i a b hi ho

theorem EqualInPlace.equal_anyOrder (h : EqualInPlace a b) (ha : a.KeysDistinct)
    (hb : b.KeysDistinct) (hn : RealsAgree a b) : a.equal true b = true := by
  induction h with
  | scalar hkind h => rwa [equal_scalar true hkind]
  | array h => exact equal_array_of_forall₂_fits (forall₂_fits ha hb hn h)
  | object keys _ ih =>
      obtain ⟨hkeys, hvalues⟩ := keysDistinct_object.1 ha
      obtain ⟨hotherKeys, hotherValues⟩ := keysDistinct_object.1 hb
      refine (equal_object_iff_related hkeys hotherKeys).2 ⟨keys, fun key a b hka hkb => ?_⟩
      exact ih key a b hka hkb (hvalues _ hka) (hotherValues _ hkb)
        (hn.mono (numbers_subset_object hka) (numbers_subset_object hkb))

theorem equalInPlace_of_equal_inOrder (ha : a.KeysDistinct) (hb : b.KeysDistinct)
    (hn : RealsAgree a b) (h : a.equal false b = true) : EqualInPlace a b := by
  induction a, b using Document.pairInduction with
  | whole a b hwhole => exact (equalInPlace_whole hwhole).2 h
  | array items others ih =>
      rw [keysDistinct_array] at ha hb
      rw [equal_array_inOrder, forall₂_iff_getElem?] at h
      rw [equalInPlace_array, forall₂_iff_getElem?]
      refine ⟨h.1, fun i a b hi ho => ?_⟩
      have hai := List.mem_of_getElem? hi
      have hbo := List.mem_of_getElem? ho
      have hreals := hn.mono (numbers_subset_array hai) (numbers_subset_array hbo)
      have hitem := ih a hai b hbo (ha a hai) (hb b hbo) hreals (h.2 i a b hi ho)
      exact hitem.equal_anyOrder (ha a hai) (hb b hbo) hreals
  | object members others ih =>
      obtain ⟨hkeys, hvalues⟩ := keysDistinct_object.1 ha
      obtain ⟨hotherKeys, hotherValues⟩ := keysDistinct_object.1 hb
      rw [equalInPlace_object]
      refine ((equal_object_iff_related hkeys hotherKeys).1 h).imp fun key a b hka hkb hab => ?_
      exact ih _ hka _ hkb (hvalues _ hka) (hotherValues _ hkb)
        (hn.mono (numbers_subset_object hka) (numbers_subset_object hkb)) hab

/-! Children of documents that are equal in order. -/

omit [StandardHash] in
theorem numbers_subset_child? (h : d.child? segment = some a) : a.numbers ⊆ d.numbers := by
  match d, segment with
  | object members, .key name => exact numbers_subset_object (Members.mem_of_lookup h)
  | array items, .index (.ofNat i) => exact numbers_subset_array (List.mem_of_getElem? h)

theorem equal_child?_inOrder (h : a.equal false b = true) (hc : a.child? segment = some c)
    (hd : b.child? segment = some d) : c.equal false d = true := by
  have hkind := kind_eq_of_equal h
  match a, b, segment with
  | array items, array others, .index (.ofNat i) =>
      rw [equal_array_inOrder, forall₂_iff_getElem?] at h
      exact h.2 i c d hc hd
  | object members, object others, .key name =>
      obtain ⟨other, hother, hcd⟩ := (equal_object.1 h).2 _ (Members.mem_of_lookup hc)
      obtain rfl : other = d := Option.some.inj (hother.symm.trans hd)
      exact hcd

/-- Arrays at the same place of documents that are equal in order are matched index by index. -/
theorem matchItems_get?_inOrder (ha : a.KeysDistinct) (hb : b.KeysDistinct) (hn : RealsAgree a b)
    (h : a.equal false b = true) (hitems : a.get? path = some (array items))
    (hothers : b.get? path = some (array others)) :
    matchItems items others = (List.range others.length).map some := by
  induction path generalizing a b with
  | nil =>
      obtain rfl : a = array items := by simpa using hitems
      obtain rfl : b = array others := by simpa using hothers
      have hplace := equalInPlace_array.1 (equalInPlace_of_equal_inOrder ha hb hn h)
      exact matchItems_eq_map_range (forall₂_fits ha hb hn hplace)
  | cons segment path ih =>
      obtain ⟨c, hc, hitems⟩ := exists_child?_of_get?_cons hitems
      obtain ⟨d, hd, hothers⟩ := exists_child?_of_get?_cons hothers
      exact ih (keysDistinct_of_child? ha hc) (keysDistinct_of_child? hb hd)
        (hn.mono (numbers_subset_child? hc) (numbers_subset_child? hd))
        (equal_child?_inOrder h hc hd) hitems hothers

/-! From equality in place to equality in order. -/

/-- No array has two items. -/
inductive ArraysShort : Document → Prop
  | scalar {d : Document} (hkind : d.kind.isContainer = false) : ArraysShort d
  | array {items : List Document} (hlen : items.length ≤ 1) (h : ∀ item ∈ items, ArraysShort item) :
      ArraysShort (array items)
  | object {members : List (String × Document)} (h : ∀ m ∈ members, ArraysShort m.2) :
      ArraysShort (object members)

/-- No array that lies inside another one has two items. -/
inductive InnerArraysShort : Document → Prop
  | scalar {d : Document} (hkind : d.kind.isContainer = false) : InnerArraysShort d
  | array {items : List Document} (h : ∀ item ∈ items, ArraysShort item) :
      InnerArraysShort (array items)
  | object {members : List (String × Document)} (h : ∀ m ∈ members, InnerArraysShort m.2) :
      InnerArraysShort (object members)

theorem equal_array_of_short (hlen : items.length ≤ 1)
    (hitems : ∀ a ∈ items, ∀ b ∈ others, a.equal true b = true → a.equal false b = true)
    (h : (array items).equal true (array others) = true) :
    (array items).equal false (array others) = true := by
  obtain ⟨zs, hzs, hperm⟩ := Matching.exists_forall₂_of_rel (rel_of_equal_array h)
  -- a list with at most one element has no other order
  obtain rfl : zs = others := by
    match zs, hzs.length_eq ▸ hlen with
    | [], _ => exact (List.nil_perm.1 hperm).symm
    | [z], _ => exact List.singleton_perm.1 hperm
  rw [forall₂_iff_getElem?] at hzs
  rw [equal_array_inOrder, forall₂_iff_getElem?]
  refine ⟨hzs.1, fun i a b hi ho => ?_⟩
  exact hitems a (List.mem_of_getElem? hi) b (List.mem_of_getElem? ho)
    (equal_of_fits (hzs.2 i a b hi ho))

theorem ArraysShort.equal_inOrder (hs : ArraysShort a) (h : a.equal true b = true) :
    a.equal false b = true := by
  induction hs generalizing b with
  | scalar hkind => rwa [equal_scalar true hkind] at h
  | array hlen _ ih =>
      cases b with
      | array others => exact equal_array_of_short hlen (fun a hi b _ => ih a hi) h
      | _ => simp [equal] at h
  | object _ ih =>
      cases b with
      | object others =>
          rw [equal_object] at h ⊢
          refine ⟨h.1, fun m hm => ?_⟩
          obtain ⟨other, hl, hvalue⟩ := h.2 m hm
          exact ⟨other, hl, ih m hm hvalue⟩
      | _ => simp [equal] at h

theorem EqualInPlace.equal_inOrder (h : EqualInPlace a b) (hs : InnerArraysShort a)
    (ha : a.KeysDistinct) (hb : b.KeysDistinct) : a.equal false b = true := by
  induction h with
  | scalar _ h => exact h
  | array h =>
      cases hs with
      | scalar hkind => cases hkind
      | array hs =>
          rw [forall₂_iff_getElem?] at h
          rw [equal_array_inOrder, forall₂_iff_getElem?]
          refine ⟨h.1, fun i a b hi ho => ?_⟩
          exact (hs a (List.mem_of_getElem? hi)).equal_inOrder (h.2 i a b hi ho)
  | object keys _ ih =>
      cases hs with
      | scalar hkind => cases hkind
      | object hs =>
          obtain ⟨hkeys, hvalues⟩ := keysDistinct_object.1 ha
          obtain ⟨hotherKeys, hotherValues⟩ := keysDistinct_object.1 hb
          refine (equal_object_iff_related hkeys hotherKeys).2 ⟨keys, fun key a b hka hkb => ?_⟩
          exact ih key a b hka hkb (hs _ hka) (hvalues _ hka) (hotherValues _ hkb)

end JsonDelta.Document
