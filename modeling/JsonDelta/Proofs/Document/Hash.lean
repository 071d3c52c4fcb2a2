import JsonDelta.Proofs.Document.Equivalence
/-!
Hashes of documents, as sums that do not see the order of what is added. Main statement: hashes
never separate equivalent documents, as long as equal numbers are equal as reals; they then have the
same binary64 number next to them.
-/

namespace JsonDelta

namespace StandardHash

/-- The sum of mixed hashes, which does not see their order. -/
def mixedSum (hashes : List UInt64) : UInt64 := hashes.foldl (fun before h => before + mix h) 0

theorem mixedSum_eq_of_perm {hashes others : List UInt64} (h : hashes.Perm others) :
    mixedSum hashes = mixedSum others := by
  refine h.foldl_eq' (fun x _ y _ before => ?_) 0
  rw [UInt64.add_assoc, UInt64.add_assoc, UInt64.add_comm (mix x)]

end StandardHash

open StandardHash

namespace Document

/-- Where equal numbers of `a` and `b` are equal as reals. -/
def RealsAgree (a b : Document) : Prop :=
  ∀ m ∈ a.numbers, ∀ n ∈ b.numbers, m.same n = true → m.toBinary64.same n.toBinary64 = true

theorem RealsAgree.mono {a b c d : Document} (h : RealsAgree a b) (hc : c.numbers ⊆ a.numbers)
    (hd : d.numbers ⊆ b.numbers) : RealsAgree c d :=
  fun m hm n hn => h m (hc hm) n (hd hn)

/-- Integers that do not wrap around agree with the reals next to them. -/
theorem realsAgree_of_fitsWord {a b : Document}
    (h : ∀ n ∈ a.numbers ++ b.numbers, n.FitsWord) : RealsAgree a b :=
  fun m hm n hn => (h m (List.mem_append_left _ hm)).same_toBinary64
    (h n (List.mem_append_right _ hn))

variable [StandardHash]

theorem hash_array_anyOrder (items : List Document) :
    (array items).hash true = combine Kind.array.seed (mixedSum (items.map (hash true))) := by
  have hitems (before : UInt64) : itemsHash true before items =
      (items.map (hash true)).foldl (fun before h => before + mix h) before := by
    induction items generalizing before with
    | nil => rfl
    | cons item rest ih => rw [itemsHash, if_pos rfl, ih, List.map_cons, List.foldl_cons]
  rw [hash, hitems, mixedSum]

theorem hash_array_inOrder (items : List Document) : (array items).hash false =
    combine Kind.array.seed ((items.map (hash false)).foldl combine 0) := by
  have hitems (before : UInt64) : itemsHash false before items =
      (items.map (hash false)).foldl combine before := by
    induction items generalizing before with
    | nil => rfl
    | cons item rest ih =>
        rw [itemsHash, if_neg Bool.false_ne_true, ih, List.map_cons, List.foldl_cons]
  rw [hash, hitems]

def memberHash (ignoreOrder : Bool) (m : String × Document) : UInt64 :=
  combine (StandardHash.text m.1) (m.2.hash ignoreOrder)

theorem hash_object (ignoreOrder : Bool) (members : List (String × Document)) :
    (object members).hash ignoreOrder =
      combine Kind.object.seed (mixedSum (members.map (memberHash ignoreOrder))) := by
  have hmembers (before : UInt64) : membersHash ignoreOrder before members =
      (members.map (memberHash ignoreOrder)).foldl (fun before h => before + mix h) before := by
    induction members generalizing before with
    | nil => rfl
    | cons m rest ih => rw [membersHash, ih, List.map_cons, List.foldl_cons, memberHash]
  rw [hash, hmembers, mixedSum]

theorem hash_number_eq {m n : Number} (h : m.toBinary64.same n.toBinary64 = true)
    (ignoreOrder : Bool) : (number m).hash ignoreOrder = (number n).hash ignoreOrder := by
  rw [hash, hash, StandardHash.real_eq_of_same h]

theorem map_hash_eq {ignoreOrder : Bool} {items others : List Document}
    (h : List.Forall₂ (fun a b => a.hash ignoreOrder = b.hash ignoreOrder) items others) :
    items.map (hash ignoreOrder) = others.map (hash ignoreOrder) := by
  rwa [← List.forall₂_eq_eq_eq, List.forall₂_map_left_iff, List.forall₂_map_right_iff]

/-- Members with the same keys have the same hashes when values of the same key have. -/
theorem memberHashes_perm {ignoreOrder : Bool} {members others : List (String × Document)}
    (hm : (members.map Prod.fst).Nodup)
    (hkeys : (members.map Prod.fst).Perm (others.map Prod.fst))
    (h : ∀ key a b, (key, a) ∈ members → (key, b) ∈ others →
      a.hash ignoreOrder = b.hash ignoreOrder) :
    (members.map (memberHash ignoreOrder)).Perm (others.map (memberHash ignoreOrder)) := by
  -- both lists are images of their keys under one function, read off the first list
  let byKey (key : String) : UInt64 :=
    combine (StandardHash.text key) (((members.lookup key).map (hash ignoreOrder)).getD 0)
  have hmembers : members.map (memberHash ignoreOrder) = (members.map Prod.fst).map byKey := by
    rw [List.map_map]
    refine List.map_congr_left fun m hmem => ?_
    simp [byKey, memberHash, (Members.lookup_eq_some_iff hm).2 hmem]
  have hothers : others.map (memberHash ignoreOrder) = (others.map Prod.fst).map byKey := by
    rw [List.map_map]
    refine List.map_congr_left fun m hmem => ?_
    obtain ⟨a, ha⟩ := Members.exists_lookup_of_mem_keys
      (hkeys.symm.subset (List.mem_map_of_mem hmem))
    simp [byKey, memberHash, ha, h m.1 a m.2 (Members.mem_of_lookup ha) hmem]
  rw [hmembers, hothers]
  exact hkeys.map byKey

theorem hash_eq_of_equivalent {a b : Document} (h : Equivalent a b)
    (ha : a.KeysDistinct) (hb : b.KeysDistinct) (hn : RealsAgree a b) :
    a.hash true = b.hash true := by
  induction h with
  | null => rfl
  | bool b => rfl
  | string s => rfl
  | @number m n hmn =>
      have hm := List.mem_singleton.2 (rfl : m = m)
      have hn' := List.mem_singleton.2 (rfl : n = n)
      exact hash_number_eq (hn m hm n hn' hmn) true
  | @array items others σ _ ih =>
      have hitem (i : Fin items.length) :
          (items.get i).hash true = (others.get (σ i)).hash true := by
        have hi := List.get_mem items i
        have hj := List.get_mem others (σ i)
        exact ih i (keysDistinct_array.1 ha _ hi) (keysDistinct_array.1 hb _ hj)
          (hn.mono (numbers_subset_array hi) (numbers_subset_array hj))
      have hrel := Matching.rel_of_equiv (r := fun a b => hash true a = hash true b) σ hitem
      rw [← Multiset.rel_map, Multiset.rel_eq, Multiset.map_coe, Multiset.map_coe,
        Multiset.coe_eq_coe] at hrel
      rw [hash_array_anyOrder, hash_array_anyOrder, mixedSum_eq_of_perm hrel]
  | @object members others keys _ ih =>
      obtain ⟨hma, hva⟩ := keysDistinct_object.1 ha
      obtain ⟨hmb, hvb⟩ := keysDistinct_object.1 hb
      have hkeys := (List.perm_ext_iff_of_nodup hma hmb).2 keys
      have hperm := memberHashes_perm hma hkeys fun key a b hka hkb =>
        ih key a b hka hkb (hva _ hka) (hvb _ hkb)
          (hn.mono (numbers_subset_object hka) (numbers_subset_object hkb))
      rw [hash_object, hash_object, mixedSum_eq_of_perm hperm]

/-- Neither do they separate documents that are equal in order. -/
theorem hash_eq_of_equal_inOrder {a b : Document} (ha : a.KeysDistinct) (hb : b.KeysDistinct)
    (hn : RealsAgree a b) (h : a.equal false b = true) : a.hash false = b.hash false := by
  induction a, b using Document.pairInduction with
  | whole a b hwhole =>
      have hscalar := hwhole.resolve_right fun hne => hne (kind_eq_of_equal h)
      cases a with
      | array _ => cases hscalar
      | object _ => cases hscalar
      | number m =>
          cases b with
          | number n =>
              have hm := List.mem_singleton.2 (rfl : m = m)
              have hn' := List.mem_singleton.2 (rfl : n = n)
              exact hash_number_eq (hn m hm n hn' (by simpa [equal] using h)) false
          | _ => simp [equal] at h
      | _ => cases b <;> simp_all [equal]
  | array items others ih =>
      obtain ⟨hlength, hitems⟩ := forall₂_iff_getElem?.1 (equal_array_inOrder.1 h)
      rw [keysDistinct_array] at ha hb
      have hhashes : List.Forall₂ (fun a b => a.hash false = b.hash false) items others := by
        refine forall₂_iff_getElem?.2 ⟨hlength, fun i a b hi ho => ?_⟩
        have hitem := List.mem_of_getElem? hi
        have hother := List.mem_of_getElem? ho
        exact ih a hitem b hother (ha a hitem) (hb b hother)
          (hn.mono (numbers_subset_array hitem) (numbers_subset_array hother))
          (hitems i a b hi ho)
      rw [hash_array_inOrder, hash_array_inOrder, map_hash_eq hhashes]
  | object members others ih =>
      obtain ⟨hkeys, hvalues⟩ := keysDistinct_object.1 ha
      obtain ⟨hotherKeys, hotherValues⟩ := keysDistinct_object.1 hb
      have hperm := memberHashes_perm hkeys (keys_perm_of_equal hkeys h) fun key a b hka hkb => by
        obtain ⟨other, hother, hab⟩ := (equal_object.1 h).2 _ hka
        obtain rfl : other = b := Members.eq_of_mem hotherKeys (Members.mem_of_lookup hother) hkb
        exact ih _ hka _ hkb (hvalues _ hka) (hotherValues _ hkb)
          (hn.mono (numbers_subset_object hka) (numbers_subset_object hkb)) hab
      rw [hash_object, hash_object, mixedSum_eq_of_perm hperm]

end Document

end JsonDelta
