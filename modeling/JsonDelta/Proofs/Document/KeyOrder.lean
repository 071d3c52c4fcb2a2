import JsonDelta.Proofs.Document.AnyOrder
/-!
Documents that differ in nothing but the order of members, at any depth. Main statements: they have
the same hash, they match the same, and they are equal to the same documents in both modes.
-/

namespace JsonDelta.Document

/-- The same document, except that the members of its objects come in another order. -/
inductive KeyReordered : Document → Document → Prop
  | scalar {d : Document} (hkind : d.kind.isContainer = false) : KeyReordered d d
  | array {items others : List Document} (hlen : items.length = others.length)
      (h : ∀ (i : Nat) a b, items[i]? = some a → others[i]? = some b → KeyReordered a b) :
      KeyReordered (array items) (array others)
  | object {members others : List (String × Document)}
      (keys : (members.map Prod.fst).Perm (others.map Prod.fst))
      (values : ∀ key a b, (key, a) ∈ members → (key, b) ∈ others → KeyReordered a b) :
      KeyReordered (object members) (object others)

namespace KeyReordered

variable {a a' b b' : Document} {items others : List Document}
  {members otherMembers : List (String × Document)}

theorem of_forall₂ (h : List.Forall₂ KeyReordered items others) :
    KeyReordered (.array items) (.array others) :=
  have ⟨hlen, hall⟩ := forall₂_iff_getElem?.1 h
  .array hlen hall

theorem refl (ha : a.KeysDistinct) : KeyReordered a a := by
  induction a using Document.induction with
  | scalar d hkind => exact .scalar hkind
  | array items ih =>
      rw [keysDistinct_array] at ha
      exact .of_forall₂ (List.forall₂_same.2 fun item hi => ih item hi (ha item hi))
  | object members ih =>
      obtain ⟨hkeys, hvalues⟩ := keysDistinct_object.1 ha
      refine .object (.refl _) fun key a b hka hkb => ?_
      obtain rfl : a = b := Members.eq_of_mem hkeys hka hkb
      exact ih _ hka (hvalues _ hka)

/-- The members of one object in another order. -/
theorem of_perm (h : members.Perm otherMembers) (hm : (Document.object members).KeysDistinct) :
    KeyReordered (.object members) (.object otherMembers) := by
  obtain ⟨hkeys, hvalues⟩ := keysDistinct_object.1 hm
  refine .object (h.map _) fun key a b hka hkb => ?_
  obtain rfl : a = b := Members.eq_of_mem hkeys hka (h.mem_iff.2 hkb)
  exact refl (hvalues _ hka)

theorem kind_eq (h : KeyReordered a b) : a.kind = b.kind := by
  cases h <;> rfl

theorem eq_of_scalar (h : KeyReordered a b) (hkind : a.kind.isContainer = false) : a = b := by
  cases h with
  | scalar _ => rfl
  | array _ _ => cases hkind
  | object _ _ => cases hkind

theorem exists_array (h : KeyReordered (.array items) b) :
    ∃ others, b = .array others ∧ List.Forall₂ KeyReordered items others := by
  cases h with
  | scalar hkind => cases hkind
  | array hlen h => exact ⟨_, rfl, forall₂_iff_getElem?.2 ⟨hlen, h⟩⟩

theorem exists_object (h : KeyReordered (.object members) b) :
    ∃ others, b = .object others ∧ (members.map Prod.fst).Perm (others.map Prod.fst) ∧
      Members.Related (fun _ a b => KeyReordered a b) members others := by
  cases h with
  | scalar hkind => cases hkind
  | object keys values => exact ⟨_, rfl, keys, fun _ => keys.mem_iff, values⟩

/-! Hashes. -/

theorem hash_eq [StandardHash] (h : KeyReordered a b) (ha : a.KeysDistinct) :
    a.hash true = b.hash true := by
  induction h with
  | scalar _ => rfl
  | @array items others hlen _ ih =>
      rw [keysDistinct_array] at ha
      have hitems : List.Forall₂ (fun a b => hash true a = hash true b) items others :=
        forall₂_iff_getElem?.2 ⟨hlen, fun i a b hi ho =>
          ih i a b hi ho (ha a (List.mem_of_getElem? hi))⟩
      rw [hash_array_anyOrder, hash_array_anyOrder, map_hash_eq hitems]
  | object keys _ ih =>
      obtain ⟨hkeys, hvalues⟩ := keysDistinct_object.1 ha
      have hmembers := memberHashes_perm hkeys keys fun key a b hka hkb =>
        ih key a b hka hkb (hvalues _ hka)
      rw [hash_object, hash_object, StandardHash.mixedSum_eq_of_perm hmembers]

end KeyReordered

/-! Matching, and equality in both modes. -/

variable {a a' b b' : Document} {items items' others others' : List Document}

variable [StandardHash]

/-- Items in their places are matched the same as long as the same ones fit. -/
theorem matchItems_eq_of_keyReordered (hitems : List.Forall₂ KeyReordered items items')
    (hothers : List.Forall₂ KeyReordered others others')
    (hfits : ∀ a ∈ items, ∀ b ∈ others, ∀ a' b', KeyReordered a a' → KeyReordered b b' →
      fits a' b' = fits a b) :
    matchItems items' others' = matchItems items others := by
  rw [matchItems_eq_firstFit, matchItems_eq_firstFit]
  refine Matching.firstFit_eq_of_fitsAt hothers.length_eq.symm fun i j => ?_
  rcases getElem?_of_forall₂ hitems i with ⟨hi, hi'⟩ | ⟨a, a', hi, hi', haa⟩
  · simp [Matching.FitsAt, hi, hi']
  · rcases getElem?_of_forall₂ hothers j with ⟨hj, hj'⟩ | ⟨b, b', hj, hj', hbb⟩
    · simp [Matching.FitsAt, hj, hj']
    · have hab := hfits a (List.mem_of_getElem? hi) b (List.mem_of_getElem? hj) a' b' haa hbb
      simp [Matching.FitsAt, hi, hi', hj, hj', hab]

theorem equal_inOrder_of_keyReordered (hitems : List.Forall₂ KeyReordered items items')
    (hothers : List.Forall₂ KeyReordered others others')
    (hequal : ∀ a ∈ items, ∀ b ∈ others, ∀ a' b', KeyReordered a a' → KeyReordered b b' →
      a'.equal false b' = a.equal false b) :
    (array items').equal false (array others') = (array items).equal false (array others) := by
  rw [Bool.eq_iff_iff, equal_array_inOrder, equal_array_inOrder, forall₂_iff_getElem?,
    forall₂_iff_getElem?, hitems.length_eq, hothers.length_eq]
  refine and_congr_right fun _ => forall_congr' fun i => ?_
  rcases getElem?_of_forall₂ hitems i with ⟨hi, hi'⟩ | ⟨a, a', hi, hi', haa⟩
  · simp [hi, hi']
  · rcases getElem?_of_forall₂ hothers i with ⟨hj, hj'⟩ | ⟨b, b', hj, hj', hbb⟩
    · simp [hj, hj']
    · have hab := hequal a (List.mem_of_getElem? hi) b (List.mem_of_getElem? hj) a' b' haa hbb
      simp [hi, hi', hj, hj', hab]

theorem equal_anyOrder_of_keyReordered (hitems : List.Forall₂ KeyReordered items items')
    (hothers : List.Forall₂ KeyReordered others others')
    (hfits : ∀ a ∈ items, ∀ b ∈ others, ∀ a' b', KeyReordered a a' → KeyReordered b b' →
      fits a' b' = fits a b) :
    (array items').equal true (array others') = (array items).equal true (array others) := by
  rw [Bool.eq_iff_iff, equal_array_anyOrder, equal_array_anyOrder,
    matchItems_eq_of_keyReordered hitems hothers hfits, hitems.length_eq, hothers.length_eq]

theorem fits_eq_of_keyReordered (ha : a.KeysDistinct) (hb : b.KeysDistinct)
    (haa : KeyReordered a a') (hbb : KeyReordered b b')
    (hequal : a'.equal true b' = a.equal true b) : fits a' b' = fits a b := by
  rw [fits, fits, haa.hash_eq ha, hbb.hash_eq hb, hequal]

/-- Equality does not see the order of members, in either mode. -/
theorem equal_eq_of_keyReordered (ha : a.KeysDistinct) (hb : b.KeysDistinct)
    (haa : KeyReordered a a') (hbb : KeyReordered b b') (ignoreOrder : Bool) :
    a'.equal ignoreOrder b' = a.equal ignoreOrder b := by
  induction a, b using Document.pairInduction generalizing a' b' with
  | whole a b h =>
      -- Two scalars have no members; documents of different kinds keep their kinds.
      by_cases hkind : a.kind = b.kind
      · have hscalar := h.resolve_right (not_not_intro hkind)
        rw [← haa.eq_of_scalar hscalar, ← hbb.eq_of_scalar (hkind ▸ hscalar)]
      · rw [equal_of_kind_ne hkind, equal_of_kind_ne (haa.kind_eq ▸ hbb.kind_eq ▸ hkind)]
  | array items others ih =>
      rw [keysDistinct_array] at ha hb
      obtain ⟨items', rfl, hitems⟩ := haa.exists_array
      obtain ⟨others', rfl, hothers⟩ := hbb.exists_array
      have hequal (a) (hi : a ∈ items) (b) (ho : b ∈ others) (a' b') (haa : KeyReordered a a')
          (hbb : KeyReordered b b') := ih a hi b ho (ha a hi) (hb b ho) haa hbb
      cases ignoreOrder with
      | false => exact equal_inOrder_of_keyReordered hitems hothers hequal
      | true =>
          refine equal_anyOrder_of_keyReordered hitems hothers fun a hi b ho a' b' haa hbb => ?_
          exact fits_eq_of_keyReordered (ha a hi) (hb b ho) haa hbb (hequal a hi b ho a' b' haa hbb)
  | object members others ih =>
      obtain ⟨hkeys, hvalues⟩ := keysDistinct_object.1 ha
      obtain ⟨hotherKeys, hotherValues⟩ := keysDistinct_object.1 hb
      obtain ⟨members', rfl, hperm, hmembers⟩ := haa.exists_object
      obtain ⟨others', rfl, hotherPerm, hothers⟩ := hbb.exists_object
      rw [eq_comm, Bool.eq_iff_iff, equal_object_iff_related hkeys hotherKeys,
        equal_object_iff_related (hperm.nodup_iff.1 hkeys) (hotherPerm.nodup_iff.1 hotherKeys)]
      refine Members.Related.transport_iff hmembers.keys hothers.keys ?_
      intro key a b a' b' ha hb ha' hb'
      rw [ih _ ha _ hb (hvalues _ ha) (hotherValues _ hb) (hmembers.values key a a' ha ha')
        (hothers.values key b b' hb hb')]

end JsonDelta.Document
