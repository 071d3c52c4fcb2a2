import Mathlib.Data.List.Nodup
import Mathlib.Data.List.Perm.Subperm
import JsonDelta.Document.Basic
/-!
Members with distinct keys: look-up is membership, and putting and erasing work on the one place
that holds the key. Look-up is the same in all lists of pairs.
-/

namespace JsonDelta.Members

section Lookup

variable {κ β : Type} [BEq κ] [LawfulBEq κ] {key : κ} {value : β}
  {members before after : List (κ × β)}

theorem lookup_append_cons (h : key ∉ before.map Prod.fst) :
    (before ++ (key, value) :: after).lookup key = some value := by
  refine List.lookup_eq_some_iff.2 ⟨before, after, rfl, fun m hm => ?_⟩
  rw [bne_iff_ne]
  rintro rfl
  exact h (List.mem_map_of_mem hm)

theorem exists_append_cons_of_lookup (h : members.lookup key = some value) :
    ∃ before after, members = before ++ (key, value) :: after ∧ key ∉ before.map Prod.fst := by
  obtain ⟨before, after, rfl, hb⟩ := List.lookup_eq_some_iff.1 h
  refine ⟨before, after, rfl, fun hmem => ?_⟩
  obtain ⟨m, hm, rfl⟩ := List.mem_map.1 hmem
  simpa using hb m hm

theorem lookup_eq_none_iff : members.lookup key = none ↔ key ∉ members.map Prod.fst := by
  rw [List.lookup_eq_none_iff, List.mem_map]
  constructor
  · rintro h ⟨m, hm, rfl⟩
    simpa using h m hm
  · intro h m hm
    rw [bne_iff_ne]
    rintro rfl
    exact h ⟨m, hm, rfl⟩

theorem mem_of_lookup (h : members.lookup key = some value) : (key, value) ∈ members := by
  obtain ⟨before, after, rfl, _⟩ := exists_append_cons_of_lookup h
  simp

theorem mem_keys_of_lookup (h : members.lookup key = some value) : key ∈ members.map Prod.fst :=
  List.mem_map_of_mem (mem_of_lookup h)

theorem lookup_eq_some_iff (hd : (members.map Prod.fst).Nodup) :
    members.lookup key = some value ↔ (key, value) ∈ members := by
  refine ⟨mem_of_lookup, fun h => ?_⟩
  obtain ⟨before, after, rfl⟩ := List.append_of_mem h
  rw [List.map_append, List.map_cons] at hd
  exact lookup_append_cons fun hb => (List.nodup_append.1 hd).2.2 key hb key List.mem_cons_self rfl

theorem eq_of_mem (hd : (members.map Prod.fst).Nodup) {a b : β} (ha : (key, a) ∈ members)
    (hb : (key, b) ∈ members) : a = b := by
  rw [← lookup_eq_some_iff hd] at ha hb
  exact Option.some.inj (ha.symm.trans hb)

theorem exists_lookup_of_mem_keys (h : key ∈ members.map Prod.fst) :
    ∃ value, members.lookup key = some value := by
  cases hl : members.lookup key with
  | none => exact absurd h (lookup_eq_none_iff.1 hl)
  | some value => exact ⟨value, rfl⟩

end Lookup

variable {key : String} {value : Document} {members others before after : List (String × Document)}

/-! Putting and erasing at a known place. -/

theorem put_append_cons (h : key ∉ before.map Prod.fst) (new : Document) :
    put key new (before ++ (key, value) :: after) = before ++ (key, new) :: after := by
  induction before with
  | nil => simp [put]
  | cons m before ih =>
      obtain ⟨k, v⟩ := m
      obtain ⟨hk, hb⟩ : key ≠ k ∧ key ∉ before.map Prod.fst := by simpa using h
      simp [put, hk.symm, ih hb]

theorem erase_append_cons (h : key ∉ before.map Prod.fst) :
    erase key (before ++ (key, value) :: after) = before ++ after := by
  induction before with
  | nil => simp [erase]
  | cons m before ih =>
      obtain ⟨k, v⟩ := m
      obtain ⟨hk, hb⟩ : key ≠ k ∧ key ∉ before.map Prod.fst := by simpa using h
      simp [erase, hk.symm, ih hb]

theorem erase_sublist (key : String) (members : List (String × Document)) :
    (erase key members).Sublist members := by
  induction members with
  | nil => exact .refl _
  | cons m members ih =>
      rw [erase]
      split
      · exact List.sublist_cons_self ..
      · exact ih.cons_cons m

theorem put_eq_self (h : members.lookup key = some value) : put key value members = members := by
  obtain ⟨before, after, rfl, hb⟩ := exists_append_cons_of_lookup h
  exact put_append_cons hb value

theorem put_put (old new : Document) : put key new (put key old members) = put key new members := by
  induction members with
  | nil => simp [put]
  | cons m members ih =>
      obtain ⟨k, v⟩ := m
      by_cases hk : k = key <;> simp [put, hk, ih]

/-- The order matters only where both keys are new. -/
theorem put_comm {other : String} (hne : key ≠ other) (h : key ∈ members.map Prod.fst)
    (a b : Document) : put other b (put key a members) = put key a (put other b members) := by
  induction members with
  | nil => cases h
  | cons m members ih =>
      obtain ⟨k, v⟩ := m
      by_cases hk : k = key
      · subst hk
        simp [put, hne]
      · have hrest : key ∈ members.map Prod.fst := by simpa [Ne.symm hk] using h
        by_cases ho : k = other
        · subst ho
          simp [put, hk]
        · simp [put, hk, ho, ih hrest]

/-! Two lists of members, by their keys. -/

/-- The members have the same keys, and the values of each key are related. -/
structure Related (r : String → Document → Document → Prop)
    (members others : List (String × Document)) : Prop where
  keys : ∀ key, key ∈ members.map Prod.fst ↔ key ∈ others.map Prod.fst
  values : ∀ key a b, (key, a) ∈ members → (key, b) ∈ others → r key a b

namespace Related

variable {r s : String → Document → Document → Prop}

theorem imp (h : Related r members others)
    (hrs : ∀ key a b, (key, a) ∈ members → (key, b) ∈ others → r key a b → s key a b) :
    Related s members others :=
  ⟨h.keys, fun key a b ha hb => hrs key a b ha hb (h.values key a b ha hb)⟩

theorem swap (h : Related r members others)
    (hrs : ∀ key a b, (key, a) ∈ members → (key, b) ∈ others → r key a b → s key b a) :
    Related s others members :=
  ⟨fun key => (h.keys key).symm, fun key b a hb ha => hrs key a b ha hb (h.values key a b ha hb)⟩

theorem congr (h : ∀ key a b, (key, a) ∈ members → (key, b) ∈ others → (r key a b ↔ s key a b)) :
    Related r members others ↔ Related s members others :=
  ⟨fun hr => hr.imp fun key a b ha hb => (h key a b ha hb).1,
    fun hs => hs.imp fun key a b ha hb => (h key a b ha hb).2⟩

/-- No key is found in one of the lists only. -/
theorem lookup (h : Related r members others) (key : String) :
    (members.lookup key = none ∧ others.lookup key = none) ∨
      ∃ a b, members.lookup key = some a ∧ others.lookup key = some b ∧ r key a b := by
  by_cases hk : key ∈ members.map Prod.fst
  · obtain ⟨a, ha⟩ := exists_lookup_of_mem_keys hk
    obtain ⟨b, hb⟩ := exists_lookup_of_mem_keys ((h.keys key).1 hk)
    exact .inr ⟨a, b, ha, hb, h.values key a b (mem_of_lookup ha) (mem_of_lookup hb)⟩
  · exact .inl ⟨lookup_eq_none_iff.2 hk, lookup_eq_none_iff.2 fun ho => hk ((h.keys key).2 ho)⟩

section Transport

variable {newMembers newOthers : List (String × Document)}

/-- Either list can give way to one with the same keys. -/
theorem transport (hmembers : ∀ key, key ∈ members.map Prod.fst ↔ key ∈ newMembers.map Prod.fst)
    (hothers : ∀ key, key ∈ others.map Prod.fst ↔ key ∈ newOthers.map Prod.fst)
    (hrs : ∀ key a b c d, (key, a) ∈ members → (key, b) ∈ others → (key, c) ∈ newMembers →
      (key, d) ∈ newOthers → r key a b → s key c d)
    (h : Related r members others) : Related s newMembers newOthers := by
  refine ⟨fun key => ((hmembers key).symm.trans (h.keys key)).trans (hothers key), ?_⟩
  intro key c d hc hd
  obtain ⟨a, ha⟩ := exists_lookup_of_mem_keys ((hmembers key).2 (List.mem_map_of_mem hc))
  obtain ⟨b, hb⟩ := exists_lookup_of_mem_keys ((hothers key).2 (List.mem_map_of_mem hd))
  have ha := mem_of_lookup ha
  have hb := mem_of_lookup hb
  exact hrs key a b c d ha hb hc hd (h.values key a b ha hb)

theorem transport_iff
    (hmembers : ∀ key, key ∈ members.map Prod.fst ↔ key ∈ newMembers.map Prod.fst)
    (hothers : ∀ key, key ∈ others.map Prod.fst ↔ key ∈ newOthers.map Prod.fst)
    (hrs : ∀ key a b c d, (key, a) ∈ members → (key, b) ∈ others → (key, c) ∈ newMembers →
      (key, d) ∈ newOthers → (r key a b ↔ s key c d)) :
    Related r members others ↔ Related s newMembers newOthers := by
  constructor
  · exact transport hmembers hothers fun key a b c d ha hb hc hd => (hrs key a b c d ha hb hc hd).1
  · exact transport (fun key => (hmembers key).symm) (fun key => (hothers key).symm)
      fun key c d a b hc hd ha hb => (hrs key a b c d ha hb hc hd).2

end Transport

end Related

/-- The same, told by looking up every key of the first list in the second. -/
theorem related_iff_lookup {r : String → Document → Document → Prop}
    (ho : (others.map Prod.fst).Nodup) :
    Related r members others ↔
      (∀ m ∈ members, ∃ other, others.lookup m.1 = some other ∧ r m.1 m.2 other) ∧
        ∀ key ∈ others.map Prod.fst, key ∈ members.map Prod.fst := by
  constructor
  · intro h
    refine ⟨fun m hm => ?_, fun key => (h.keys key).2⟩
    obtain ⟨other, hl⟩ := exists_lookup_of_mem_keys ((h.keys m.1).1 (List.mem_map_of_mem hm))
    exact ⟨other, hl, h.values m.1 m.2 other hm (mem_of_lookup hl)⟩
  · rintro ⟨hvalues, hkeys⟩
    refine ⟨fun key => ⟨fun hk => ?_, hkeys key⟩, fun key a b ha hb => ?_⟩
    · obtain ⟨m, hm, rfl⟩ := List.mem_map.1 hk
      obtain ⟨other, hl, _⟩ := hvalues m hm
      exact mem_keys_of_lookup hl
    · obtain ⟨other, hl, hr⟩ := hvalues (key, a) ha
      obtain rfl : other = b := eq_of_mem ho (mem_of_lookup hl) hb
      exact hr

theorem keys_perm_of_subset (hm : (members.map Prod.fst).Nodup)
    (hsub : ∀ key ∈ members.map Prod.fst, key ∈ others.map Prod.fst)
    (hlen : others.length ≤ members.length) :
    (members.map Prod.fst).Perm (others.map Prod.fst) :=
  (List.subperm_of_subset hm hsub).perm_of_length_le (by simpa using hlen)

end JsonDelta.Members
