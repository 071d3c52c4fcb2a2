import Mathlib.Data.List.Forall2
import JsonDelta.Document.Distinct
import JsonDelta.Document.Equality
import JsonDelta.Proofs.Document.Members
import JsonDelta.Proofs.Document.Numbers
/-!
Structural equality, kind by kind: what it asks of the items of two arrays and of the members of two
objects.
-/

namespace JsonDelta.Document

theorem forall₂_iff_getElem? {α β : Type} {r : α → β → Prop} {xs : List α} {ys : List β} :
    List.Forall₂ r xs ys ↔
      xs.length = ys.length ∧ ∀ (i : Nat) x y, xs[i]? = some x → ys[i]? = some y → r x y := by
  rw [List.forall₂_iff_get]
  refine and_congr_right fun _ => ⟨fun h i x y hx hy => ?_, fun h i hx hy => ?_⟩
  · obtain ⟨hi, rfl⟩ := List.getElem?_eq_some_iff.1 hx
    obtain ⟨hj, rfl⟩ := List.getElem?_eq_some_iff.1 hy
    exact h i hi hj
  · exact h i _ _ (List.getElem?_eq_getElem hx) (List.getElem?_eq_getElem hy)

/-- Both lists end at the same index, and up to there they are related. -/
theorem getElem?_of_forall₂ {α β : Type} {r : α → β → Prop} {xs : List α} {ys : List β}
    (h : List.Forall₂ r xs ys) (i : Nat) :
    (xs[i]? = none ∧ ys[i]? = none) ∨ ∃ x y, xs[i]? = some x ∧ ys[i]? = some y ∧ r x y := by
  obtain ⟨hlen, hall⟩ := forall₂_iff_getElem?.1 h
  by_cases hi : i < xs.length
  · have hx := List.getElem?_eq_getElem hi
    have hy := List.getElem?_eq_getElem (hlen ▸ hi : i < ys.length)
    exact .inr ⟨_, _, hx, hy, hall i _ _ hx hy⟩
  · exact .inl ⟨List.getElem?_eq_none (Nat.le_of_not_lt hi),
      List.getElem?_eq_none (hlen ▸ Nat.le_of_not_lt hi)⟩

variable {ignoreOrder : Bool} {a b : Document} {items others : List Document}
  {members : List (String × Document)} {otherMembers : List (String × Document)}

variable [StandardHash]

theorem kind_eq_of_equal (h : a.equal ignoreOrder b = true) : a.kind = b.kind := by
  cases a <;> cases b <;> first | rfl | simp [equal] at h

theorem equal_of_kind_ne (h : a.kind ≠ b.kind) : a.equal ignoreOrder b = false :=
  Bool.eq_false_iff.2 fun he => h (kind_eq_of_equal he)

/-- Scalars are compared alike in both modes. -/
theorem equal_scalar (ignoreOrder : Bool) (h : a.kind.isContainer = false) (b : Document) :
    a.equal ignoreOrder b = a.equal false b := by
  cases a with
  | array _ => cases h
  | object _ => cases h
  | _ => cases b <;> rfl

/-- Only two arrays, or two objects, are compared by their content. -/
theorem equal_whole (ignoreOrder : Bool) (h : a.kind.isContainer = false ∨ a.kind ≠ b.kind) :
    a.equal ignoreOrder b = a.equal false b := by
  rcases h with h | h
  · exact equal_scalar ignoreOrder h b
  · rw [equal_of_kind_ne h, equal_of_kind_ne h]

theorem itemsEqual_iff_forall₂ :
    itemsEqual items others = true ↔
      List.Forall₂ (fun a b => a.equal false b = true) items others := by
  induction items generalizing others with
  | nil => cases others <;> simp [itemsEqual]
  | cons item items ih => cases others <;> simp [itemsEqual, ih]

/-- In order, arrays are equal item by item. -/
theorem equal_array_inOrder :
    (array items).equal false (array others) = true ↔
      List.Forall₂ (fun a b => a.equal false b = true) items others := by
  rw [← itemsEqual_iff_forall₂, equal, if_neg Bool.false_ne_true, Bool.and_eq_true, beq_iff_eq]
  refine ⟨And.right, fun h => ⟨?_, h⟩⟩
  exact (itemsEqual_iff_forall₂.1 h).length_eq

/-- In any order, arrays are equal when every new item is matched and no old one is left. -/
theorem equal_array_anyOrder :
    (array items).equal true (array others) = true ↔
      items.length = others.length ∧ ∀ place ∈ matchItems items others, place.isSome := by
  rw [equal, if_pos rfl, Bool.and_eq_true, beq_iff_eq, List.all_eq_true]
  rfl

theorem membersEqual_iff :
    membersEqual ignoreOrder members otherMembers = true ↔
      ∀ m ∈ members, ∃ other, otherMembers.lookup m.1 = some other ∧
        m.2.equal ignoreOrder other = true := by
  induction members with
  | nil => simp [membersEqual]
  | cons m members ih =>
      obtain ⟨key, value⟩ := m
      rw [membersEqual, Bool.and_eq_true, ih, List.forall_mem_cons]
      refine and_congr_left fun _ => ?_
      cases otherMembers.lookup key <;> simp

theorem equal_object :
    (object members).equal ignoreOrder (object otherMembers) = true ↔
      members.length = otherMembers.length ∧
        ∀ m ∈ members, ∃ other, otherMembers.lookup m.1 = some other ∧
          m.2.equal ignoreOrder other = true := by
  rw [equal, Bool.and_eq_true, beq_iff_eq, membersEqual_iff]

theorem equal_object_self (hm : (members.map Prod.fst).Nodup)
    (h : ∀ m ∈ members, m.2.equal ignoreOrder m.2 = true) :
    (object members).equal ignoreOrder (object members) = true :=
  equal_object.2 ⟨rfl, fun m hmem => ⟨m.2, (Members.lookup_eq_some_iff hm).2 hmem, h m hmem⟩⟩

/-- A document equals itself, item by item. -/
theorem equal_inOrder_self (a : Document) (ha : a.KeysDistinct) : a.equal false a = true := by
  induction a using Document.induction with
  | scalar d hd =>
      cases d with
      | array _ => cases hd
      | object _ => cases hd
      | _ => simp [equal]
  | array items ih =>
      rw [equal_array_inOrder, List.forall₂_same]
      exact fun item hi => ih item hi (keysDistinct_array.1 ha item hi)
  | object members ih =>
      obtain ⟨hkeys, hvalues⟩ := keysDistinct_object.1 ha
      exact equal_object_self hkeys fun m hm => ih m hm (hvalues m hm)

/-- The members of equal objects have the same keys. -/
theorem keys_perm_of_equal (hm : (members.map Prod.fst).Nodup)
    (h : (object members).equal ignoreOrder (object otherMembers) = true) :
    (members.map Prod.fst).Perm (otherMembers.map Prod.fst) := by
  obtain ⟨hlen, hvalues⟩ := equal_object.1 h
  refine Members.keys_perm_of_subset hm (fun key hk => ?_) (Nat.le_of_eq hlen.symm)
  obtain ⟨m, hmem, rfl⟩ := List.mem_map.1 hk
  obtain ⟨other, hl, _⟩ := hvalues m hmem
  exact Members.mem_keys_of_lookup hl

theorem equal_object_iff_keys (hm : (members.map Prod.fst).Nodup)
    (ho : (otherMembers.map Prod.fst).Nodup) :
    (object members).equal ignoreOrder (object otherMembers) = true ↔
      (∀ m ∈ members, ∃ other, otherMembers.lookup m.1 = some other ∧
        m.2.equal ignoreOrder other = true) ∧
      ∀ key ∈ otherMembers.map Prod.fst, key ∈ members.map Prod.fst := by
  refine ⟨fun h => ⟨(equal_object.1 h).2, fun _ => (keys_perm_of_equal hm h).mem_iff.2⟩, ?_⟩
  rintro ⟨hvalues, hkeys⟩
  have hperm : (members.map Prod.fst).Perm (otherMembers.map Prod.fst) := by
    refine (List.perm_ext_iff_of_nodup hm ho).2 fun key => ⟨fun hk => ?_, hkeys key⟩
    obtain ⟨m, hmem, rfl⟩ := List.mem_map.1 hk
    obtain ⟨other, hl, _⟩ := hvalues m hmem
    exact Members.mem_keys_of_lookup hl
  exact equal_object.2 ⟨by simpa using hperm.length_eq, hvalues⟩

theorem equal_object_iff_related (hm : (members.map Prod.fst).Nodup)
    (ho : (otherMembers.map Prod.fst).Nodup) :
    (object members).equal ignoreOrder (object otherMembers) = true ↔
      Members.Related (fun _ a b => a.equal ignoreOrder b = true) members otherMembers := by
  rw [equal_object_iff_keys hm ho, Members.related_iff_lookup ho]

end JsonDelta.Document
