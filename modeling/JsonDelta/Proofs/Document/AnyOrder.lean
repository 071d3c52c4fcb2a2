import JsonDelta.Proofs.Document.Hash
import JsonDelta.Proofs.Matching.Stable
/-!
Structural equality in any order. It implies equivalence. Main statement: where numbers are compared
as reals it decides equivalence, although it tries a single matching at every level.
-/

namespace JsonDelta.Document

section Among

variable {numbers : List Number}

theorem realsAgree_of_comparedAsReals (hn : Number.ComparedAsReals numbers) {a b : Document}
    (ha : a.numbers ⊆ numbers) (hb : b.numbers ⊆ numbers) : RealsAgree a b :=
  fun m hm n hn' h => by rwa [← hn m (ha hm) n (hb hn')]

/-- Equivalence of documents whose numbers are among the given ones. -/
def EquivalentAmong (numbers : List Number) (a b : Document) : Prop :=
  Equivalent a b ∧ a.numbers ⊆ numbers ∧ b.numbers ⊆ numbers

theorem rectangular_equivalentAmong (hn : Number.ComparedAsReals numbers) :
    Matching.Rectangular (EquivalentAmong numbers) := by
  intro a a' b b' hab hmid hab'
  have haa' : Equivalent a a' :=
    hab.1.trans hn hmid.1.symm hab.2.1 hab.2.2 hmid.2.1
  exact ⟨haa'.trans hn hab'.1 hab.2.1 hmid.2.1 hab'.2.2, hab.2.1, hab'.2.2⟩

end Among

section AnyHash

variable [StandardHash]

theorem equal_of_fits {a b : Document} (h : fits a b = true) : a.equal true b = true :=
  (Bool.and_eq_true_iff.1 h).2

theorem fits_of_equal {a b : Document} (hf : a.hash true = b.hash true)
    (h : a.equal true b = true) : fits a b = true := by
  rw [fits, hf, h, beq_self_eq_true, Bool.and_true]

/-- A matching without gaps between arrays of one length pairs their items. -/
theorem rel_of_equal_array {items others : List Document}
    (h : (array items).equal true (array others) = true) :
    Multiset.Rel (fun a b => fits a b = true) items others := by
  obtain ⟨hlen, hall⟩ := equal_array_anyOrder.1 h
  rw [matchItems_eq_firstFit] at hall
  exact Matching.rel_of_firstFit hlen hall

/-- Where the items at equal indices fit, every item is matched with the one at its index. -/
theorem matchItems_eq_map_range {items others : List Document}
    (h : List.Forall₂ (fun a b => fits a b = true) items others) :
    matchItems items others = (List.range others.length).map some := by
  rw [matchItems_eq_firstFit, Matching.firstFit_eq_map_range h]

theorem equal_array_of_forall₂_fits {items others : List Document}
    (h : List.Forall₂ (fun a b => fits a b = true) items others) :
    (array items).equal true (array others) = true := by
  rw [equal_array_anyOrder, matchItems_eq_map_range h]
  exact ⟨h.length_eq, by simp⟩

theorem equivalent_scalar {a b : Document} (hd : a.kind.isContainer = false)
    (h : a.equal true b = true) : Equivalent a b := by
  cases a with
  | null => cases b <;> first | exact .null | simp [equal] at h
  | bool x =>
      cases b with
      | bool y =>
          obtain rfl : x = y := by simpa [equal] using h
          exact .bool x
      | _ => simp [equal] at h
  | number m =>
      cases b with
      | number n => exact .number (by simpa [equal] using h)
      | _ => simp [equal] at h
  | string s =>
      cases b with
      | string t =>
          obtain rfl : s = t := by simpa [equal] using h
          exact .string s
      | _ => simp [equal] at h
  | array _ => cases hd
  | object _ => cases hd

theorem equivalent_of_equal {a b : Document} (ha : a.KeysDistinct) (hb : b.KeysDistinct)
    (h : a.equal true b = true) : Equivalent a b := by
  induction a, b using Document.pairInduction with
  | whole a b hwhole =>
      exact equivalent_scalar (hwhole.resolve_right fun hne => hne (kind_eq_of_equal h)) h
  | array items others ih =>
      refine .array_of_rel ((rel_of_equal_array h).mono fun a hi b ho hab => ?_)
      exact ih a hi b ho (keysDistinct_array.1 ha a hi) (keysDistinct_array.1 hb b ho)
        (equal_of_fits hab)
  | object members others ih =>
      obtain ⟨hkeys, hvalues⟩ := keysDistinct_object.1 ha
      obtain ⟨hotherKeys, hotherValues⟩ := keysDistinct_object.1 hb
      have hperm := keys_perm_of_equal hkeys h
      refine .object (fun _ => hperm.mem_iff) fun key a b hka hkb => ?_
      obtain ⟨other, hother, hab⟩ := (equal_object.1 h).2 _ hka
      obtain rfl : other = b := Members.eq_of_mem hotherKeys (Members.mem_of_lookup hother) hkb
      exact ih _ hka _ hkb (hvalues _ hka) (hotherValues _ hkb) hab

/-- Where equal numbers are equal as reals, hashes never separate equal documents. -/
theorem fits_eq_equal {a b : Document} (ha : a.KeysDistinct) (hb : b.KeysDistinct)
    (hn : RealsAgree a b) : fits a b = a.equal true b := by
  cases h : a.equal true b with
  | false => rw [fits, h, Bool.and_false]
  | true =>
      have heq := equivalent_of_equal ha hb h
      exact fits_of_equal (hash_eq_of_equivalent heq ha hb hn) h

/-! The converse needs an exchange: two items that fit a third one are equivalent to each other. -/

variable {numbers : List Number}

theorem equal_of_equivalent (hn : Number.ComparedAsReals numbers) {a b : Document}
    (ha : a.KeysDistinct) (hb : b.KeysDistinct) (hna : a.numbers ⊆ numbers)
    (hnb : b.numbers ⊆ numbers) (h : Equivalent a b) : a.equal true b = true := by
  induction a using Document.induction generalizing b with
  | scalar d hd =>
      cases h with
      | number h => simpa [equal] using h
      | array _ _ => cases hd
      | object _ _ => cases hd
      | _ => simp [equal]
  | array items ih =>
      cases h with
      | @array _ others σ hσ =>
          rw [keysDistinct_array] at ha hb
          have hitem {a} (hi : a ∈ items) : a.numbers ⊆ numbers :=
            List.Subset.trans (numbers_subset_array hi) hna
          have hother {b} (ho : b ∈ others) : b.numbers ⊆ numbers :=
            List.Subset.trans (numbers_subset_array ho) hnb
          refine equal_array_anyOrder.2 ⟨Fin.equiv_iff_eq.1 ⟨σ⟩, ?_⟩
          rw [matchItems_eq_firstFit]
          -- The bijection is one matching; first fit may find another.
          refine Matching.isSome_of_mem_firstFit (rectangular_equivalentAmong hn) ?_
            (Matching.rel_of_equiv σ fun i => ?_)
          · intro a hi b ho
            refine ⟨fun hf => ⟨?_, hitem hi, hother ho⟩, fun hab => ?_⟩
            · exact equivalent_of_equal (ha a hi) (hb b ho) (equal_of_fits hf)
            · have hreals := realsAgree_of_comparedAsReals hn (hitem hi) (hother ho)
              exact fits_of_equal
                (hash_eq_of_equivalent hab.1 (ha a hi) (hb b ho) hreals)
                (ih a hi (ha a hi) (hb b ho) (hitem hi) (hother ho) hab.1)
          · exact ⟨hσ i, hitem (List.get_mem ..), hother (List.get_mem ..)⟩
  | object members ih =>
      cases h with
      | @object _ others keys values =>
          obtain ⟨hkeys, hvalues⟩ := keysDistinct_object.1 ha
          obtain ⟨hotherKeys, hotherValues⟩ := keysDistinct_object.1 hb
          have hperm := (List.perm_ext_iff_of_nodup hkeys hotherKeys).2 keys
          refine equal_object.2 ⟨by simpa using hperm.length_eq, fun m hm => ?_⟩
          obtain ⟨other, hl⟩ :=
            Members.exists_lookup_of_mem_keys ((keys m.1).1 (List.mem_map_of_mem hm))
          have hmem := Members.mem_of_lookup hl
          refine ⟨other, hl, ih m hm (hvalues m hm) (hotherValues _ hmem) ?_ ?_ ?_⟩
          · exact List.Subset.trans (numbers_subset_object hm) hna
          · exact List.Subset.trans (numbers_subset_object hmem) hnb
          · exact values m.1 m.2 other hm hmem

/-- Where numbers are compared as reals, first fit decides equivalence at every depth. -/
theorem equal_anyOrder_iff_equivalent {a b : Document} (ha : a.KeysDistinct)
    (hb : b.KeysDistinct) (hn : Number.ComparedAsReals (a.numbers ++ b.numbers)) :
    a.equal true b = true ↔ Equivalent a b :=
  ⟨equivalent_of_equal ha hb, equal_of_equivalent hn ha hb (List.subset_append_left ..)
    (List.subset_append_right ..)⟩

end AnyHash

theorem equivalent_rotated :
    Equivalent (array [number (.unsigned 1), array [bool true, null], string "a"])
      (array [array [null, bool true], string "a", number (.real (.ofInt 1))]) := by
  refine (equal_anyOrder_iff_equivalent ?_ ?_ ?_).1 (by decide)
  · simp [KeysDistinct, ItemsDistinct]
  · simp [KeysDistinct, ItemsDistinct]
  · unfold Number.ComparedAsReals
    decide

end JsonDelta.Document
