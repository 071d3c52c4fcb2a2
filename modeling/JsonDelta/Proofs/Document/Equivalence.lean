import JsonDelta.Proofs.Document.Equality
import JsonDelta.Proofs.Matching
/-!
Equivalence of documents: equality up to the order of members and items, where *some* bijection has
to pair the items of two arrays. It is an equivalence relation on documents with distinct keys whose
numbers are compared as reals.
-/

namespace JsonDelta.Document

inductive Equivalent : Document → Document → Prop
  | null : Equivalent null null
  | bool (b : Bool) : Equivalent (bool b) (bool b)
  | number {m n : Number} (h : m.same n = true) : Equivalent (number m) (number n)
  | string (s : String) : Equivalent (string s) (string s)
  | array {items others : List Document} (σ : Fin items.length ≃ Fin others.length)
      (h : ∀ i, Equivalent (items.get i) (others.get (σ i))) :
      Equivalent (array items) (array others)
  | object {members others : List (String × Document)}
      (keys : ∀ key, key ∈ members.map Prod.fst ↔ key ∈ others.map Prod.fst)
      (values : ∀ key a b, (key, a) ∈ members → (key, b) ∈ others → Equivalent a b) :
      Equivalent (object members) (object others)

namespace Equivalent

theorem array_of_rel {items others : List Document} (h : Multiset.Rel Equivalent items others) :
    Equivalent (.array items) (.array others) :=
  have ⟨σ, hσ⟩ := Matching.exists_equiv_of_rel h
  .array σ hσ

theorem refl (a : Document) (ha : a.KeysDistinct) : Equivalent a a := by
  induction a using Document.induction with
  | scalar d hd =>
      cases d with
      | null => exact .null
      | bool b => exact .bool b
      | number n => exact .number n.same_self
      | string s => exact .string s
      | array _ => cases hd
      | object _ => cases hd
  | array items ih =>
      refine .array (Equiv.refl _) fun i => ?_
      have hi := List.get_mem items i
      exact ih _ hi (keysDistinct_array.1 ha _ hi)
  | object members ih =>
      obtain ⟨hkeys, hvalues⟩ := keysDistinct_object.1 ha
      refine .object (fun _ => .rfl) fun key a b hka hkb => ?_
      obtain rfl : a = b := Members.eq_of_mem hkeys hka hkb
      exact ih _ hka (hvalues _ hka)

theorem symm {a b : Document} (h : Equivalent a b) : Equivalent b a := by
  induction h with
  | null => exact .null
  | bool b => exact .bool b
  | number h => exact .number (Number.same_comm .. ▸ h)
  | string s => exact .string s
  | array σ _ ih =>
      refine .array σ.symm fun j => ?_
      simpa using ih (σ.symm j)
  | object keys _ ih =>
      exact .object (fun key => (keys key).symm) fun key a b hb ha => ih key b a ha hb

/-- Equality of numbers is not transitive in general; the numbers in sight have to be compared as
reals. -/
theorem trans {numbers : List Number} (hn : Number.ComparedAsReals numbers) {a b c : Document}
    (hab : Equivalent a b) (hbc : Equivalent b c) (ha : a.numbers ⊆ numbers)
    (hb : b.numbers ⊆ numbers) (hc : c.numbers ⊆ numbers) : Equivalent a c := by
  induction hab generalizing c with
  | null => exact hbc
  | bool b => exact hbc
  | string s => exact hbc
  | @number m n hmn =>
      cases hbc with
      | @number _ k hnk =>
          have hm := ha (List.mem_singleton.2 rfl)
          have hn' := hb (List.mem_singleton.2 rfl)
          have hk := hc (List.mem_singleton.2 rfl)
          rw [hn m hm n hn'] at hmn
          rw [hn n hn' k hk] at hnk
          exact .number (hn m hm k hk ▸ Binary64.same_trans hmn hnk)
  | @array items others σ _ ih =>
      cases hbc with
      | @array _ thirds τ h =>
          refine .array (σ.trans τ) fun i => ih i (h (σ i)) ?_ ?_ ?_
          · exact List.Subset.trans (numbers_subset_array (List.get_mem items i)) ha
          · exact List.Subset.trans (numbers_subset_array (List.get_mem others (σ i))) hb
          · exact List.Subset.trans (numbers_subset_array (List.get_mem thirds (τ (σ i)))) hc
  | @object members others keys _ ih =>
      cases hbc with
      | @object _ thirds keys' values =>
          refine .object (fun key => (keys key).trans (keys' key)) fun key a c hka hkc => ?_
          obtain ⟨⟨_, b⟩, hkb, rfl⟩ := List.mem_map.1 ((keys key).1 (List.mem_map_of_mem hka))
          refine ih _ a b hka hkb (values _ b c hkb hkc) ?_ ?_ ?_
          · exact List.Subset.trans (numbers_subset_object hka) ha
          · exact List.Subset.trans (numbers_subset_object hkb) hb
          · exact List.Subset.trans (numbers_subset_object hkc) hc

end Equivalent

end JsonDelta.Document
