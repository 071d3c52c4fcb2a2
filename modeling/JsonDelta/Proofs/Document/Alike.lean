import JsonDelta.Proofs.Document.AnyOrder
/-!
Documents that are alike: equal up to the order of members, up to that of items if it is ignored,
and up to a relation between the numbers at corresponding places. Equivalence is one such relation.
-/

namespace JsonDelta.Document

inductive Alike (ignoreOrder : Bool) (r : Number → Number → Prop) : Document → Document → Prop
  | null : Alike ignoreOrder r null null
  | bool (b : Bool) : Alike ignoreOrder r (bool b) (bool b)
  | number {m n : Number} (h : r m n) : Alike ignoreOrder r (number m) (number n)
  | string (s : String) : Alike ignoreOrder r (string s) (string s)
  | array {items others : List Document} (σ : Fin items.length ≃ Fin others.length)
      (inOrder : ignoreOrder = false → ∀ i, (σ i).val = i.val)
      (h : ∀ i, Alike ignoreOrder r (items.get i) (others.get (σ i))) :
      Alike ignoreOrder r (array items) (array others)
  | object {members others : List (String × Document)}
      (keys : ∀ key, key ∈ members.map Prod.fst ↔ key ∈ others.map Prod.fst)
      (values : ∀ key a b, (key, a) ∈ members → (key, b) ∈ others → Alike ignoreOrder r a b) :
      Alike ignoreOrder r (object members) (object others)

namespace Alike

variable {ignoreOrder : Bool} {r s : Number → Number → Prop} {a b : Document}

theorem number_iff {m n : Number} : Alike ignoreOrder r (.number m) (.number n) ↔ r m n :=
  ⟨fun h => by cases h with | number h => exact h, .number⟩

/-- The relation matters for the numbers that occur only. -/
theorem imp (h : Alike ignoreOrder r a b)
    (hrs : ∀ m ∈ a.numbers, ∀ n ∈ b.numbers, r m n → s m n) : Alike ignoreOrder s a b := by
  induction h with
  | null => exact .null
  | bool b => exact .bool b
  | number h => exact .number (hrs _ (List.mem_singleton.2 rfl) _ (List.mem_singleton.2 rfl) h)
  | string s => exact .string s
  | array σ inOrder _ ih =>
      refine .array σ inOrder fun i => ih i fun m hm n hn => hrs m ?_ n ?_
      · exact numbers_subset_array (List.get_mem ..) hm
      · exact numbers_subset_array (List.get_mem ..) hn
  | object keys _ ih =>
      refine .object keys fun key a b hka hkb => ih key a b hka hkb fun m hm n hn => hrs m ?_ n ?_
      · exact numbers_subset_object hka hm
      · exact numbers_subset_object hkb hn

end Alike

theorem Equivalent.alike {a b : Document} (h : Equivalent a b) :
    Alike true (fun m n => m.same n = true) a b := by
  induction h with
  | null => exact .null
  | bool b => exact .bool b
  | number h => exact .number h
  | string s => exact .string s
  | array σ _ ih => exact .array σ nofun ih
  | object keys _ ih => exact .object keys ih

variable [StandardHash]

/-- Scalars have no order. -/
theorem alike_scalar {a b : Document} (hd : a.kind.isContainer = false)
    (h : a.equal true b = true) (ignoreOrder : Bool) :
    Alike ignoreOrder (fun m n => m.same n = true) a b := by
  cases equivalent_scalar hd h with
  | null => exact .null
  | bool b => exact .bool b
  | number h => exact .number h
  | string s => exact .string s
  | array _ _ => cases hd
  | object _ _ => cases hd

end JsonDelta.Document
