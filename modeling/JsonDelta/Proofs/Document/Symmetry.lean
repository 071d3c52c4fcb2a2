import JsonDelta.Proofs.Document.Equality
import JsonDelta.Proofs.Matching.Stable
/-!
Structural equality is symmetric, and matching is inverted when the two arrays change places. Main
statement: both hold in all documents with distinct keys. Equality of numbers need not be transitive
for this: first fit is symmetric by itself.
-/

namespace JsonDelta.Document

variable {a b : Document} {items others : List Document}
  {members otherMembers : List (String × Document)}

section AnyHash

variable [StandardHash]

theorem equal_comm_whole (ignoreOrder : Bool) (h : a.kind.isContainer = false ∨ a.kind ≠ b.kind) :
    a.equal ignoreOrder b = b.equal ignoreOrder a := by
  by_cases hkind : a.kind = b.kind
  · cases a <;> cases b <;>
      simp_all [kind, Kind.isContainer, equal, Number.same_comm, Bool.beq_comm, eq_comm]
  · rw [equal_of_kind_ne hkind, equal_of_kind_ne (Ne.symm hkind)]

theorem fits_comm_of_equal_comm (h : a.equal true b = b.equal true a) : fits a b = fits b a := by
  rw [fits, fits, h, Bool.beq_comm]

/-! Equality carries over to the other side when it does so for the children. -/

theorem equal_swap_inOrder (h : ∀ a ∈ items, ∀ b ∈ others, a.equal false b = b.equal false a)
    (heq : (array items).equal false (array others) = true) :
    (array others).equal false (array items) = true := by
  rw [equal_array_inOrder, List.forall₂_iff_get] at heq ⊢
  obtain ⟨hlen, hall⟩ := heq
  refine ⟨hlen.symm, fun i hother hitem => ?_⟩
  rw [← h _ (List.get_mem ..) _ (List.get_mem ..)]
  exact hall i hitem hother

theorem equal_swap_anyOrder (h : ∀ a ∈ items, ∀ b ∈ others, a.equal true b = b.equal true a)
    (heq : (array items).equal true (array others) = true) :
    (array others).equal true (array items) = true := by
  rw [equal_array_anyOrder, matchItems_eq_firstFit] at heq ⊢
  obtain ⟨hlen, hall⟩ := heq
  refine ⟨hlen.symm, Matching.isSome_of_mem_firstFit_swap (fun a ha b hb => ?_) hlen hall⟩
  exact fits_comm_of_equal_comm (h a ha b hb)

theorem equal_swap_object {ignoreOrder : Bool} (hkeys : (members.map Prod.fst).Nodup)
    (hotherKeys : (otherMembers.map Prod.fst).Nodup)
    (h : ∀ m ∈ members, ∀ o ∈ otherMembers,
      m.2.equal ignoreOrder o.2 = o.2.equal ignoreOrder m.2)
    (heq : (object members).equal ignoreOrder (object otherMembers) = true) :
    (object otherMembers).equal ignoreOrder (object members) = true := by
  have hperm := keys_perm_of_equal hkeys heq
  obtain ⟨hlen, hvalues⟩ := equal_object.1 heq
  refine equal_object.2 ⟨hlen.symm, fun o ho => ?_⟩
  obtain ⟨a, ha⟩ := Members.exists_lookup_of_mem_keys
    (hperm.mem_iff.2 (List.mem_map_of_mem (f := Prod.fst) ho))
  have hmem := Members.mem_of_lookup ha
  obtain ⟨other, hother, hab⟩ := hvalues _ hmem
  -- Keys are distinct, so the value found under the key is that of `o`.
  obtain rfl : o.2 = other := Members.eq_of_mem hotherKeys ho (Members.mem_of_lookup hother)
  exact ⟨a, ha, (h _ hmem o ho).symm.trans hab⟩

/-- Which of two documents comes first does not matter. -/
theorem equal_comm (ha : a.KeysDistinct) (hb : b.KeysDistinct) (ignoreOrder : Bool) :
    a.equal ignoreOrder b = b.equal ignoreOrder a := by
  induction a, b using Document.pairInduction with
  | whole a b h => exact equal_comm_whole ignoreOrder h
  | array items others ih =>
      rw [keysDistinct_array] at ha hb
      have hitems (a) (hi : a ∈ items) (b) (ho : b ∈ others) := ih a hi b ho (ha a hi) (hb b ho)
      have hothers (b) (ho : b ∈ others) (a) (hi : a ∈ items) := (hitems a hi b ho).symm
      rw [Bool.eq_iff_iff]
      cases ignoreOrder with
      | false => exact ⟨equal_swap_inOrder hitems, equal_swap_inOrder hothers⟩
      | true => exact ⟨equal_swap_anyOrder hitems, equal_swap_anyOrder hothers⟩
  | object members others ih =>
      obtain ⟨hkeys, hvalues⟩ := keysDistinct_object.1 ha
      obtain ⟨hotherKeys, hotherValues⟩ := keysDistinct_object.1 hb
      have hmembers (m) (hm : m ∈ members) (o) (ho : o ∈ others) :=
        ih m hm o ho (hvalues m hm) (hotherValues o ho)
      rw [Bool.eq_iff_iff]
      exact ⟨equal_swap_object hkeys hotherKeys hmembers,
        equal_swap_object hotherKeys hkeys fun o ho m hm => (hmembers m hm o ho).symm⟩

theorem fits_comm (ha : a.KeysDistinct) (hb : b.KeysDistinct) : fits a b = fits b a :=
  fits_comm_of_equal_comm (equal_comm ha hb true)

/-- Swapping the arrays swaps the places in every match. -/
theorem matchItems_swap (hitems : (array items).KeysDistinct)
    (hothers : (array others).KeysDistinct) (i j : Nat) :
    (matchItems items others)[j]? = some (some i) ↔
      (matchItems others items)[i]? = some (some j) := by
  rw [keysDistinct_array] at hitems hothers
  rw [matchItems_eq_firstFit, matchItems_eq_firstFit]
  exact Matching.firstFit_swap (fun a ha b hb => fits_comm (hitems a ha) (hothers b hb)) i j

/-- Equality and matching look the same from both sides. -/
theorem equal_comm_and_matchItems_swap :
    (∀ (ignoreOrder : Bool) (a b : Document), a.KeysDistinct → b.KeysDistinct →
      a.equal ignoreOrder b = b.equal ignoreOrder a) ∧
    ∀ items others : List Document, (array items).KeysDistinct → (array others).KeysDistinct →
      ∀ i j : Nat, (matchItems items others)[j]? = some (some i) ↔
        (matchItems others items)[i]? = some (some j) :=
  ⟨fun ignoreOrder _ _ ha hb => equal_comm ha hb ignoreOrder,
    fun _ _ hitems hothers => matchItems_swap hitems hothers⟩

end AnyHash

/-- Two integers that equal one real: the real is matched with the one that comes first. -/
theorem equal_comm_and_matchItems_swap_rounded :
    let small := number (.unsigned 9007199254740992)
    let large := number (.unsigned 9007199254740993)
    let between := number (.real (.ofInt 9007199254740992))
    (array [between, large, small]).equal true (array [small, between, large]) =
        (array [small, between, large]).equal true (array [between, large, small]) ∧
      ((matchItems [between, large, small] [small, between, large])[1]? = some (some 1) ↔
        (matchItems [small, between, large] [between, large, small])[1]? = some (some 1)) ∧
      matchItems [between, large, small] [small, between, large] = [some 0, some 1, none] := by
  intro small large between
  have hkeys : (array [between, large, small]).KeysDistinct := by
    simp [KeysDistinct, ItemsDistinct, small, large, between]
  have hotherKeys : (array [small, between, large]).KeysDistinct := by
    simp [KeysDistinct, ItemsDistinct, small, large, between]
  exact ⟨equal_comm_and_matchItems_swap.1 true _ _ hkeys hotherKeys,
    equal_comm_and_matchItems_swap.2 _ _ hkeys hotherKeys 1 1, by decide⟩

end JsonDelta.Document
