import JsonDelta.Proofs.Document.AnyOrder
import JsonDelta.Proofs.Document.Symmetry
/-!
Rearranging a document: its items and members change places, at any depth. Main statement: as long
as equality is transitive among its numbers, a rearranged document is equal to the original in any
order. Equality is not transitive when a real equals two different integers, and then first fit can
give the real to the wrong one of them.
-/

namespace JsonDelta

/-- Equality is transitive among the numbers. -/
def Number.SameTransitive (numbers : List Number) : Prop :=
  ∀ m ∈ numbers, ∀ n ∈ numbers, ∀ k ∈ numbers,
    m.same n = true → n.same k = true → m.same k = true

namespace Document

/-- The second document is the first one with items of arrays and members of objects permuted. -/
inductive Rearranged : Document → Document → Prop
  | refl (a : Document) : Rearranged a a
  | trans {a b c : Document} (hab : Rearranged a b) (hbc : Rearranged b c) : Rearranged a c
  | items {items others : List Document} (h : items.Perm others) :
      Rearranged (array items) (array others)
  | members {members others : List (String × Document)} (h : members.Perm others) :
      Rearranged (object members) (object others)
  | item (before after : List Document) {a b : Document} (h : Rearranged a b) :
      Rearranged (array (before ++ a :: after)) (array (before ++ b :: after))
  | member (before after : List (String × Document)) (key : String) {a b : Document}
      (h : Rearranged a b) :
      Rearranged (object (before ++ (key, a) :: after)) (object (before ++ (key, b) :: after))

theorem Rearranged.distinctAmong {numbers : List Number} {a b : Document} (h : Rearranged a b)
    (ha : DistinctAmong numbers a) : DistinctAmong numbers b := by
  induction h with
  | refl a => exact ha
  | trans _ _ ihab ihbc => exact ihbc (ihab ha)
  | items hperm =>
      rw [distinctAmong_array] at ha ⊢
      exact fun b hb => ha b (hperm.mem_iff.2 hb)
  | members hperm =>
      rw [distinctAmong_object] at ha ⊢
      exact ⟨(hperm.map Prod.fst).nodup_iff.1 ha.1, fun m hm => ha.2 m (hperm.mem_iff.2 hm)⟩
  | item before after _ ih =>
      simp only [distinctAmong_array, List.forall_mem_append, List.forall_mem_cons] at ha ⊢
      exact ⟨ha.1, ih ha.2.1, ha.2.2⟩
  | member before after key _ ih =>
      simp only [distinctAmong_object, List.forall_mem_append, List.forall_mem_cons,
        List.map_append, List.map_cons] at ha ⊢
      exact ⟨ha.1, ha.2.1, ih ha.2.2.1, ha.2.2.2⟩

variable [StandardHash]

/-- A document equals itself in any order, whatever its numbers. -/
theorem equal_anyOrder_self (a : Document) (ha : a.KeysDistinct) : a.equal true a = true := by
  induction a using Document.induction with
  | scalar d hd =>
      rw [equal_scalar true hd]
      exact equal_inOrder_self d ha
  | array items ih =>
      rw [keysDistinct_array] at ha
      refine equal_array_of_forall₂_fits (List.forall₂_same.2 fun a hi => ?_)
      exact fits_of_equal rfl (ih a hi (ha a hi))
  | object members ih =>
      obtain ⟨hkeys, hvalues⟩ := keysDistinct_object.1 ha
      exact equal_object_self hkeys fun m hm => ih m hm (hvalues m hm)

theorem fits_self {a : Document} (ha : a.KeysDistinct) : fits a a = true :=
  fits_of_equal rfl (equal_anyOrder_self a ha)

/-! Transitivity. -/

section Transitivity

variable {numbers : List Number} {a b c : Document} {items others thirds : List Document}
  {members otherMembers : List (String × Document)}

/-- What equals a document also equals what that one equals. -/
def Transits (numbers : List Number) (a : Document) : Prop :=
  ∀ b c, DistinctAmong numbers b → DistinctAmong numbers c →
    a.equal true b = true → b.equal true c = true → a.equal true c = true

theorem Transits.fits_trans (h : Transits numbers a) (hb : DistinctAmong numbers b)
    (hc : DistinctAmong numbers c) (hab : fits a b = true) (hbc : fits b c = true) :
    fits a c = true := by
  rw [fits, Bool.and_eq_true, beq_iff_eq] at *
  exact ⟨hab.1.trans hbc.1, h b c hb hc hab.2 hbc.2⟩

theorem rectangular_fits (hitems : ∀ a ∈ items, Transits numbers a ∧ DistinctAmong numbers a) :
    Matching.Rectangular fun a b => a ∈ items ∧ DistinctAmong numbers b ∧ fits a b = true := by
  rintro a a' b b' ⟨ha, hb, hab⟩ ⟨ha', -, ha'b⟩ ⟨-, hb', ha'b'⟩
  obtain ⟨htransits, -⟩ := hitems a ha
  obtain ⟨-, hdistinct⟩ := hitems a' ha'
  rw [fits_comm hdistinct.1 hb.1] at ha'b
  have haa' := htransits.fits_trans hb hdistinct hab ha'b
  exact ⟨ha, hb', htransits.fits_trans hdistinct hb' haa' ha'b'⟩

/-- Arrays whose items can be paired are equal in any order. -/
theorem equal_array_of_rel (hitems : ∀ a ∈ items, Transits numbers a ∧ DistinctAmong numbers a)
    (hothers : ∀ b ∈ others, DistinctAmong numbers b)
    (h : Multiset.Rel (fun a b => fits a b = true) items others) :
    (array items).equal true (array others) = true := by
  refine equal_array_anyOrder.2 ⟨Multiset.card_eq_card_of_rel h, ?_⟩
  rw [matchItems_eq_firstFit]
  refine Matching.isSome_of_mem_firstFit (rectangular_fits hitems) (fun a ha b hb => ?_)
    (h.mono fun a ha b hb hab => ⟨ha, hothers b hb, hab⟩)
  exact ⟨fun hab => ⟨ha, hothers b hb, hab⟩, fun hab => hab.2.2⟩

theorem transits_scalar (hn : Number.SameTransitive numbers) (hd : a.kind.isContainer = false)
    (ha : DistinctAmong numbers a) : Transits numbers a := by
  intro b c hb hc hab hbc
  cases equivalent_scalar hd hab with
  | @number m n hmn =>
      cases equivalent_scalar rfl hbc with
      | @number _ k hnk =>
          have hm := ha.2 (List.mem_singleton.2 rfl)
          have hn' := hb.2 (List.mem_singleton.2 rfl)
          have hk := hc.2 (List.mem_singleton.2 rfl)
          rw [equal]
          exact hn m hm n hn' k hk hmn hnk
  | array _ _ => cases hd
  | object _ _ => cases hd
  | _ => exact hbc

theorem transits_array (hitems : ∀ a ∈ items, Transits numbers a ∧ DistinctAmong numbers a) :
    Transits numbers (array items) := by
  intro b c hb hc hab hbc
  cases b with
  | array others =>
      cases c with
      | array thirds =>
          rw [distinctAmong_array] at hb hc
          obtain ⟨σ, hσ⟩ := Matching.exists_equiv_of_rel (rel_of_equal_array hab)
          obtain ⟨τ, hτ⟩ := Matching.exists_equiv_of_rel (rel_of_equal_array hbc)
          refine equal_array_of_rel hitems hc (Matching.rel_of_equiv (σ.trans τ) fun i => ?_)
          exact (hitems _ (List.get_mem ..)).1.fits_trans (hb _ (List.get_mem ..))
            (hc _ (List.get_mem ..)) (hσ i) (hτ (σ i))
      | _ => simp [equal] at hbc
  | _ => simp [equal] at hab

theorem transits_object (hmembers : ∀ m ∈ members, Transits numbers m.2) :
    Transits numbers (object members) := by
  intro b c hb hc hab hbc
  cases b with
  | object others =>
      cases c with
      | object thirds =>
          rw [distinctAmong_object] at hb hc
          rw [equal_object] at hab hbc ⊢
          refine ⟨hab.1.trans hbc.1, fun m hm => ?_⟩
          obtain ⟨other, hother, hmo⟩ := hab.2 m hm
          have hmemOther := Members.mem_of_lookup hother
          obtain ⟨third, hthird, hot⟩ := hbc.2 _ hmemOther
          have hmemThird := Members.mem_of_lookup hthird
          exact ⟨third, hthird,
            hmembers m hm other third (hb.2 _ hmemOther) (hc.2 _ hmemThird) hmo hot⟩
      | _ => simp [equal] at hbc
  | _ => simp [equal] at hab

/-- Equality in any order is as transitive as equality of numbers. -/
theorem transits (hn : Number.SameTransitive numbers) (ha : DistinctAmong numbers a) :
    Transits numbers a := by
  induction a using Document.induction with
  | scalar a hd => exact transits_scalar hn hd ha
  | array items ih =>
      rw [distinctAmong_array] at ha
      exact transits_array fun a hi => ⟨ih a hi (ha a hi), ha a hi⟩
  | object members ih =>
      rw [distinctAmong_object] at ha
      exact transits_object fun m hm => ih m hm (ha.2 m hm)

theorem fits_array_of_rel (hn : Number.SameTransitive numbers)
    (hitems : ∀ a ∈ items, DistinctAmong numbers a)
    (hothers : ∀ b ∈ others, DistinctAmong numbers b)
    (h : Multiset.Rel (fun a b => fits a b = true) items others) :
    fits (array items) (array others) = true := by
  have hhashes : (items.map (hash true)).Perm (others.map (hash true)) := by
    rw [← Multiset.coe_eq_coe, ← Multiset.map_coe, ← Multiset.map_coe, ← Multiset.rel_eq,
      Multiset.rel_map]
    refine h.mono fun a _ b _ hab => ?_
    rw [fits, Bool.and_eq_true, beq_iff_eq] at hab
    exact hab.1
  have hequal := equal_array_of_rel (fun a hi => ⟨transits hn (hitems a hi), hitems a hi⟩) hothers h
  refine fits_of_equal ?_ hequal
  rw [hash_array_anyOrder, hash_array_anyOrder, StandardHash.mixedSum_eq_of_perm hhashes]

/-- Objects with the same keys fit when the values of each key do. -/
theorem fits_object (hkeys : (members.map Prod.fst).Nodup)
    (hperm : (members.map Prod.fst).Perm (otherMembers.map Prod.fst))
    (h : ∀ key a b, (key, a) ∈ members → (key, b) ∈ otherMembers → fits a b = true) :
    fits (object members) (object otherMembers) = true := by
  have hhashes := memberHashes_perm hkeys hperm fun key a b ha hb =>
    beq_iff_eq.1 (Bool.and_eq_true_iff.1 (h key a b ha hb)).1
  refine fits_of_equal ?_ (equal_object.2 ⟨by simpa using hperm.length_eq, fun m hm => ?_⟩)
  · rw [hash_object, hash_object, StandardHash.mixedSum_eq_of_perm hhashes]
  · obtain ⟨other, hl⟩ :=
      Members.exists_lookup_of_mem_keys (hperm.subset (List.mem_map_of_mem hm))
    exact ⟨other, hl, equal_of_fits (h m.1 m.2 other hm (Members.mem_of_lookup hl))⟩

end Transitivity

/-! Rearranging. -/

namespace Rearranged

variable {numbers : List Number} {a b : Document}

/-- As long as equality of numbers is transitive, first fit sees through every rearrangement. -/
theorem fits (hn : Number.SameTransitive numbers) (h : Rearranged a b)
    (ha : DistinctAmong numbers a) : fits a b = true := by
  induction h with
  | refl a => exact fits_self ha.1
  | trans hab hbc ihab ihbc =>
      have hb := hab.distinctAmong ha
      exact (transits hn ha).fits_trans hb (hbc.distinctAmong hb) (ihab ha) (ihbc hb)
  | @items items others hperm =>
      have hothers := distinctAmong_array.1 ((Rearranged.items hperm).distinctAmong ha)
      rw [distinctAmong_array] at ha
      refine fits_array_of_rel hn ha hothers ?_
      rw [← Multiset.coe_eq_coe.2 hperm]
      exact Multiset.rel_refl_of_refl_on fun a hi => fits_self (ha a hi).1
  | @members members others hperm =>
      obtain ⟨hkeys, hvalues⟩ := distinctAmong_object.1 ha
      refine fits_object hkeys (hperm.map Prod.fst) fun key a b hka hkb => ?_
      obtain rfl : a = b := Members.eq_of_mem hkeys hka (hperm.mem_iff.2 hkb)
      exact fits_self (hvalues _ hka).1
  | @item before after a b h ih =>
      have hothers := distinctAmong_array.1 ((Rearranged.item before after h).distinctAmong ha)
      rw [distinctAmong_array] at ha
      have hself {d} (hd : d ∈ before ++ a :: after) := fits_self (ha d hd).1
      refine fits_array_of_rel hn ha hothers (Matching.rel_of_forall₂ (List.rel_append ?_ ?_))
      · exact List.forall₂_same.2 fun d hd => hself (List.mem_append_left _ hd)
      · refine .cons (ih (ha a (by simp))) (List.forall₂_same.2 fun d hd => hself ?_)
        exact List.mem_append_right _ (List.mem_cons_of_mem a hd)
  | @member before after key a b h ih =>
      obtain ⟨hkeys, hvalues⟩ := distinctAmong_object.1 ha
      refine fits_object hkeys (by simp) fun other c d hc hd => ?_
      by_cases hkey : other = key
      · subst hkey
        obtain rfl : c = a := Members.eq_of_mem hkeys hc (by simp)
        obtain rfl : d = b := Members.eq_of_mem (by simpa using hkeys) hd (by simp)
        exact ih (hvalues _ hc)
      · have hold : (other, d) ∈ before ++ (key, a) :: after := by
          simpa [hkey] using hd
        obtain rfl : c = d := Members.eq_of_mem hkeys hc hold
        exact fits_self (hvalues _ hc).1

end Rearranged

end Document

end JsonDelta
