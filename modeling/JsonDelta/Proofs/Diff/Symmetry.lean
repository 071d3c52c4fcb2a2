import JsonDelta.Proofs.Diff.Emptiness
import JsonDelta.Proofs.Document.Symmetry
/-!
Whether two documents differ does not depend on which of them is old. The changes do: leftovers are
paired up by a scan through the old ones, and a swap can change how many find a partner. But when
nothing is left over, the scan has paired both sides place by place, and so does the scan from the
other side.
-/

namespace JsonDelta

namespace Alignment

/-! Leftovers from the other side. -/

/-- When no place stays without a partner, pairing up from the other side gives the same pairs. -/
theorem pairUp_swap {partners partners' : Nat → Nat → Bool}
    (hswap : ∀ i j, partners' j i = partners i j) {old new : List Nat}
    (hpaired : ∀ i, (i, none) ∉ (pairUp partners old new).1)
    (hrest : (pairUp partners old new).2 = []) :
    (∀ j partner, (j, partner) ∈ (pairUp partners' new old).1 →
      ∃ i, partner = some i ∧ (i, some j) ∈ (pairUp partners old new).1) ∧
    (pairUp partners' new old).2 = [] := by
  fun_induction pairUp partners old new with
  | case1 new =>
      subst hrest
      simp [pairUp]
  | case2 i old => exact absurd List.mem_cons_self (hpaired i)
  | case3 i old j new hij leftovers rest heq ih =>
      rw [heq] at ih
      obtain ⟨hpairs, hadded⟩ := ih (fun k hk => hpaired k (List.mem_cons_of_mem _ hk)) hrest
      rw [pairUp, hswap, if_pos hij]
      refine ⟨fun l partner hl => ?_, hadded⟩
      rcases List.mem_cons.1 hl with heq | hl
      · cases heq
        exact ⟨i, rfl, List.mem_cons_self⟩
      · obtain ⟨k, hk, hmem⟩ := hpairs l partner hl
        exact ⟨k, hk, List.mem_cons_of_mem _ hmem⟩
  | case4 i old j new _ leftovers rest heq ih => exact absurd List.mem_cons_self (hpaired i)

theorem sameContainer_comm (a b : Document) : sameContainer a b = sameContainer b a := by
  by_cases h : a.kind = b.kind
  · simp [sameContainer, h]
  · simp [sameContainer, h, Ne.symm h]

/-- Whether the items at two places can be partners. -/
def partnersAt (old new : List Document) (i j : Nat) : Bool :=
  match old[i]?, new[j]? with
  | some a, some b => sameContainer a b
  | _, _ => false

theorem partnersAt_swap (old new : List Document) (i j : Nat) :
    partnersAt new old j i = partnersAt old new i j := by
  unfold partnersAt
  cases old[i]? <;> cases new[j]? <;> simp [sameContainer_comm]

variable [StandardHash]

theorem ofItems_eq (old new : List Document) :
    ofItems old new =
      ⟨(Document.matchItems old new).zipIdx.filterMap fun (place, j) => place.map fun i => (i, j),
        (pairUp (partnersAt old new) (unmatchedOld old (Document.matchItems old new))
          (unmatchedNew (Document.matchItems old new))).1,
        (pairUp (partnersAt old new) (unmatchedOld old (Document.matchItems old new))
          (unmatchedNew (Document.matchItems old new))).2⟩ :=
  rfl

theorem leftovers_ofItems (old new : List Document) :
    (ofItems old new).leftovers =
      (pairUp (partnersAt old new) (unmatchedOld old (Document.matchItems old new))
        (unmatchedNew (Document.matchItems old new))).1 := by
  rw [ofItems_eq]

theorem added_ofItems (old new : List Document) :
    (ofItems old new).added =
      (pairUp (partnersAt old new) (unmatchedOld old (Document.matchItems old new))
        (unmatchedNew (Document.matchItems old new))).2 := by
  rw [ofItems_eq]

omit [StandardHash] in
theorem unmatchedNew_eq_filter (places : List (Option Nat)) :
    unmatchedNew places = (List.range places.length).filter fun j => places[j]? = some none := by
  rw [← Matching.snd_zipIdx, ← List.filterMap_eq_filter, List.filterMap_map, unmatchedNew]
  refine List.filterMap_congr fun entry hmem => ?_
  obtain ⟨place, j⟩ := entry
  have hget : places[j]? = some place := List.mem_zipIdx_iff_getElem?.1 hmem
  cases place <;> simp [Option.guard, hget]

variable {old new : List Document}

/-- What one side lacks is what the other side misses. -/
theorem unmatchedOld_swap (ho : (Document.array old).KeysDistinct)
    (hn : (Document.array new).KeysDistinct) :
    unmatchedOld old (Document.matchItems old new) =
      unmatchedNew (Document.matchItems new old) := by
  have hlen : (Document.matchItems new old).length = old.length := by
    simp [Document.matchItems_eq_firstFit]
  rw [unmatchedNew_eq_filter, unmatchedOld, hlen]
  refine List.filter_congr fun i hi => decide_eq_decide.2 ?_
  have hi : i < (Document.matchItems new old).length := hlen ▸ List.mem_range.1 hi
  rw [List.mem_iff_getElem?, not_exists, List.getElem?_eq_getElem hi, Option.some_inj]
  have hswap j := Document.matchItems_swap ho hn i j
  rw [List.getElem?_eq_getElem hi] at hswap
  constructor
  · intro hfree
    refine Option.eq_none_iff_forall_ne_some.2 fun j hj => hfree j ((hswap j).2 ?_)
    rw [hj]
  · intro hnone j hj
    rw [hnone] at hswap
    exact absurd ((hswap j).1 hj) (by simp)

theorem unmoved_swap (ho : (Document.array old).KeysDistinct)
    (hn : (Document.array new).KeysDistinct) (h : (ofItems old new).Unmoved) :
    (ofItems new old).Unmoved := by
  intro j i hji
  rw [mem_matched_ofItems, ← Document.matchItems_swap ho hn, ← mem_matched_ofItems] at hji
  exact (h i j hji).symm

theorem ofItems_swap (ho : (Document.array old).KeysDistinct)
    (hn : (Document.array new).KeysDistinct)
    (hpaired : ∀ i, (i, none) ∉ (ofItems old new).leftovers)
    (hadded : (ofItems old new).added = []) :
    (∀ j partner, (j, partner) ∈ (ofItems new old).leftovers →
      ∃ i, partner = some i ∧ (i, some j) ∈ (ofItems old new).leftovers) ∧
    (ofItems new old).added = [] := by
  rw [leftovers_ofItems] at hpaired
  rw [added_ofItems] at hadded
  rw [leftovers_ofItems new old, added_ofItems, unmatchedOld_swap hn ho, ← unmatchedOld_swap ho hn]
  exact pairUp_swap (partnersAt_swap old new) hpaired hadded

end Alignment

namespace Document

open JsonDelta.Alignment

variable {options : DiffOptions} {a b : Document} {old new : List Document}
  {members others : List (String × Document)} {place place' : Location}

/-! What is empty between arrays and between objects is empty from the other side when this holds of
their children. -/

variable [StandardHash]

theorem leftoversRelated_swap {r s : Nat → Document → Document → Prop}
    (ho : (array old).KeysDistinct) (hn : (array new).KeysDistinct)
    (hrs : ∀ i j, ∀ a ∈ old, ∀ b ∈ new, r i a b → s j b a)
    (h : LeftoversRelated r (options.align old new) old new) :
    LeftoversRelated s (options.align new old) new old := by
  cases hmode : options.ignoreOrder with
  | false =>
      rw [DiffOptions.align_inOrder hmode, leftoversRelated_byIndex_iff] at h ⊢
      refine ⟨h.1.symm, fun i b a hb ha => ?_⟩
      exact hrs i i a (List.mem_of_getElem? ha) b (List.mem_of_getElem? hb) (h.2 i a b ha hb)
  | true =>
      rw [DiffOptions.align_anyOrder hmode] at h ⊢
      obtain ⟨hpartners, hadded⟩ := h
      have hpaired (i : Nat) : (i, none) ∉ (ofItems old new).leftovers := by
        intro hmem
        obtain ⟨j, _, _, hj, _⟩ := hpartners i none hmem
        cases hj
      obtain ⟨hpairs, hrest⟩ := ofItems_swap ho hn hpaired hadded
      refine ⟨fun j partner hj => ?_, hrest⟩
      obtain ⟨i, rfl, hmem⟩ := hpairs j partner hj
      obtain ⟨k, a, b, hk, ha, hb, hr⟩ := hpartners i (some j) hmem
      cases hk
      exact ⟨i, b, a, rfl, hb, ha,
        hrs i j a (List.mem_of_getElem? ha) b (List.mem_of_getElem? hb) hr⟩

theorem changes_swap_array (ho : (array old).KeysDistinct) (hn : (array new).KeysDistinct)
    (hitems : ∀ a ∈ old, ∀ b ∈ new, ∀ place place',
      changes options a b place = [] → changes options b a place' = [])
    (h : changes options (array old) (array new) place = []) :
    changes options (array new) (array old) place' = [] := by
  rw [changes_array_eq_nil_iff] at h ⊢
  refine ⟨fun hreported => ?_, leftoversRelated_swap ho hn (fun i j a ha b hb => ?_) h.2⟩
  · have hunmoved := h.1 hreported
    cases hmode : options.ignoreOrder with
    | false =>
        rw [DiffOptions.align_inOrder hmode]
        exact fun j i hji => nomatch hji
    | true =>
        rw [DiffOptions.align_anyOrder hmode] at hunmoved ⊢
        exact unmoved_swap ho hn hunmoved
  · exact hitems a ha b hb _ _

theorem changes_swap_object (hm : (members.map Prod.fst).Nodup) (ho : (others.map Prod.fst).Nodup)
    (hmembers : ∀ m ∈ members, ∀ o ∈ others, ∀ place place',
      changes options m.2 o.2 place = [] → changes options o.2 m.2 place' = [])
    (h : changes options (object members) (object others) place = []) :
    changes options (object others) (object members) place' = [] := by
  rw [changes_object_eq_nil_iff options ho] at h
  rw [changes_object_eq_nil_iff options hm]
  exact h.swap fun key a b ha hb => hmembers _ ha _ hb _ _

/-- Documents without changes have none from the other side either. -/
theorem changes_eq_nil_comm (options : DiffOptions) (ha : a.KeysDistinct) (hb : b.KeysDistinct)
    (place place' : Location) :
    changes options a b place = [] ↔ changes options b a place' = [] := by
  induction a, b using Document.pairInduction generalizing place place' with
  | whole a b h =>
      have hswapped : b.kind.isContainer = false ∨ b.kind ≠ a.kind := by
        by_cases hkind : a.kind = b.kind
        · rw [← hkind]
          exact .inl (h.resolve_right (not_not_intro hkind))
        · exact .inr (Ne.symm hkind)
      rw [changes_whole options h, changes_whole options hswapped, equal_comm_whole false h]
      split <;> simp
  | array old new ih =>
      have hitems (a) (hi : a ∈ old) (b) (ho : b ∈ new) (place place') :=
        ih a hi b ho (keysDistinct_array.1 ha a hi) (keysDistinct_array.1 hb b ho) place place'
      exact ⟨changes_swap_array ha hb fun a hi b ho place place' =>
          (hitems a hi b ho place place').1,
        changes_swap_array hb ha fun b ho a hi place place' => (hitems a hi b ho place' place).2⟩
  | object members others ih =>
      obtain ⟨hkeys, hvalues⟩ := keysDistinct_object.1 ha
      obtain ⟨hotherKeys, hotherValues⟩ := keysDistinct_object.1 hb
      have hmembers (m) (hm : m ∈ members) (o) (ho : o ∈ others) (place place') :=
        ih m hm o ho (hvalues m hm) (hotherValues o ho) place place'
      exact ⟨changes_swap_object hkeys hotherKeys fun m hm o ho place place' =>
          (hmembers m hm o ho place place').1,
        changes_swap_object hotherKeys hkeys fun o ho m hm place place' =>
          (hmembers m hm o ho place' place).2⟩

end Document

variable [StandardHash]

theorem ChangeSet.isEmpty_between_comm (options : DiffOptions) {a b : Document}
    (ha : a.KeysDistinct) (hb : b.KeysDistinct) :
    (between options a b).isEmpty = (between options b a).isEmpty := by
  rw [Bool.eq_iff_iff, between, between, isEmpty_ofChanges_iff, isEmpty_ofChanges_iff]
  exact Document.changes_eq_nil_comm options ha hb .root .root

end JsonDelta
