import JsonDelta.Proofs.Diff.Progress
import JsonDelta.Proofs.Document.AnyOrder
/-!
Reconstruction. Main statements: replaying a change set on the old document succeeds and gives a
document equal to the new one, in order and in any order.

The last revision is compared with the new document level by level. What stands for an old item is
matched, was compared with a partner, or is nothing; what was added is new itself.
-/

namespace JsonDelta

namespace Document

variable (options : DiffOptions) {items others : List Document}
  {members otherMembers : List (String × Document)} {a b : Document}

/-! Arrays. -/

theorem forall₂_flatMap {ι α β : Type} {r : α → β → Prop} {f : ι → List α} {g : ι → List β}
    {l : List ι} (h : ∀ i ∈ l, List.Forall₂ r (f i) (g i)) :
    List.Forall₂ r (l.flatMap f) (l.flatMap g) := by
  induction l with
  | nil => exact .nil
  | cons i l ih =>
      rw [List.flatMap_cons, List.flatMap_cons]
      refine List.rel_append (h i List.mem_cons_self) (ih fun k hk => ?_)
      exact h k (List.mem_cons_of_mem i hk)

variable [StandardHash]

/-- The last revision, in the order of the alignment, is related item by item to the new items. -/
theorem forall₂_lastRevision {r : Document → Document → Prop} {alignment : Alignment}
    (hcovers : alignment.Covers items.length others.length)
    (hmatched : ∀ i j, (i, j) ∈ alignment.matched →
      ∃ a b, items[i]? = some a ∧ others[j]? = some b ∧ r a b)
    (hcompared : ∀ a ∈ items, ∀ b ∈ others, r (revised options (fun _ => true) a b) b)
    (hadded : ∀ b ∈ others, r b b) :
    List.Forall₂ r
      ((alignment.matched.map Prod.fst ++ alignment.leftovers.map Prod.fst).flatMap
          (currentItem options (fun _ => true) items others alignment.leftovers) ++
        alignment.added.flatMap fun j => others[j]?.toList)
      ((alignment.matched.map Prod.snd ++ (alignment.leftovers.filterMap Prod.snd ++
        alignment.added)).flatMap fun j => others[j]?.toList) := by
  rw [List.flatMap_append, List.flatMap_append, List.flatMap_append, List.append_assoc,
    List.flatMap_map, List.flatMap_map, List.flatMap_map, List.filterMap_eq_flatMap_toList,
    List.flatMap_assoc]
  refine List.rel_append ?_ (List.rel_append ?_ ?_)
  · refine forall₂_flatMap fun m hmem => ?_
    obtain ⟨a, b, ha, hb, hab⟩ := hmatched m.1 m.2 hmem
    rw [currentItem_matched options _ ha (hcovers.lookup_of_mem_matched hmem), hb]
    exact .cons hab .nil
  · refine forall₂_flatMap fun leftover hmem => ?_
    obtain ⟨i, partner⟩ := leftover
    have ha := List.getElem?_eq_getElem (hcovers.lt_of_mem_leftovers hmem)
    have hl := hcovers.lookup_of_mem_leftovers hmem
    cases partner with
    | none =>
        rw [currentItem_removed options _ ha hl]
        exact .nil
    | some j =>
        have hb := List.getElem?_eq_getElem (hcovers.lt_of_partner hmem)
        rw [currentItem_compared options _ ha hb hl]
        simpa [hb] using hcompared _ (List.getElem_mem _) _ (List.getElem_mem _)
  · refine forall₂_flatMap fun j _ => ?_
    cases hb : others[j]? with
    | none => exact .nil
    | some b => exact .cons (hadded b (List.mem_of_getElem? hb)) .nil

theorem equal_revised_array_inOrder (hmode : options.ignoreOrder = false)
    (hcompared : ∀ a ∈ items, ∀ b ∈ others,
      (revised options (fun _ => true) a b).equal false b = true)
    (hadded : ∀ b ∈ others, b.equal false b = true) :
    (revised options (fun _ => true) (array items) (array others)).equal false (array others) =
      true := by
  have hmatched : (Alignment.byIndex items.length others.length).matched = [] := rfl
  have h := forall₂_lastRevision (r := fun a b => a.equal false b = true) options
    (Alignment.covers_byIndex items.length others.length) (by simp [hmatched]) hcompared hadded
  -- No item is matched, so both lists are in order already.
  rw [hmatched, List.map_nil, List.map_nil, List.nil_append, List.nil_append,
    Alignment.map_fst_leftovers_byIndex, Alignment.new_leftovers_byIndex,
    flatMap_range_getElem?] at h
  rw [revised_array, if_pos rfl, DiffOptions.align_inOrder hmode, equal_array_inOrder]
  exact h

theorem equivalent_revised_array_anyOrder (hmode : options.ignoreOrder = true)
    (hmatched : ∀ a ∈ items, ∀ b ∈ others, fits a b = true → Equivalent a b)
    (hcompared : ∀ a ∈ items, ∀ b ∈ others, Equivalent (revised options (fun _ => true) a b) b)
    (hadded : ∀ b ∈ others, Equivalent b b) :
    Equivalent (revised options (fun _ => true) (array items) (array others)) (array others) := by
  have hcovers := Alignment.covers_ofItems items others
  have hequivalent : ∀ i j, (i, j) ∈ (Alignment.ofItems items others).matched →
      ∃ a b, items[i]? = some a ∧ others[j]? = some b ∧ Equivalent a b := by
    intro i j hmem
    obtain ⟨a, b, ha, hb, hab⟩ := Alignment.fits_of_mem_matched hmem
    exact ⟨a, b, ha, hb, hmatched a (List.mem_of_getElem? ha) b (List.mem_of_getElem? hb) hab⟩
  have h := forall₂_lastRevision options hcovers hequivalent hcompared hadded
  -- The order of the alignment is that of neither array, but it permutes both.
  have hold := hcovers.old.flatMap_right
    (currentItem options (fun _ => true) items others (Alignment.ofItems items others).leftovers)
  have hnew := hcovers.new.flatMap_right fun j => others[j]?.toList
  rw [flatMap_range_getElem?] at hnew
  rw [revised_array, if_pos rfl, DiffOptions.align_anyOrder hmode]
  apply Equivalent.array_of_rel
  rw [← Multiset.coe_eq_coe.2 (hold.append_right _), ← Multiset.coe_eq_coe.2 hnew]
  exact Matching.rel_of_forall₂ h

/-! Objects. -/

/-- A member of the last revision has a new key, and its value is new or was compared with the new
one. -/
theorem exists_lookup_of_mem_last (hothers : (otherMembers.map Prod.fst).Nodup)
    {m : String × Document}
    (hm : m ∈ revisedMembers options (fun _ => true) members otherMembers ++
      newMembers members otherMembers) :
    ∃ b, otherMembers.lookup m.1 = some b ∧
      (m.2 = b ∨ ∃ a, (m.1, a) ∈ members ∧ m.2 = revised options (fun _ => true) a b) := by
  rcases List.mem_append.1 hm with hm | hm
  · rw [revisedMembers_eq_flatMap] at hm
    obtain ⟨old, hold, hm⟩ := List.mem_flatMap.1 hm
    rw [revisedMember] at hm
    cases hl : otherMembers.lookup old.1 with
    | none => simp [hl] at hm
    | some b =>
        obtain rfl : m = (old.1, revised options (fun _ => true) old.2 b) := by simpa [hl] using hm
        exact ⟨b, hl, .inr ⟨old.2, hold, rfl⟩⟩
  · have hnew := (List.mem_filter.1 hm).1
    exact ⟨m.2, (Members.lookup_eq_some_iff hothers).2 hnew, .inl rfl⟩

/-- No new key is missing in the last revision. -/
theorem mem_keys_last {key : String} (hkey : key ∈ otherMembers.map Prod.fst) :
    key ∈ (revisedMembers options (fun _ => true) members otherMembers ++
      newMembers members otherMembers).map Prod.fst := by
  obtain ⟨b, hb⟩ := Members.exists_lookup_of_mem_keys hkey
  rw [List.map_append, List.mem_append]
  cases hl : members.lookup key with
  | none =>
      refine .inr (List.mem_map_of_mem (a := (key, b)) (List.mem_filter.2 ⟨?_, ?_⟩))
      · exact Members.mem_of_lookup hb
      · rw [hl, Option.isNone_none]
  | some a =>
      rw [revisedMembers_eq_flatMap]
      refine .inl (List.mem_map.2 ⟨(key, revised options (fun _ => true) a b), ?_, rfl⟩)
      refine List.mem_flatMap.2 ⟨(key, a), Members.mem_of_lookup hl, ?_⟩
      rw [revisedMember, hb]
      exact List.mem_singleton.2 rfl

theorem equal_revised_object (hmembers : (members.map Prod.fst).Nodup)
    (hothers : (otherMembers.map Prod.fst).Nodup)
    (hcompared : ∀ m ∈ members, ∀ o ∈ otherMembers,
      (revised options (fun _ => true) m.2 o.2).equal false o.2 = true)
    (hadded : ∀ o ∈ otherMembers, o.2.equal false o.2 = true) :
    (revised options (fun _ => true) (object members) (object otherMembers)).equal false
      (object otherMembers) = true := by
  rw [revised, if_pos rfl,
    equal_object_iff_keys (nodup_keys_revised options _ hmembers hothers) hothers]
  refine ⟨fun m hm => ?_, fun key hkey => mem_keys_last options hkey⟩
  obtain ⟨b, hl, hvalue⟩ := exists_lookup_of_mem_last options hothers hm
  have hb := Members.mem_of_lookup hl
  refine ⟨b, hl, ?_⟩
  rcases hvalue with rfl | ⟨a, ha, heq⟩
  · exact hadded _ hb
  · exact heq ▸ hcompared _ ha _ hb

theorem equivalent_revised_object (hothers : (otherMembers.map Prod.fst).Nodup)
    (hcompared : ∀ m ∈ members, ∀ o ∈ otherMembers,
      Equivalent (revised options (fun _ => true) m.2 o.2) o.2)
    (hadded : ∀ o ∈ otherMembers, Equivalent o.2 o.2) :
    Equivalent (revised options (fun _ => true) (object members) (object otherMembers))
      (object otherMembers) := by
  rw [revised, if_pos rfl]
  refine .object (fun key => ⟨fun hkey => ?_, mem_keys_last options⟩) fun key c o hc ho => ?_
  · obtain ⟨m, hm, rfl⟩ := List.mem_map.1 hkey
    obtain ⟨b, hl, _⟩ := exists_lookup_of_mem_last options hothers hm
    exact Members.mem_keys_of_lookup hl
  · obtain ⟨b, hl, hvalue⟩ := exists_lookup_of_mem_last options hothers hc
    obtain rfl : b = o := Members.eq_of_mem hothers (Members.mem_of_lookup hl) ho
    rcases hvalue with rfl | ⟨a, ha, heq⟩
    · exact hadded _ ho
    · have hrevised := hcompared _ ha _ ho
      rwa [← heq] at hrevised

/-! The last revision is the new document, up to equality of the mode. -/

theorem equal_revised_inOrder (hmode : options.ignoreOrder = false) (ha : a.KeysDistinct)
    (hb : b.KeysDistinct) : (revised options (fun _ => true) a b).equal false b = true := by
  induction a, b using Document.pairInduction with
  | whole a b h =>
      rw [revised_whole options _ h]
      cases hab : a.equal false b with
      | true => exact hab
      | false => exact equal_inOrder_self b hb
  | array items others ih =>
      rw [keysDistinct_array] at ha hb
      exact equal_revised_array_inOrder options hmode
        (fun a hi b ho => ih a hi b ho (ha a hi) (hb b ho))
        fun b ho => equal_inOrder_self b (hb b ho)
  | object members others ih =>
      rw [keysDistinct_object] at ha hb
      exact equal_revised_object options ha.1 hb.1
        (fun m hm o ho => ih m hm o ho (ha.2 m hm) (hb.2 o ho))
        fun o ho => equal_inOrder_self o.2 (hb.2 o ho)

theorem equivalent_revised_anyOrder (hmode : options.ignoreOrder = true) (ha : a.KeysDistinct)
    (hb : b.KeysDistinct) : Equivalent (revised options (fun _ => true) a b) b := by
  induction a, b using Document.pairInduction with
  | whole a b h =>
      rw [revised_whole options _ h]
      cases hab : a.equal false b with
      | true =>
          rw [← equal_whole true h] at hab
          exact equivalent_of_equal ha hb hab
      | false => exact .refl b hb
  | array items others ih =>
      rw [keysDistinct_array] at ha hb
      exact equivalent_revised_array_anyOrder options hmode
        (fun a hi b ho hab => equivalent_of_equal (ha a hi) (hb b ho) (equal_of_fits hab))
        (fun a hi b ho => ih a hi b ho (ha a hi) (hb b ho)) fun b ho => .refl b (hb b ho)
  | object members others ih =>
      rw [keysDistinct_object] at ha hb
      exact equivalent_revised_object options hb.1
        (fun m hm o ho => ih m hm o ho (ha.2 m hm) (hb.2 o ho)) fun o ho => .refl o.2 (hb.2 o ho)

theorem equal_revised_anyOrder (hmode : options.ignoreOrder = true) (ha : a.KeysDistinct)
    (hb : b.KeysDistinct) (hn : Number.ComparedAsReals (a.numbers ++ b.numbers)) :
    (revised options (fun _ => true) a b).equal true b = true := by
  have hnb := List.subset_append_right a.numbers b.numbers
  obtain ⟨hkeys, hnumbers⟩ := distinctAmong_revised options (fun _ => true)
    ⟨ha, List.subset_append_left a.numbers b.numbers⟩ ⟨hb, hnb⟩
  exact equal_of_equivalent hn hkeys hb hnumbers hnb
    (equivalent_revised_anyOrder options hmode ha hb)

end Document

/-! Replaying a change set. -/

namespace ChangeSet

variable (options : DiffOptions) {old new : Document}

section AnyHash

variable [StandardHash]

theorem replay?_between (schedule : List (Stage × Bool))
    (hschedule : Document.Admissible (fun _ => false) schedule)
    (hall : Document.finished (fun _ => false) schedule = fun _ => true) (ho : old.KeysDistinct)
    (hn : new.KeysDistinct) :
    old.replay? (schedule.flatMap fun step =>
        directed step.2 ((between options old new).edits step.1)) =
      some (Document.revised options (fun _ => true) old new) := by
  have h := Document.effect_schedule options _ hschedule ho hn .root
  rw [Document.revised_none, hall] at h
  simp only [between, edits_ofChanges]
  exact h.replay?_eq

/-- In order: values are replaced, items and members are added, and removals run backwards. -/
theorem replay?_between_inOrder (hmode : options.ignoreOrder = false) (ho : old.KeysDistinct)
    (hn : new.KeysDistinct) :
    let set := between options old new
    ∃ d, old.replay? (set.edits .replaced ++ set.edits .itemAdded ++ set.edits .keyAdded ++
        (set.edits .keyRemoved).reverse ++ (set.edits .itemRemoved).reverse) = some d ∧
      d.equal false new = true := by
  intro set
  let schedule : List (Stage × Bool) := [(.replaced, false), (.itemAdded, false),
    (.keyAdded, false), (.keyRemoved, true), (.itemRemoved, true)]
  have hall : Document.finished (fun _ => false) schedule = fun _ => true := by
    funext stage
    cases stage <;> rfl
  have hreplay := replay?_between options schedule (by decide) hall ho hn
  have hedits : (schedule.flatMap fun step => directed step.2 (set.edits step.1)) =
      set.edits .replaced ++ set.edits .itemAdded ++ set.edits .keyAdded ++
        (set.edits .keyRemoved).reverse ++ (set.edits .itemRemoved).reverse := by
    simp [schedule, directed]
  rw [hedits] at hreplay
  exact ⟨_, hreplay, Document.equal_revised_inOrder options hmode ho hn⟩

end AnyHash

theorem replay?_between_shortened :
    let old := Document.object [("a", .array [.null, .bool true, .string "x"]), ("b", .null)]
    let new := Document.object [("c", .null), ("a", .array [.bool false])]
    let set := between { ignoreOrder := false } old new
    ∃ d, old.replay? (set.edits .replaced ++ set.edits .itemAdded ++ set.edits .keyAdded ++
        (set.edits .keyRemoved).reverse ++ (set.edits .itemRemoved).reverse) = some d ∧
      d.equal false new = true := by
  refine replay?_between_inOrder { ignoreOrder := false } rfl ?_ ?_
  · simp [Document.KeysDistinct, Document.ItemsDistinct, Document.MembersDistinct]
  · simp [Document.KeysDistinct, Document.ItemsDistinct, Document.MembersDistinct]

section AnyHash

variable [StandardHash]

/-- In any order, where numbers are compared as reals: members are removed forwards, items
backwards, and moves are left out. -/
theorem replay?_between_anyOrder (hmode : options.ignoreOrder = true) (ho : old.KeysDistinct)
    (hn : new.KeysDistinct) (hnumbers : Number.ComparedAsReals (old.numbers ++ new.numbers)) :
    let set := between options old new
    ∃ d, old.replay? (set.edits .replaced ++ set.edits .keyAdded ++ set.edits .itemAdded ++
        set.edits .keyRemoved ++ (set.edits .itemRemoved).reverse) = some d ∧
      d.equal true new = true := by
  intro set
  let schedule : List (Stage × Bool) := [(.replaced, false), (.keyAdded, false),
    (.itemAdded, false), (.keyRemoved, false), (.itemRemoved, true)]
  have hall : Document.finished (fun _ => false) schedule = fun _ => true := by
    funext stage
    cases stage <;> rfl
  have hreplay := replay?_between options schedule (by decide) hall ho hn
  have hedits : (schedule.flatMap fun step => directed step.2 (set.edits step.1)) =
      set.edits .replaced ++ set.edits .keyAdded ++ set.edits .itemAdded ++
        set.edits .keyRemoved ++ (set.edits .itemRemoved).reverse := by
    simp [schedule, directed]
  rw [hedits] at hreplay
  exact ⟨_, hreplay, Document.equal_revised_anyOrder options hmode ho hn hnumbers⟩

end AnyHash

/-- A match that moves, a pair, a removal and an addition. -/
theorem replay?_between_rearranged :
    let old := Document.array [.array [.null], .bool true, .number (.unsigned 1)]
    let new := Document.array [.number (.real (.ofInt 1)), .array [.bool false], .string "x"]
    let set := between { reportMoves := true } old new
    ∃ d, old.replay? (set.edits .replaced ++ set.edits .keyAdded ++ set.edits .itemAdded ++
        set.edits .keyRemoved ++ (set.edits .itemRemoved).reverse) = some d ∧
      d.equal true new = true := by
  refine replay?_between_anyOrder { reportMoves := true } rfl ?_ ?_ ?_
  · simp [Document.KeysDistinct, Document.ItemsDistinct]
  · simp [Document.KeysDistinct, Document.ItemsDistinct]
  · unfold Number.ComparedAsReals
    decide

end ChangeSet

end JsonDelta
