import JsonDelta.Proofs.Diff.Replay
import JsonDelta.Proofs.Diff.Walk
/-!
Revisions: what the old document has become when some stages of its changes to the new one are done.
Before the first stage that is the old document. At every stage its keys stay distinct, and it holds
no numbers but those of the two documents.
-/

namespace JsonDelta

namespace Document

theorem flatMap_range_getElem? {α : Type} (l : List α) :
    ((List.range l.length).flatMap fun i => l[i]?.toList) = l := by
  induction l with
  | nil => rfl
  | cons x l ih => simp [List.range_succ_eq_map, List.flatMap_map, ih]

variable (options : DiffOptions) (done : Stage → Bool)

/-- The members that an object gains. -/
def newMembers (members others : List (String × Document)) : List (String × Document) :=
  others.filter fun m => (members.lookup m.1).isNone

theorem keys_newMembers_sublist (members others : List (String × Document)) :
    ((newMembers members others).map Prod.fst).Sublist (others.map Prod.fst) :=
  List.filter_sublist.map Prod.fst

/-- What stands for the old item at an index. -/
def revisedItem (revisions : List (Document → Document)) (items others : List Document)
    (leftovers : List (Nat × Option Nat)) (i : Nat) : List Document :=
  match leftovers.lookup i with
  | none => items[i]?.toList
  | some none => if done .itemRemoved then [] else items[i]?.toList
  | some (some j) =>
    match revisions[i]?, others[j]? with
    | some revise, some other => [revise other]
    | _, _ => []

/-- An item without a match is removed, or compared with a partner. -/
inductive Fate (leftovers : List (Nat × Option Nat)) (others : List Document) (i : Nat) : Prop
  | matched (h : leftovers.lookup i = none)
  | removed (h : leftovers.lookup i = some none)
  | compared {j : Nat} {b : Document} (h : leftovers.lookup i = some (some j))
      (hb : others[j]? = some b)

theorem fate_of_covers {alignment : Alignment} {others : List Document} {n : Nat}
    (h : alignment.Covers n others.length) (i : Nat) : Fate alignment.leftovers others i := by
  cases hl : alignment.leftovers.lookup i with
  | none => exact .matched hl
  | some partner =>
      cases partner with
      | none => exact .removed hl
      | some j =>
          have hj : j < others.length := h.lt_of_partner (Members.mem_of_lookup hl)
          exact .compared hl (List.getElem?_eq_getElem hj)

variable [StandardHash]

mutual

/-- The old document after the given stages of its changes to the new one. -/
def revised : Document → Document → Document
  | object members, object others =>
    object (revisedMembers members others ++
      if done .keyAdded then newMembers members others else [])
  | array items, array others =>
    let alignment := options.align items others
    array ((List.range items.length).flatMap
        (revisedItem done (itemRevisions items) items others alignment.leftovers) ++
      if done .itemAdded then alignment.added.flatMap fun j => others[j]?.toList else [])
  | old, new => if done .replaced && !old.equal false new then new else old

/-- Each item, ready to be revised. -/
def itemRevisions : List Document → List (Document → Document)
  | [] => []
  | item :: rest => revised item :: itemRevisions rest

def revisedMembers : List (String × Document) → List (String × Document) → List (String × Document)
  | [], _ => []
  | (key, value) :: rest, others =>
    (match others.lookup key with
      | some other => [(key, revised value other)]
      | none => if done .keyRemoved then [] else [(key, value)]) ++ revisedMembers rest others

end

theorem itemRevisions_eq_map (items : List Document) :
    itemRevisions options done items = items.map (revised options done) := by
  induction items with
  | nil => rfl
  | cons item rest ih => rw [itemRevisions, ih, List.map_cons]

/-- What stands for the old item at an index, with every item revised alike. -/
def currentItem (items others : List Document) (leftovers : List (Nat × Option Nat)) (i : Nat) :
    List Document :=
  revisedItem done (items.map (revised options done)) items others leftovers i

theorem revised_array (items others : List Document) :
    revised options done (array items) (array others) =
      array ((List.range items.length).flatMap
          (currentItem options done items others (options.align items others).leftovers) ++
        if done .itemAdded then
          (options.align items others).added.flatMap fun j => others[j]?.toList
        else []) := by
  rw [revised, itemRevisions_eq_map]
  rfl

/-- What stands for an old member. -/
def revisedMember (others : List (String × Document)) (m : String × Document) :
    List (String × Document) :=
  match others.lookup m.1 with
  | some other => [(m.1, revised options done m.2 other)]
  | none => if done .keyRemoved then [] else [m]

theorem revisedMembers_eq_flatMap (members others : List (String × Document)) :
    revisedMembers options done members others =
      members.flatMap (revisedMember options done others) := by
  induction members with
  | nil => rw [revisedMembers, List.flatMap_nil]
  | cons m rest ih =>
      rw [revisedMembers, ih, List.flatMap_cons]
      rfl

/-! The fates of old items. -/

variable {items others : List Document} {leftovers : List (Nat × Option Nat)} {i : Nat}
  {a b : Document}

theorem currentItem_matched (ha : items[i]? = some a) (h : leftovers.lookup i = none) :
    currentItem options done items others leftovers i = [a] := by
  simp [currentItem, revisedItem, h, ha]

theorem currentItem_removed (ha : items[i]? = some a) (h : leftovers.lookup i = some none) :
    currentItem options done items others leftovers i =
      if done .itemRemoved then [] else [a] := by
  simp [currentItem, revisedItem, h, ha]

theorem currentItem_compared {j : Nat} (ha : items[i]? = some a) (hb : others[j]? = some b)
    (h : leftovers.lookup i = some (some j)) :
    currentItem options done items others leftovers i =
      [revised options done a b] := by
  simp [currentItem, revisedItem, h, ha, hb]

theorem length_currentItem (hdone : done .itemRemoved = false) (ha : items[i]? = some a)
    (hfate : Fate leftovers others i) :
    (currentItem options done items others leftovers i).length = 1 := by
  cases hfate with
  | matched h => rw [currentItem_matched options done ha h, List.length_singleton]
  | removed h => rw [currentItem_removed options done ha h, hdone]; rfl
  | compared h hb => rw [currentItem_compared options done ha hb h, List.length_singleton]

/-! Keys. -/

/-- The members that stand for old ones have old keys, each at most once. -/
theorem keys_revisedMembers_sublist (members others : List (String × Document)) :
    ((revisedMembers options done members others).map Prod.fst).Sublist
      (members.map Prod.fst) := by
  induction members with
  | nil => rw [revisedMembers]
  | cons m rest ih =>
      obtain ⟨key, value⟩ := m
      rw [revisedMembers, List.map_append, List.map_cons]
      cases others.lookup key with
      | some other => exact ih.cons_cons key
      | none =>
          cases done .keyRemoved with
          | true => exact ih.cons key
          | false => exact ih.cons_cons key

theorem nodup_keys_revised {members others : List (String × Document)}
    (hmembers : (members.map Prod.fst).Nodup) (hothers : (others.map Prod.fst).Nodup) :
    ((revisedMembers options done members others ++ newMembers members others).map
      Prod.fst).Nodup := by
  rw [List.map_append, List.nodup_append]
  refine ⟨(keys_revisedMembers_sublist options done members others).nodup hmembers,
    (keys_newMembers_sublist members others).nodup hothers, ?_⟩
  intro key hkey key' hkey' heq
  subst heq
  have hold := (keys_revisedMembers_sublist options done members others).subset hkey
  obtain ⟨m, hm, rfl⟩ := List.mem_map.1 hkey'
  have hnew := (List.mem_filter.1 hm).2
  rw [Option.isNone_iff_eq_none, Members.lookup_eq_none_iff] at hnew
  exact hnew hold

/-! Scalars, and documents of different kinds, are replaced as a whole. -/

theorem revised_whole (h : a.kind.isContainer = false ∨ a.kind ≠ b.kind) :
    revised options done a b = if done .replaced && !a.equal false b then b else a := by
  cases a with
  | array items => cases b <;> simp_all [revised, kind, Kind.isContainer]
  | object members => cases b <;> simp_all [revised, kind, Kind.isContainer]
  | _ => rw [revised] <;> simp

/-! Where the values of a revision come from. -/

/-- Before the first stage, nothing has changed. -/
theorem revised_none (a b : Document) : revised options (fun _ => false) a b = a := by
  induction a, b using Document.pairInduction with
  | whole a b h =>
      rw [revised_whole options _ h]
      rfl
  | array items others ih =>
      rw [revised_array, if_neg Bool.false_ne_true, List.append_nil]
      refine congrArg array ((List.flatMap_congr fun i hi => ?_).trans
        (flatMap_range_getElem? items))
      have ha := List.getElem?_eq_getElem (List.mem_range.1 hi)
      rw [ha]
      cases fate_of_covers (options.covers_align items others) i with
      | matched h => exact currentItem_matched options _ ha h
      | removed h => exact currentItem_removed options _ ha h
      | compared h hb =>
          rw [currentItem_compared options _ ha hb h,
            ih _ (List.getElem_mem _) _ (List.mem_of_getElem? hb)]
          rfl
  | object members others ih =>
      rw [revised, revisedMembers_eq_flatMap, if_neg Bool.false_ne_true, List.append_nil]
      refine congrArg object ((List.flatMap_congr fun m hm => ?_).trans
        (List.flatMap_singleton' members))
      rw [revisedMember]
      cases hl : others.lookup m.1 with
      | some b =>
          have hvalue := ih m hm _ (Members.mem_of_lookup hl)
          exact congrArg (fun value => [(m.1, value)]) hvalue
      | none => rfl

/-- The items of a revision are old, new or revised. -/
theorem exists_revised_array {P : Document → Prop} (hold : ∀ a ∈ items, P a)
    (hnew : ∀ b ∈ others, P b)
    (hrevised : ∀ a ∈ items, ∀ b ∈ others, P (revised options done a b)) :
    ∃ current, revised options done (array items) (array others) = array current ∧
      ∀ d ∈ current, P d := by
  refine ⟨_, revised_array options done items others, fun d hd => ?_⟩
  rcases List.mem_append.1 hd with hd | hd
  · obtain ⟨i, hi, hd⟩ := List.mem_flatMap.1 hd
    have hi : i < items.length := List.mem_range.1 hi
    have ha := List.getElem?_eq_getElem hi
    cases fate_of_covers (options.covers_align items others) i with
    | matched h =>
        rw [currentItem_matched options done ha h, List.mem_singleton] at hd
        exact hd ▸ hold _ (List.getElem_mem hi)
    | removed h =>
        rw [currentItem_removed options done ha h] at hd
        cases hdone : done .itemRemoved with
        | true => simp [hdone] at hd
        | false =>
            obtain rfl : d = items[i] := by simpa [hdone] using hd
            exact hold _ (List.getElem_mem hi)
    | compared h hb =>
        rw [currentItem_compared options done ha hb h, List.mem_singleton] at hd
        exact hd ▸ hrevised _ (List.getElem_mem hi) _ (List.mem_of_getElem? hb)
  · split at hd
    · obtain ⟨j, _, hd⟩ := List.mem_flatMap.1 hd
      exact hnew d (List.mem_of_getElem? (Option.mem_toList.1 hd))
    · cases hd

/-- The members of a revision are old, new or revised, and their keys are distinct. -/
theorem exists_revised_object {P : Document → Prop} {members others : List (String × Document)}
    (hmembers : (members.map Prod.fst).Nodup) (hothers : (others.map Prod.fst).Nodup)
    (hold : ∀ m ∈ members, P m.2) (hnew : ∀ m ∈ others, P m.2)
    (hrevised : ∀ m ∈ members, ∀ o ∈ others, P (revised options done m.2 o.2)) :
    ∃ current, revised options done (object members) (object others) = object current ∧
      (current.map Prod.fst).Nodup ∧ ∀ m ∈ current, P m.2 := by
  rw [revised]
  refine ⟨_, rfl, ?_, fun m hm => ?_⟩
  · refine List.Sublist.nodup ?_ (nodup_keys_revised options done hmembers hothers)
    refine List.Sublist.map _ (List.Sublist.append_left ?_ _)
    cases done .keyAdded <;> simp
  · rcases List.mem_append.1 hm with hm | hm
    · rw [revisedMembers_eq_flatMap] at hm
      obtain ⟨old, hmem, hm⟩ := List.mem_flatMap.1 hm
      rw [revisedMember] at hm
      cases hl : others.lookup old.1 with
      | some b =>
          obtain rfl : m = (old.1, revised options done old.2 b) := by simpa [hl] using hm
          exact hrevised old hmem _ (Members.mem_of_lookup hl)
      | none =>
          cases hdone : done .keyRemoved with
          | true => simp [hl, hdone] at hm
          | false =>
              obtain rfl : m = old := by simpa [hl, hdone] using hm
              exact hold m hmem
    · split at hm
      · exact hnew m (List.mem_filter.1 hm).1
      · cases hm

theorem distinctAmong_revised {numbers : List Number} (ha : DistinctAmong numbers a)
    (hb : DistinctAmong numbers b) : DistinctAmong numbers (revised options done a b) := by
  induction a, b using Document.pairInduction with
  | whole a b h =>
      rw [revised_whole options done h]
      split
      · exact hb
      · exact ha
  | array items others ih =>
      rw [distinctAmong_array] at ha hb
      obtain ⟨current, heq, hcurrent⟩ := exists_revised_array options done ha hb
        fun a hi b ho => ih a hi b ho (ha a hi) (hb b ho)
      rw [heq]
      exact distinctAmong_array.2 hcurrent
  | object members others ih =>
      rw [distinctAmong_object] at ha hb
      obtain ⟨current, heq, hcurrent⟩ := exists_revised_object options done ha.1 hb.1 ha.2 hb.2
        fun m hm o ho => ih m hm o ho (ha.2 m hm) (hb.2 o ho)
      rw [heq]
      exact distinctAmong_object.2 hcurrent

end Document

end JsonDelta
