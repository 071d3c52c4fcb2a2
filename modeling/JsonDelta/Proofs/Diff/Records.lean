import JsonDelta.Diff.ChangeSet
import JsonDelta.Proofs.Diff.Walk
/-!
What the walk records. `Recorded options a b place change` holds when the change is recorded at the
place itself, or by the comparison of two children. Main statement: these are exactly the changes of
the walk, so facts about every change follow by induction on the way to it.
-/

namespace JsonDelta

namespace Document

variable {options : DiffOptions}

section Entries

variable {place : Location} {change : Change} {others : List Document}
  {members otherMembers : List (String × Document)} {i j : Nat}

/-! What is recorded for one match, one new item and the new members. -/

theorem mem_moves_iff :
    change ∈ moves options others place (i, j) ↔
      ∃ b, options.reportMoves = true ∧ i ≠ j ∧ others[j]? = some b ∧
        change = .itemMoved place i j b := by
  rw [moves]
  split
  · rename_i h
    simp [h, eq_comm]
  · rename_i h
    simp only [List.not_mem_nil, false_iff]
    rintro ⟨b, hmoves, hne, -⟩
    exact h ⟨hmoves, hne⟩

theorem mem_addedItems_iff :
    change ∈ addedItems others place j ↔
      ∃ b, others[j]? = some b ∧ change = .itemAdded (place.index j) b := by
  simp [addedItems, eq_comm]

theorem mem_addedMembers_iff :
    change ∈ addedMembers members otherMembers place ↔
      ∃ key b, members.lookup key = none ∧ (key, b) ∈ otherMembers ∧
        change = .keyAdded (place.key key) b := by
  simp only [addedMembers, List.mem_map, List.mem_filter, Option.isNone_iff_eq_none, Prod.exists]
  refine exists₂_congr fun key b => ?_
  rw [and_comm (a := (key, b) ∈ otherMembers), and_assoc, eq_comm (b := change)]

end Entries

variable [StandardHash]

inductive Recorded (options : DiffOptions) : Document → Document → Location → Change → Prop
  | valueChanged {a b : Document} {place : Location}
      (hwhole : a.kind.isContainer = false ∨ a.kind ≠ b.kind) (hne : a.equal false b = false) :
      Recorded options a b place (.valueChanged place a b)
  | keyRemoved {members others : List (String × Document)} {place : Location} {key : String}
      {a : Document} (ha : (key, a) ∈ members) (hb : others.lookup key = none) :
      Recorded options (object members) (object others) place (.keyRemoved (place.key key) a)
  | keyAdded {members others : List (String × Document)} {place : Location} {key : String}
      {b : Document} (ha : members.lookup key = none) (hb : (key, b) ∈ others) :
      Recorded options (object members) (object others) place (.keyAdded (place.key key) b)
  | member {members others : List (String × Document)} {place : Location} {key : String}
      {a b : Document} {change : Change} (ha : (key, a) ∈ members)
      (hb : others.lookup key = some b) (h : Recorded options a b (place.key key) change) :
      Recorded options (object members) (object others) place change
  | itemRemoved {items others : List Document} {place : Location} {i : Nat} {a : Document}
      (hi : (i, none) ∈ (options.align items others).leftovers) (ha : items[i]? = some a) :
      Recorded options (array items) (array others) place (.itemRemoved (place.index i) a)
  | itemAdded {items others : List Document} {place : Location} {j : Nat} {b : Document}
      (hj : j ∈ (options.align items others).added) (hb : others[j]? = some b) :
      Recorded options (array items) (array others) place (.itemAdded (place.index j) b)
  | itemMoved {items others : List Document} {place : Location} {i j : Nat} {b : Document}
      (hmoves : options.reportMoves = true) (hij : (i, j) ∈ (options.align items others).matched)
      (hne : i ≠ j) (hb : others[j]? = some b) :
      Recorded options (array items) (array others) place (.itemMoved place i j b)
  | partner {items others : List Document} {place : Location} {i j : Nat} {a b : Document}
      {change : Change} (hij : (i, some j) ∈ (options.align items others).leftovers)
      (ha : items[i]? = some a) (hb : others[j]? = some b)
      (h : Recorded options a b (place.index i) change) :
      Recorded options (array items) (array others) place change

section Steps

variable {place : Location} {change : Change} {items others : List Document}
  {members otherMembers : List (String × Document)} {i j : Nat}

/-! What is recorded for one leftover and one member. -/

theorem mem_leftoverChanges_none_iff :
    change ∈ leftoverChanges (items.map (changes options)) items others place (i, none) ↔
      ∃ a, items[i]? = some a ∧ change = .itemRemoved (place.index i) a := by
  simp [leftoverChanges, eq_comm]

theorem mem_leftoverChanges_some_iff :
    change ∈ leftoverChanges (items.map (changes options)) items others place (i, some j) ↔
      ∃ a b, items[i]? = some a ∧ others[j]? = some b ∧
        change ∈ changes options a b (place.index i) := by
  rw [leftoverChanges, List.getElem?_map]
  cases items[i]? <;> cases others[j]? <;> simp

theorem mem_memberChanges_iff :
    change ∈ memberChanges options members otherMembers place ↔
      ∃ key a, (key, a) ∈ members ∧
        ((otherMembers.lookup key = none ∧ change = .keyRemoved (place.key key) a) ∨
          ∃ b, otherMembers.lookup key = some b ∧
            change ∈ changes options a b (place.key key)) := by
  rw [memberChanges_eq_flatMap, List.mem_flatMap, Prod.exists]
  refine exists₂_congr fun key a => and_congr_right fun _ => ?_
  rw [memberChange]
  cases otherMembers.lookup key <;> simp

end Steps

/-! The whole walk. -/

variable {a b : Document} {place : Location} {change : Change}

theorem recorded_of_mem_changes (h : change ∈ changes options a b place) :
    Recorded options a b place change := by
  induction a, b using Document.pairInduction generalizing place with
  | whole a b hwhole =>
      rw [changes_whole options hwhole] at h
      cases hab : a.equal false b with
      | true => simp [hab] at h
      | false =>
          obtain rfl : change = .valueChanged place a b := by simpa [hab] using h
          exact .valueChanged hwhole hab
  | array items others ih =>
      rw [changes_array_align, List.mem_append, List.mem_append, List.mem_flatMap, List.mem_flatMap,
        List.mem_flatMap] at h
      rcases h with ⟨⟨i, j⟩, hij, h⟩ | ⟨⟨i, partner⟩, hi, h⟩ | ⟨j, hj, h⟩
      · obtain ⟨b, hmoves, hne, hb, rfl⟩ := mem_moves_iff.1 h
        exact .itemMoved hmoves hij hne hb
      · cases partner with
        | none =>
            obtain ⟨a, ha, rfl⟩ := mem_leftoverChanges_none_iff.1 h
            exact .itemRemoved hi ha
        | some j =>
            obtain ⟨a, b, ha, hb, h⟩ := mem_leftoverChanges_some_iff.1 h
            exact .partner hi ha hb
              (ih a (List.mem_of_getElem? ha) b (List.mem_of_getElem? hb) h)
      · obtain ⟨b, hb, rfl⟩ := mem_addedItems_iff.1 h
        exact .itemAdded hj hb
  | object members others ih =>
      rw [changes, List.mem_append] at h
      rcases h with h | h
      · obtain ⟨key, a, ha, ⟨hb, rfl⟩ | ⟨b, hb, h⟩⟩ := mem_memberChanges_iff.1 h
        · exact .keyRemoved ha hb
        · exact .member ha hb (ih _ ha _ (Members.mem_of_lookup hb) h)
      · obtain ⟨key, b, ha, hb, rfl⟩ := mem_addedMembers_iff.1 h
        exact .keyAdded ha hb

theorem Recorded.mem_changes (h : Recorded options a b place change) :
    change ∈ changes options a b place := by
  induction h with
  | valueChanged hwhole hne => simp [changes_whole options hwhole, hne]
  | keyRemoved ha hb =>
      rw [changes, List.mem_append, mem_memberChanges_iff]
      exact .inl ⟨_, _, ha, .inl ⟨hb, rfl⟩⟩
  | keyAdded ha hb =>
      rw [changes, List.mem_append, mem_addedMembers_iff]
      exact .inr ⟨_, _, ha, hb, rfl⟩
  | member ha hb _ ih =>
      rw [changes, List.mem_append, mem_memberChanges_iff]
      exact .inl ⟨_, _, ha, .inr ⟨_, hb, ih⟩⟩
  | itemRemoved hi ha =>
      rw [changes_array_align, List.mem_append, List.mem_append]
      refine .inr (.inl (List.mem_flatMap.2 ⟨_, hi, ?_⟩))
      exact mem_leftoverChanges_none_iff.2 ⟨_, ha, rfl⟩
  | itemAdded hj hb =>
      rw [changes_array_align, List.mem_append, List.mem_append]
      exact .inr (.inr (List.mem_flatMap.2 ⟨_, hj, mem_addedItems_iff.2 ⟨_, hb, rfl⟩⟩))
  | itemMoved hmoves hij hne hb =>
      rw [changes_array_align, List.mem_append]
      refine .inl (List.mem_flatMap.2 ⟨_, hij, ?_⟩)
      exact mem_moves_iff.2 ⟨_, hmoves, hne, hb, rfl⟩
  | partner hij ha hb _ ih =>
      rw [changes_array_align, List.mem_append, List.mem_append]
      refine .inr (.inl (List.mem_flatMap.2 ⟨_, hij, ?_⟩))
      exact mem_leftoverChanges_some_iff.2 ⟨_, _, ha, hb, ih⟩

theorem mem_changes_iff_recorded :
    change ∈ changes options a b place ↔ Recorded options a b place change :=
  ⟨recorded_of_mem_changes, Recorded.mem_changes⟩

end Document

/-! The buckets of a change set. -/

namespace ChangeSet

variable {options : DiffOptions} {old new : Document}

variable [StandardHash]

theorem mem_filterMap_diff_iff {ρ : Type} {bucket : Change → Option ρ} {r : ρ} {change : Change}
    (h : ∀ c, bucket c = some r ↔ c = change) :
    r ∈ (old.diff options new).filterMap bucket ↔
      Document.Recorded options old new .root change := by
  rw [← Document.mem_changes_iff_recorded, List.mem_filterMap]
  constructor
  · rintro ⟨c, hc, heq⟩
    exact (h c).1 heq ▸ hc
  · exact fun hchange => ⟨change, hchange, (h change).2 rfl⟩

theorem mem_keyAdded_between {r : ItemChange} :
    r ∈ (between options old new).keyAdded ↔
      Document.Recorded options old new .root (.keyAdded r.place r.value) :=
  mem_filterMap_diff_iff fun c => by cases c <;> cases r <;> simp

theorem mem_keyRemoved_between {r : ItemChange} :
    r ∈ (between options old new).keyRemoved ↔
      Document.Recorded options old new .root (.keyRemoved r.place r.value) :=
  mem_filterMap_diff_iff fun c => by cases c <;> cases r <;> simp

theorem mem_itemAdded_between {r : ItemChange} :
    r ∈ (between options old new).itemAdded ↔
      Document.Recorded options old new .root (.itemAdded r.place r.value) :=
  mem_filterMap_diff_iff fun c => by cases c <;> cases r <;> simp

theorem mem_itemRemoved_between {r : ItemChange} :
    r ∈ (between options old new).itemRemoved ↔
      Document.Recorded options old new .root (.itemRemoved r.place r.value) :=
  mem_filterMap_diff_iff fun c => by cases c <;> cases r <;> simp

theorem mem_valueChanged_between {r : ValueChange} :
    r ∈ (between options old new).valueChanged ↔
      Document.Recorded options old new .root (.valueChanged r.place r.old r.new) :=
  mem_filterMap_diff_iff fun c => by cases c <;> cases r <;> simp

/-- A move is known by its array and both indices, but its record keeps the new place only. -/
theorem mem_itemMoved_between {r : ItemChange} :
    r ∈ (between options old new).itemMoved ↔
      ∃ list source target, r.place = list.index target ∧
        Document.Recorded options old new .root (.itemMoved list source target r.value) := by
  simp only [between, ofChanges, List.mem_filterMap, ← Document.mem_changes_iff_recorded]
  constructor
  · rintro ⟨change, h, heq⟩
    cases change <;> cases heq
    exact ⟨_, _, _, rfl, h⟩
  · rintro ⟨list, source, target, hplace, h⟩
    exact ⟨_, h, by simp only [← hplace]⟩

end ChangeSet

end JsonDelta
