import JsonDelta.Proofs.Diff.Moves
import JsonDelta.Proofs.Path.Spelling
import JsonDelta.Proofs.Report.Entry
/-!
Which moves are listed. A move is left out where a value has changed, and the place of the change is
told by its accessor. Main statements: moves are left out exactly at the paths of changed values as
long as no two of these paths are confusable; and a listing of the changes between two documents
leaves out nothing.
-/

namespace JsonDelta

namespace Document

variable {options : DiffOptions} {a b c d : Document} {place spot : Location}

variable [StandardHash]

/-- Two items that are compared because they are partners are containers of one kind, so they do
not change as a whole. -/
theorem Recorded.valueChanged_cases (hmode : options.ignoreOrder = true)
    (h : Recorded options a b place (.valueChanged spot c d)) :
    spot = place ∨ ∃ parent name, spot.path = Path.child parent (.key name) := by
  generalize hchange : Change.valueChanged spot c d = change at h
  induction h with
  | valueChanged =>
      cases hchange
      exact .inl rfl
  | member _ _ _ ih =>
      rcases ih hchange with rfl | hkey
      · exact .inr ⟨_, _, rfl⟩
      · exact .inr hkey
  | partner hij ha hb h ih =>
      subst hchange
      rcases ih rfl with rfl | hkey
      · rw [DiffOptions.align_anyOrder hmode] at hij
        obtain ⟨a', b', ha', hb', hcontainer⟩ := Alignment.sameContainer_of_mem_leftovers hij
        obtain rfl := Option.some.inj (ha.symm.trans ha')
        obtain rfl := Option.some.inj (hb.symm.trans hb')
        have hunder := under_of_mem_changes hcontainer h.mem_changes
        exact absurd hunder.2 (Nat.lt_irrefl _)
      · exact .inr hkey
  | _ => cases hchange

end Document

namespace ChangeSet

variable {options : DiffOptions} {old new : Document} {set : ChangeSet} {change : ValueChange}
  {item : ItemChange}

theorem place_mem_of_valueChanged (h : change ∈ set.valueChanged) : change.place ∈ set.places :=
  List.mem_append_left _ (List.mem_append_right _ (List.mem_map_of_mem h))

theorem place_mem_of_itemMoved (h : item ∈ set.itemMoved) : item.place ∈ set.places :=
  List.mem_append_right _ (List.mem_map_of_mem h)

variable [StandardHash]

theorem itemMoved_inOrder (hmode : options.ignoreOrder = false) (old new : Document) :
    (between options old new).itemMoved = [] := by
  rw [between, itemMoved_ofChanges, movesOf_inOrder hmode, List.map_nil]

/-- No value changes where an item is moved, and the accessors tell so: the path of a move ends in
an index, that of a changed value does not. -/
theorem accessor_ne_of_between (hchange : change ∈ (between options old new).valueChanged)
    (hitem : item ∈ (between options old new).itemMoved) :
    change.place.accessor ≠ item.place.accessor := by
  cases hmode : options.ignoreOrder with
  | false =>
      rw [itemMoved_inOrder hmode] at hitem
      cases hitem
  | true =>
      obtain ⟨list, source, target, hplace, -⟩ := mem_itemMoved_between.1 hitem
      have hpath : change.place.path = [] ∨
          ∃ parent name, change.place.path = Path.child parent (.key name) := by
        rcases (mem_valueChanged_between.1 hchange).valueChanged_cases hmode with hroot | hkey
        · rw [hroot]
          exact .inl rfl
        · exact .inr hkey
      rw [accurate_of_mem_places (place_mem_of_valueChanged hchange),
        accurate_of_mem_places (place_mem_of_itemMoved hitem), Ne, Path.rootedAccessor_inj, hplace]
      exact Path.accessor_ne_accessor_child_index hpath list.path target

end ChangeSet

namespace Report.Listing

def moveEntry (item : ItemChange) : Entry := ⟨item.place.path, .moved, .string moveText⟩

variable {set : ChangeSet} {changed : List ValueChange} {moved : List ItemChange}

/-! The moves among the entries. -/

theorem filter_moved_itemEntries {tag : ChangeTag} (h : tag ≠ .moved) (items : List ItemChange) :
    (itemEntries tag items).filter (·.tag = .moved) = [] := by
  rw [itemEntries, List.filter_map]
  simp [Function.comp_def, h]

theorem filter_moved_valueEntries (changed : List ValueChange) :
    (changed.flatMap valueEntries).filter (·.tag = .moved) = [] := by
  rw [List.filter_flatMap]
  simp [valueEntries]

theorem filter_moved_moveEntries (changed : List ValueChange) (moved : List ItemChange) :
    (moveEntries changed moved).filter (·.tag = .moved) = moveEntries changed moved := by
  rw [moveEntries, List.filter_map]
  simp [Function.comp_def]

theorem filter_moved_flatten (set : ChangeSet) :
    (flatten set 0).entries.filter (·.tag = .moved) =
      moveEntries set.valueChanged set.itemMoved := by
  simp [entries_flatten_zero, entriesOf, filter_moved_itemEntries, filter_moved_valueEntries,
    filter_moved_moveEntries]

/-- Where accessors are equal just for equal paths, the paths decide. -/
theorem moveEntries_eq_of_accessor_iff (h : ∀ item ∈ moved, ∀ change ∈ changed,
      change.place.accessor = item.place.accessor ↔ change.place.path = item.place.path) :
    moveEntries changed moved =
      (moved.filter fun item => item.place.path ∉ changed.map fun change => change.place.path).map
        moveEntry := by
  rw [moveEntries]
  congr 1
  refine List.filter_congr fun item hitem => ?_
  rw [decide_eq_decide, List.mem_map, List.mem_map]
  exact not_congr (exists_congr fun change => and_congr_right (h item hitem change))

theorem moveEntries_eq_map (h : ∀ change ∈ changed, ∀ item ∈ moved,
      change.place.accessor ≠ item.place.accessor) :
    moveEntries changed moved = moved.map moveEntry := by
  rw [moveEntries, List.filter_eq_self.2]
  · rfl
  · intro item hitem
    rw [decide_eq_true_eq, List.mem_map]
    rintro ⟨change, hchange, heq⟩
    exact h change hchange item hitem heq

/-- Moves are left out at the paths of changed values, and nowhere else as long as no two of the
paths are confusable. -/
theorem filter_moved_flatten_of_not_confusable (set : ChangeSet)
    (haccurate : ∀ place ∈ set.places, place.Accurate)
    (hclear : ∀ change ∈ set.valueChanged, ∀ item ∈ set.itemMoved,
      ¬ change.place.path.Confusable item.place.path) :
    (flatten set 0).entries.filter (·.tag = .moved) =
      (set.itemMoved.filter fun item =>
        item.place.path ∉ set.valueChanged.map fun change => change.place.path).map moveEntry := by
  rw [filter_moved_flatten]
  refine moveEntries_eq_of_accessor_iff fun item hitem change hchange => ?_
  rw [haccurate _ (ChangeSet.place_mem_of_valueChanged hchange),
    haccurate _ (ChangeSet.place_mem_of_itemMoved hitem), Path.rootedAccessor_inj]
  constructor
  · intro heq
    rcases Path.eq_or_confusable_of_accessor_eq heq with hpath | hconfusable
    · exact hpath
    · exact absurd hconfusable (hclear change hchange item hitem)
  · intro hpath
    rw [hpath]

/-- Of two moves, one is to the index at which a value has changed. -/
theorem filter_moved_flatten_same_index :
    let list := Location.root.key "it's"
    let set : ChangeSet :=
      { valueChanged := [⟨list.index 0, .null, .bool true⟩]
        itemMoved := [⟨list.index 0, .null⟩, ⟨list.index 1, .null⟩] }
    (∀ place ∈ set.places, place.Accurate) ∧
      (∀ change ∈ set.valueChanged, ∀ item ∈ set.itemMoved,
        ¬ change.place.path.Confusable item.place.path) ∧
      (flatten set 0).entries.filter (·.tag = .moved) = [moveEntry ⟨list.index 1, .null⟩] := by
  intro list set
  have haccurate : ∀ place ∈ set.places, place.Accurate := by
    have hlist : list.Accurate := Location.accurate_root.child _
    simp only [set, ChangeSet.places, List.map_nil, List.map_cons, List.nil_append,
      List.cons_append, List.forall_mem_cons]
    exact ⟨hlist.child _, hlist.child _, hlist.child _, List.forall_mem_nil _⟩
  have hclear : ∀ change ∈ set.valueChanged, ∀ item ∈ set.itemMoved,
      ¬ change.place.path.Confusable item.place.path := by
    intro change hchange item hitem hconfusable
    obtain ⟨name, rest, -, hkey⟩ := hconfusable.exists_key
    have hname : name ++ "\"][" ++ rest = "it's" := by
      simp only [set, List.mem_cons, List.not_mem_nil, or_false] at hchange hitem
      rcases hitem with rfl | rfl <;> subst hchange <;>
        simpa [list, Location.index, Location.key, Location.child, Location.root, Path.child]
          using hkey
    have hbracket := congrArg (fun text => ']' ∈ text.toList) hname
    simp at hbracket
  exact ⟨haccurate, hclear, filter_moved_flatten_of_not_confusable set haccurate hclear⟩

/-- Confusable paths: no value has changed at the path of the move, which is left out all the
same. -/
theorem filter_moved_flatten_confused :
    let changed := ((Location.root.key "'").key "'").index 0
    let moved := (Location.root.key "'\"][\"'").index 0
    let set : ChangeSet :=
      { valueChanged := [⟨changed, .null, .bool true⟩], itemMoved := [⟨moved, .null⟩] }
    (∀ place ∈ set.places, place.Accurate) ∧ changed.path ≠ moved.path ∧
      (flatten set 0).entries.filter (·.tag = .moved) = [] := by
  intro changed moved set
  have hchanged : changed.Accurate := ((Location.accurate_root.child _).child _).child _
  have hmoved : moved.Accurate := (Location.accurate_root.child _).child _
  refine ⟨?_, by decide, rfl⟩
  simp only [set, ChangeSet.places, List.map_nil, List.map_cons, List.nil_append,
    List.cons_append, List.forall_mem_cons]
  exact ⟨hchanged, hmoved, List.forall_mem_nil _⟩

theorem length_entriesOf (h : ∀ change ∈ set.valueChanged, ∀ item ∈ set.itemMoved,
      change.place.accessor ≠ item.place.accessor) :
    (entriesOf set).length = set.size + set.valueChanged.length := by
  have hvalues : (set.valueChanged.flatMap valueEntries).length = 2 * set.valueChanged.length := by
    simp [List.length_flatMap, valueEntries, Nat.mul_comm]
  simp only [entriesOf, List.length_append, hvalues, moveEntries_eq_map h, itemEntries,
    List.length_map, ChangeSet.size]
  omega

section AnyHash

variable [StandardHash]

/-- A listing of the changes between two documents has all of them: no move is left out. -/
theorem flatten_between (options : DiffOptions) (old new : Document) :
    let set := ChangeSet.between options old new
    (∀ change ∈ set.valueChanged, ∀ item ∈ set.itemMoved,
        change.place.accessor ≠ item.place.accessor) ∧
      (flatten set 0).entries.length = set.size + set.valueChanged.length ∧
      (flatten set 0).entries.filter (·.tag = .moved) = set.itemMoved.map moveEntry ∧
      ((flatten set 0).entries = [] ↔ set.isEmpty = true) ∧
      ∀ limit, 0 < limit → (flatten set limit).entries = (flatten set 0).entries.take limit ∧
        (flatten set limit).entries.length = min limit (set.size + set.valueChanged.length) := by
  intro set
  have hne : ∀ change ∈ set.valueChanged, ∀ item ∈ set.itemMoved,
      change.place.accessor ≠ item.place.accessor :=
    fun _ hchange _ hitem => ChangeSet.accessor_ne_of_between hchange hitem
  have hlength : (flatten set 0).entries.length = set.size + set.valueChanged.length := by
    rw [entries_flatten_zero, length_entriesOf hne]
  refine ⟨hne, hlength, ?_, ?_, ?_⟩
  · rw [filter_moved_flatten, moveEntries_eq_map hne]
  · refine ⟨fun hnil => ?_, entries_flatten_eq_nil set 0⟩
    rw [hnil, List.length_nil] at hlength
    rw [ChangeSet.isEmpty, decide_eq_true_eq]
    omega
  · intro limit hlimit
    have htake : (flatten set limit).entries = (flatten set 0).entries.take limit := by
      rw [← truncate_flatten, entries_truncate_of_pos _ hlimit]
    exact ⟨htake, by rw [htake, List.length_take, hlength]⟩

end AnyHash

/-- Two items move, and a value changes in the item between them. -/
theorem flatten_between_nested :
    let old := Document.object
      [("it's", .array [.bool true, .object [("]", .null)], .null])]
    let new := Document.object
      [("it's", .array [.null, .object [("]", .bool true)], .bool true])]
    let set := ChangeSet.between { reportMoves := true } old new
    set.size = 3 ∧ (flatten set 0).entries.length = 4 ∧
      (flatten set 0).entries.filter (·.tag = .moved) = set.itemMoved.map moveEntry ∧
      0 < 3 ∧ (flatten set 3).entries.length = 3 := by
  intro old new set
  obtain ⟨-, hlength, hmoved, -, hcut⟩ := flatten_between { reportMoves := true } old new
  have hsize : set.size = 3 := rfl
  have hvalues : set.valueChanged.length = 1 := rfl
  refine ⟨hsize, ?_, hmoved, by decide, ?_⟩
  · rw [hlength, hsize, hvalues]
  · rw [(hcut 3 (by decide)).2, hsize, hvalues]
    rfl

end Report.Listing

end JsonDelta
