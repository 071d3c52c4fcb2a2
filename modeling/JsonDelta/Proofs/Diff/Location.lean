import JsonDelta.Document.Distinct
import JsonDelta.Document.Edit
import JsonDelta.Proofs.Diff.Records
/-!
Where changes are recorded. Main statement: every record has the accessor of its path, and its path
leads in the old document to what the record says: to the value that was removed or changed, to an
object without the key that was added, or into the array that gained or moved an item. In order,
paths of both documents agree, and the record is right about the new document as well.
-/

namespace JsonDelta

/-- The accessor is that of the path. -/
def Location.Accurate (place : Location) : Prop := place.accessor = place.path.rootedAccessor

namespace Location

theorem accurate_root : root.Accurate := by
  simp [Accurate, root, Path.rootedAccessor, Path.accessor]

theorem Accurate.child {place : Location} (h : place.Accurate) (segment : Segment) :
    (place.child segment).Accurate := by
  rw [Accurate] at h ⊢
  simp [Location.child, h, Path.rootedAccessor, Path.accessor, Path.child, String.append_assoc]

end Location

/-- A move is located at its new index. -/
def Change.place : Change → Location
  | .keyAdded place _ | .keyRemoved place _ | .itemAdded place _ | .itemRemoved place _ => place
  | .valueChanged place _ _ => place
  | .itemMoved list _ target _ => list.index target

namespace Document

theorem get?_child {d a : Document} {path : Path} (h : d.get? path = some a) (segment : Segment) :
    d.get? (path.child segment) = a.child? segment := by
  rw [Path.child, get?_append, h, Option.bind_some, get?]
  cases a.child? segment with
  | none => rfl
  | some b => exact get?_nil b

theorem get?_key {d : Document} {members : List (String × Document)} {path : Path} {key : String}
    (h : d.get? path = some (object members)) :
    d.get? (path.child (.key key)) = members.lookup key :=
  get?_child h _

theorem get?_index {d : Document} {items : List Document} {path : Path} {i : Nat}
    (h : d.get? path = some (array items)) : d.get? (path.child (.index i)) = items[i]? :=
  get?_child h _

/-- The path leads to a key that an object of the document lacks. -/
def LacksKeyAt (d : Document) (path : Path) : Prop :=
  ∃ (parent : Path) (key : String) (members : List (String × Document)),
    path = parent.child (.key key) ∧ d.get? parent = some (object members) ∧
      members.lookup key = none

/-- The path leads to an index of an array of the document, perhaps past its end. -/
def InArrayAt (d : Document) (path : Path) : Prop :=
  ∃ (parent : Path) (i : Nat) (items : List Document),
    path = parent.child (.index i) ∧ d.get? parent = some (array items)

variable {options : DiffOptions} {old new a b : Document} {place : Location} {change : Change}

variable [StandardHash]

/-- The accessor is kept from place to place. -/
theorem Recorded.accurate (h : Recorded options a b place change) (hp : place.Accurate) :
    change.place.Accurate := by
  induction h with
  | valueChanged => exact hp
  | member _ _ _ ih => exact ih (hp.child _)
  | partner _ _ _ _ ih => exact ih (hp.child _)
  | _ => exact hp.child _

end Document

/-- The change is right about the old document. -/
def Change.Faithful (old : Document) : Change → Prop
  | .keyAdded place _ => old.LacksKeyAt place.path
  | .keyRemoved place value => old.get? place.path = some value
  | .itemAdded place _ => old.InArrayAt place.path
  | .itemRemoved place value => old.get? place.path = some value
  | .valueChanged place value _ => old.get? place.path = some value
  | .itemMoved list _ target _ => old.InArrayAt (list.index target).path

/-- The change is right about both documents, in order. -/
def Change.FaithfulInOrder (old new : Document) : Change → Prop
  | .keyAdded place value => new.get? place.path = some value ∧ old.get? place.path = none
  | .keyRemoved place _ => new.get? place.path = none
  | .itemAdded place value => new.get? place.path = some value ∧ old.get? place.path = none
  | .itemRemoved place _ => new.get? place.path = none
  | .valueChanged place _ value => new.get? place.path = some value
  | .itemMoved .. => False

namespace Document

variable {options : DiffOptions} {old new a b : Document} {place : Location} {change : Change}

variable [StandardHash]

theorem Recorded.faithful (h : Recorded options a b place change) (ha : a.KeysDistinct)
    (hold : old.get? place.path = some a) : change.Faithful old := by
  induction h with
  | valueChanged => exact hold
  | keyRemoved hmem =>
      have hkeys := (keysDistinct_object.1 ha).1
      exact (get?_key hold).trans ((Members.lookup_eq_some_iff hkeys).2 hmem)
  | keyAdded hl => exact ⟨_, _, _, rfl, hold, hl⟩
  | member hmem _ _ ih =>
      obtain ⟨hkeys, hvalues⟩ := keysDistinct_object.1 ha
      exact ih (hvalues _ hmem)
        ((get?_key hold).trans ((Members.lookup_eq_some_iff hkeys).2 hmem))
  | itemRemoved _ hi => exact (get?_index hold).trans hi
  | itemAdded => exact ⟨_, _, _, rfl, hold⟩
  | itemMoved => exact ⟨_, _, _, rfl, hold⟩
  | partner _ hi _ _ ih =>
      exact ih (keysDistinct_array.1 ha _ (List.mem_of_getElem? hi)) ((get?_index hold).trans hi)

theorem Recorded.faithfulInOrder (hmode : options.ignoreOrder = false)
    (h : Recorded options a b place change) (ha : a.KeysDistinct) (hb : b.KeysDistinct)
    (hold : old.get? place.path = some a) (hnew : new.get? place.path = some b) :
    change.FaithfulInOrder old new := by
  induction h with
  | valueChanged => exact hnew
  | keyRemoved _ hl => exact (get?_key hnew).trans hl
  | keyAdded hl hmem =>
      have hkeys := (keysDistinct_object.1 hb).1
      exact ⟨(get?_key hnew).trans ((Members.lookup_eq_some_iff hkeys).2 hmem),
        (get?_key hold).trans hl⟩
  | member hmem hl _ ih =>
      obtain ⟨hkeys, hvalues⟩ := keysDistinct_object.1 ha
      obtain ⟨_, hotherValues⟩ := keysDistinct_object.1 hb
      exact ih (hvalues _ hmem) (hotherValues _ (Members.mem_of_lookup hl))
        ((get?_key hold).trans ((Members.lookup_eq_some_iff hkeys).2 hmem))
        ((get?_key hnew).trans hl)
  | itemRemoved hi =>
      rw [DiffOptions.align_inOrder hmode] at hi
      exact (get?_index hnew).trans
        (List.getElem?_eq_none (Alignment.le_of_mem_leftovers_byIndex hi))
  | itemAdded hj hget =>
      rw [DiffOptions.align_inOrder hmode, Alignment.mem_added_byIndex] at hj
      exact ⟨(get?_index hnew).trans hget,
        (get?_index hold).trans (List.getElem?_eq_none hj.1)⟩
  | itemMoved _ hij =>
      rw [DiffOptions.align_inOrder hmode] at hij
      cases hij
  | partner hij hi hj _ ih =>
      rw [DiffOptions.align_inOrder hmode] at hij
      obtain rfl := Alignment.eq_of_mem_leftovers_byIndex hij
      exact ih (keysDistinct_array.1 ha _ (List.mem_of_getElem? hi))
        (keysDistinct_array.1 hb _ (List.mem_of_getElem? hj)) ((get?_index hold).trans hi)
        ((get?_index hnew).trans hj)

end Document

/-! The records of a change set. -/

namespace ChangeSet

def places (set : ChangeSet) : List Location :=
  set.keyAdded.map ItemChange.place ++ set.keyRemoved.map ItemChange.place ++
    set.itemAdded.map ItemChange.place ++ set.itemRemoved.map ItemChange.place ++
    set.valueChanged.map ValueChange.place ++ set.itemMoved.map ItemChange.place

/-- Every record has the accessor of its path and is right about the old document. -/
structure Faithful (set : ChangeSet) (old : Document) : Prop where
  accessors : ∀ place ∈ set.places, place.accessor = place.path.rootedAccessor
  keyAdded : ∀ r ∈ set.keyAdded, old.LacksKeyAt r.place.path
  keyRemoved : ∀ r ∈ set.keyRemoved, old.get? r.place.path = some r.value
  itemAdded : ∀ r ∈ set.itemAdded, old.InArrayAt r.place.path
  itemRemoved : ∀ r ∈ set.itemRemoved, old.get? r.place.path = some r.value
  valueChanged : ∀ r ∈ set.valueChanged, old.get? r.place.path = some r.old
  itemMoved : ∀ r ∈ set.itemMoved, old.InArrayAt r.place.path

/-- What the records say of the new document when order counts, and that what was added is not in
the old one. Nothing moves then. -/
structure FaithfulInOrder (set : ChangeSet) (old new : Document) : Prop where
  keyAdded : ∀ r ∈ set.keyAdded,
    new.get? r.place.path = some r.value ∧ old.get? r.place.path = none
  keyRemoved : ∀ r ∈ set.keyRemoved, new.get? r.place.path = none
  itemAdded : ∀ r ∈ set.itemAdded,
    new.get? r.place.path = some r.value ∧ old.get? r.place.path = none
  itemRemoved : ∀ r ∈ set.itemRemoved, new.get? r.place.path = none
  valueChanged : ∀ r ∈ set.valueChanged, new.get? r.place.path = some r.new
  itemMoved : set.itemMoved = []

variable {options : DiffOptions} {old new : Document}

section AnyHash

variable [StandardHash]

theorem exists_recorded_of_mem_places {place : Location}
    (h : place ∈ (between options old new).places) :
    ∃ change, Document.Recorded options old new .root change ∧ change.place = place := by
  simp only [places, List.mem_append, List.mem_map] at h
  rcases h with ((((⟨r, h, rfl⟩ | ⟨r, h, rfl⟩) | ⟨r, h, rfl⟩) | ⟨r, h, rfl⟩) | ⟨r, h, rfl⟩) |
    ⟨r, h, rfl⟩
  · exact ⟨_, mem_keyAdded_between.1 h, rfl⟩
  · exact ⟨_, mem_keyRemoved_between.1 h, rfl⟩
  · exact ⟨_, mem_itemAdded_between.1 h, rfl⟩
  · exact ⟨_, mem_itemRemoved_between.1 h, rfl⟩
  · exact ⟨_, mem_valueChanged_between.1 h, rfl⟩
  · obtain ⟨list, source, target, hplace, hmoved⟩ := mem_itemMoved_between.1 h
    exact ⟨_, hmoved, hplace.symm⟩

theorem accurate_of_mem_places {place : Location} (h : place ∈ (between options old new).places) :
    place.Accurate := by
  obtain ⟨change, hchange, rfl⟩ := exists_recorded_of_mem_places h
  exact hchange.accurate Location.accurate_root

theorem faithful_between_old (options : DiffOptions) (ho : old.KeysDistinct) (new : Document) :
    (between options old new).Faithful old := by
  have hfaithful {change} (h : Document.Recorded options old new .root change) :
      change.Faithful old :=
    h.faithful ho (Document.get?_nil old)
  refine ⟨fun _ => accurate_of_mem_places, fun r hr => hfaithful (mem_keyAdded_between.1 hr),
    fun r hr => hfaithful (mem_keyRemoved_between.1 hr),
    fun r hr => hfaithful (mem_itemAdded_between.1 hr),
    fun r hr => hfaithful (mem_itemRemoved_between.1 hr),
    fun r hr => hfaithful (mem_valueChanged_between.1 hr), fun r hr => ?_⟩
  obtain ⟨list, source, target, hplace, hmoved⟩ := mem_itemMoved_between.1 hr
  rw [hplace]
  exact hfaithful hmoved

theorem faithfulInOrder_between (hmode : options.ignoreOrder = false) (ho : old.KeysDistinct)
    (hn : new.KeysDistinct) : (between options old new).FaithfulInOrder old new := by
  have hfaithful {change} (h : Document.Recorded options old new .root change) :
      change.FaithfulInOrder old new :=
    h.faithfulInOrder hmode ho hn (Document.get?_nil old) (Document.get?_nil new)
  refine ⟨fun r hr => hfaithful (mem_keyAdded_between.1 hr),
    fun r hr => hfaithful (mem_keyRemoved_between.1 hr),
    fun r hr => hfaithful (mem_itemAdded_between.1 hr),
    fun r hr => hfaithful (mem_itemRemoved_between.1 hr),
    fun r hr => hfaithful (mem_valueChanged_between.1 hr), ?_⟩
  refine List.eq_nil_iff_forall_not_mem.2 fun r hr => ?_
  obtain ⟨list, source, target, _, hmoved⟩ := mem_itemMoved_between.1 hr
  exact hfaithful hmoved

/-- Records are right about the old document, and in order about the new one too. -/
theorem faithful_between (options : DiffOptions) (ho : old.KeysDistinct) (hn : new.KeysDistinct) :
    (between options old new).Faithful old ∧
      (options.ignoreOrder = false → (between options old new).FaithfulInOrder old new) :=
  ⟨faithful_between_old options ho new, fun hmode => faithfulInOrder_between hmode ho hn⟩

end AnyHash

/-- Records of five kinds, in order. -/
theorem faithful_between_mixed :
    let old := Document.object [("it's", .array [.null, .bool true]), ("b", .object [("c", .null)])]
    let new := Document.object [("d", .array []), ("b", .object []), ("it's", .array [.string "x"])]
    let set := between { ignoreOrder := false } old new
    set.Faithful old ∧ set.FaithfulInOrder old new ∧
      set.places.map Location.accessor =
        ["root['d']", "root['b']['c']", "root[\"it's\"][1]", "root[\"it's\"][0]"] := by
  intro old new set
  have ho : old.KeysDistinct := by
    simp [old, Document.KeysDistinct, Document.ItemsDistinct, Document.MembersDistinct]
  have hn : new.KeysDistinct := by
    simp [new, Document.KeysDistinct, Document.ItemsDistinct, Document.MembersDistinct]
  obtain ⟨hfaithful, hinOrder⟩ := faithful_between { ignoreOrder := false } ho hn
  exact ⟨hfaithful, hinOrder rfl, by decide⟩

end ChangeSet

end JsonDelta
