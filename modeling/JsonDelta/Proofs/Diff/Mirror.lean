import Mathlib.Data.List.Basic
import JsonDelta.Proofs.Diff.Places
import JsonDelta.Proofs.Document.Symmetry
/-!
Swapping the documents. Each walk follows its own first document, but in order both meet the same
children. Main statement: in order the change set of two documents mirrors that of the documents
swapped: what was added was removed, and what changed changed the other way.
-/

namespace JsonDelta

/-- The change as it looks from the other document. -/
def Change.swap : Change → Change
  | .keyAdded place value => .keyRemoved place value
  | .keyRemoved place value => .keyAdded place value
  | .itemAdded place value => .itemRemoved place value
  | .itemRemoved place value => .itemAdded place value
  | .valueChanged place old new => .valueChanged place new old
  | .itemMoved list source target value => .itemMoved list target source value

theorem Change.swap_swap (change : Change) : change.swap.swap = change := by
  cases change <;> rfl

namespace Document

variable {options : DiffOptions} {a b : Document} {place : Location} {change : Change}

variable [StandardHash]

theorem Recorded.swap (hmode : options.ignoreOrder = false) (h : Recorded options a b place change)
    (ha : a.KeysDistinct) (hb : b.KeysDistinct) : Recorded options b a place change.swap := by
  induction h with
  | @valueChanged a b place hwhole hne =>
      have hwhole' : b.kind.isContainer = false ∨ b.kind ≠ a.kind := by
        by_cases hkind : a.kind = b.kind
        · exact .inl (hkind ▸ hwhole.resolve_right (not_not_intro hkind))
        · exact .inr (Ne.symm hkind)
      exact .valueChanged hwhole' (equal_comm_whole false hwhole ▸ hne)
  | keyRemoved hmem hnone => exact .keyAdded hnone hmem
  | keyAdded hnone hmem => exact .keyRemoved hmem hnone
  | member hmem hlookup _ ih =>
      obtain ⟨hkeys, hvalues⟩ := keysDistinct_object.1 ha
      obtain ⟨_, hotherValues⟩ := keysDistinct_object.1 hb
      have hother := Members.mem_of_lookup hlookup
      exact .member hother ((Members.lookup_eq_some_iff hkeys).2 hmem)
        (ih (hvalues _ hmem) (hotherValues _ hother))
  | itemRemoved hi hget =>
      rw [DiffOptions.align_inOrder hmode] at hi
      refine .itemAdded ?_ hget
      rw [DiffOptions.align_inOrder hmode, Alignment.mem_added_byIndex]
      exact ⟨Alignment.le_of_mem_leftovers_byIndex hi, (List.getElem?_eq_some_iff.1 hget).1⟩
  | itemAdded hj hget =>
      rw [DiffOptions.align_inOrder hmode, Alignment.mem_added_byIndex] at hj
      refine .itemRemoved ?_ hget
      rw [DiffOptions.align_inOrder hmode, Alignment.mem_leftovers_byIndex]
      exact ⟨hj.2, (if_neg (Nat.not_lt.2 hj.1)).symm⟩
  | itemMoved _ hij =>
      rw [DiffOptions.align_inOrder hmode] at hij
      cases hij
  | partner hij hi hj _ ih =>
      rw [DiffOptions.align_inOrder hmode] at hij
      obtain rfl := Alignment.eq_of_mem_leftovers_byIndex hij
      refine .partner ?_ hj hi (ih (keysDistinct_array.1 ha _ (List.mem_of_getElem? hi))
        (keysDistinct_array.1 hb _ (List.mem_of_getElem? hj)))
      rw [DiffOptions.align_inOrder hmode, Alignment.mem_leftovers_byIndex]
      exact ⟨(List.getElem?_eq_some_iff.1 hj).1,
        (if_pos (List.getElem?_eq_some_iff.1 hi).1).symm⟩

/-- In order a change is recorded if and only if its swap is recorded between the documents
swapped. -/
theorem recorded_swap_iff (hmode : options.ignoreOrder = false) (ha : a.KeysDistinct)
    (hb : b.KeysDistinct) :
    Recorded options a b place change ↔ Recorded options b a place change.swap := by
  refine ⟨fun h => h.swap hmode ha hb, fun h => ?_⟩
  rw [← change.swap_swap]
  exact h.swap hmode hb ha

end Document

def ValueChange.swap (r : ValueChange) : ValueChange := ⟨r.place, r.new, r.old⟩

theorem ValueChange.swap_involutive : Function.Involutive swap := fun _ => rfl

namespace ChangeSet

variable {options : DiffOptions} {a b : Document}

/-- What one of the sets calls added the other one calls removed, and changes go the other way. -/
structure Mirrors (set other : ChangeSet) : Prop where
  keyAdded : set.keyAdded.Perm other.keyRemoved
  keyRemoved : set.keyRemoved.Perm other.keyAdded
  itemAdded : set.itemAdded.Perm other.itemRemoved
  itemRemoved : set.itemRemoved.Perm other.itemAdded
  valueChanged : set.valueChanged.Perm (other.valueChanged.map ValueChange.swap)

section AnyHash

variable [StandardHash]

/-- In order the change set of two documents mirrors that of the documents swapped. -/
theorem mirrors_between_swapped (hmode : options.ignoreOrder = false) (ha : a.KeysDistinct)
    (hb : b.KeysDistinct) : (between options a b).Mirrors (between options b a) := by
  have hab := pathsDistinct_between options ha hb
  have hba := pathsDistinct_between options hb ha
  have hswap {change : Change} : Document.Recorded options a b .root change ↔
      Document.Recorded options b a .root change.swap :=
    Document.recorded_swap_iff hmode ha hb
  -- The records of a bucket are distinct, so it is enough to compare which ones are there.
  constructor
  · refine (List.perm_ext_iff_of_nodup hab.keyAdded.of_map hba.keyRemoved.of_map).2 fun r => ?_
    rw [mem_keyAdded_between, mem_keyRemoved_between, hswap, Change.swap]
  · refine (List.perm_ext_iff_of_nodup hab.keyRemoved.of_map hba.keyAdded.of_map).2 fun r => ?_
    rw [mem_keyRemoved_between, mem_keyAdded_between, hswap, Change.swap]
  · refine (List.perm_ext_iff_of_nodup hab.itemAdded.of_map hba.itemRemoved.of_map).2 fun r => ?_
    rw [mem_itemAdded_between, mem_itemRemoved_between, hswap, Change.swap]
  · refine (List.perm_ext_iff_of_nodup hab.itemRemoved.of_map hba.itemAdded.of_map).2 fun r => ?_
    rw [mem_itemRemoved_between, mem_itemAdded_between, hswap, Change.swap]
  · have hother := hba.valueChanged.of_map.map ValueChange.swap_involutive.injective
    refine (List.perm_ext_iff_of_nodup hab.valueChanged.of_map hother).2 fun r => ?_
    rw [List.mem_map_of_involutive ValueChange.swap_involutive, mem_valueChanged_between,
      mem_valueChanged_between, hswap, Change.swap, ValueChange.swap]

end AnyHash

/-- The keys of the two documents come in different orders, so the records do too. -/
theorem mirrors_between_swapped_nested :
    let a := Document.object [("x", .null), ("y", .array [.null, .object [("p", .null)],
      .bool true]), ("z", .string "old"), ("w", .null)]
    let b := Document.object [("v", .null), ("z", .string "new"), ("y", .array [.bool false,
      .object [("q", .null)]]), ("u", .null)]
    let there := between { ignoreOrder := false } a b
    let back := between { ignoreOrder := false } b a
    there.Mirrors back ∧
      there.valueChanged.map (fun r => r.place.accessor) = ["root['y'][0]", "root['z']"] ∧
      back.valueChanged.map (fun r => r.place.accessor) = ["root['z']", "root['y'][0]"] ∧
      back.keyAdded.map (fun r => r.place.accessor) =
        ["root['y'][1]['p']", "root['x']", "root['w']"] ∧
      back.itemAdded.map (fun r => r.place.accessor) = ["root['y'][2]"] := by
  intro a b there back
  have ha : a.KeysDistinct := by
    simp [a, Document.KeysDistinct, Document.ItemsDistinct, Document.MembersDistinct]
  have hb : b.KeysDistinct := by
    simp [b, Document.KeysDistinct, Document.ItemsDistinct, Document.MembersDistinct]
  exact ⟨mirrors_between_swapped rfl ha hb, by decide, by decide, by decide, by decide⟩

end ChangeSet

end JsonDelta
