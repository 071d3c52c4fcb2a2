import JsonDelta.Proofs.Diff.Alignment
import JsonDelta.Proofs.Document.Equality
/-!
The walk through two documents, container by container. Main statement: in both modes the changes of
two arrays are those of their alignment.
-/

namespace JsonDelta

namespace Document

variable {old new : List Document} {place : Location}

theorem leftoverChanges_alone {i : Nat} {a : Document}
    {comparisons : List (Document → Location → List Change)} (ha : old[i]? = some a) :
    leftoverChanges comparisons old new place (i, none) = [.itemRemoved (place.index i) a] := by
  simp [leftoverChanges, ha]

theorem addedItems_of_getElem? {j : Nat} {b : Document} (hb : new[j]? = some b) :
    addedItems new place j = [.itemAdded (place.index j) b] := by
  simp [addedItems, hb]

theorem getElem?_of_drop_eq_cons {α : Type} {l rest : List α} {x : α} {i : Nat}
    (h : l.drop i = x :: rest) : l[i]? = some x ∧ l.drop (i + 1) = rest := by
  refine ⟨?_, ?_⟩
  · simpa [h] using (@List.getElem?_drop _ l i 0).symm
  · rw [← List.tail_drop, h, List.tail_cons]

theorem flatMap_addedItems_range' {tail : List Document} {i : Nat} (h : new.drop i = tail) :
    (List.range' i tail.length).flatMap (addedItems new place) =
      (tail.zipIdx i).map fun (other, j) => .itemAdded (place.index j) other := by
  induction tail generalizing i with
  | nil => rfl
  | cons other tail ih =>
      obtain ⟨hother, hdrop⟩ := getElem?_of_drop_eq_cons h
      simp [List.range'_succ, addedItems_of_getElem? hother, ih hdrop]

variable (options : DiffOptions) [StandardHash]

theorem leftoverChanges_partner {i j : Nat} {a b : Document} (ha : old[i]? = some a)
    (hb : new[j]? = some b) :
    leftoverChanges (old.map (changes options)) old new place (i, some j) =
      changes options a b (place.index i) := by
  simp [leftoverChanges, ha, hb]

/-! The walk in order reads the tails of both arrays. -/

theorem itemChanges_eq_flatMap {items others : List Document} {i : Nat}
    (hold : old.drop i = items) (hnew : new.drop i = others) (hi : i + items.length = old.length) :
    itemChanges options items others i place =
      ((List.range' i items.length).flatMap fun k =>
        leftoverChanges (old.map (changes options)) old new place
          (k, if k < new.length then some k else none)) ++
      (List.range' old.length (new.length - old.length)).flatMap (addedItems new place) := by
  induction items generalizing others i with
  | nil =>
      obtain rfl : i = old.length := by simpa using hi
      have hlen : others.length = new.length - old.length := by rw [← hnew, List.length_drop]
      rw [itemChanges, ← flatMap_addedItems_range' hnew, hlen]
      rfl
  | cons item items ih =>
      obtain ⟨hitem, hold'⟩ := getElem?_of_drop_eq_cons hold
      rw [List.length_cons] at hi ⊢
      rw [List.range'_succ, List.flatMap_cons]
      cases others with
      | nil =>
          have hlen : new.length ≤ i := List.drop_eq_nil_iff.1 hnew
          have hnew' : new.drop (i + 1) = [] := List.drop_eq_nil_iff.2 (by omega)
          rw [if_neg (by omega), leftoverChanges_alone hitem, itemChanges,
            ih hold' hnew' (by omega)]
          rfl
      | cons other others =>
          obtain ⟨hother, hnew'⟩ := getElem?_of_drop_eq_cons hnew
          have hlen : i < new.length := (List.getElem?_eq_some_iff.1 hother).1
          rw [if_pos hlen, leftoverChanges_partner options hitem hother, itemChanges,
            ih hold' hnew' (by omega), List.append_assoc]

/-- The changes of two arrays are those of their alignment, in both modes. -/
theorem changes_array_align (old new : List Document) (place : Location) :
    changes options (array old) (array new) place =
      (options.align old new).matched.flatMap (moves options new place) ++
        ((options.align old new).leftovers.flatMap
          (leftoverChanges (old.map (changes options)) old new place) ++
        (options.align old new).added.flatMap (addedItems new place)) := by
  by_cases h : options.ignoreOrder
  · rw [changes_array options h, DiffOptions.align, if_pos h, List.append_assoc]
  · rw [changes, if_neg h, DiffOptions.align, if_neg h, Alignment.byIndex, List.flatMap_nil,
      List.nil_append, List.flatMap_map, List.range_eq_range',
      itemChanges_eq_flatMap options (List.drop_zero) (List.drop_zero) (Nat.zero_add _)]

/-! Objects, and scalars. -/

theorem changes_scalar {a : Document} (h : a.kind.isContainer = false) (b : Document) :
    changes options a b place = if a.equal false b then [] else [.valueChanged place a b] := by
  cases a with
  | array _ => cases h
  | object _ => cases h
  | _ => rw [changes] <;> simp

/-- Scalars, and documents of different kinds, are compared as a whole. -/
theorem changes_whole {a b : Document} (h : a.kind.isContainer = false ∨ a.kind ≠ b.kind)
    (place : Location) :
    changes options a b place = if a.equal false b then [] else [.valueChanged place a b] := by
  rcases h with h | h
  · exact changes_scalar options h b
  · rw [changes_of_kind_ne options h, equal_of_kind_ne h, if_neg Bool.false_ne_true]

/-- The changes of one old member. -/
def memberChange (others : List (String × Document)) (place : Location) (m : String × Document) :
    List Change :=
  match others.lookup m.1 with
  | some other => changes options m.2 other (place.key m.1)
  | none => [.keyRemoved (place.key m.1) m.2]

theorem memberChanges_eq_flatMap (members others : List (String × Document)) :
    memberChanges options members others place =
      members.flatMap (memberChange options others place) := by
  induction members with
  | nil => rw [memberChanges, List.flatMap_nil]
  | cons m members ih =>
      rw [memberChanges, ih, List.flatMap_cons]
      rfl

end Document

end JsonDelta
