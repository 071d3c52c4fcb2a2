import JsonDelta.Proofs.Diff.Location
import JsonDelta.Proofs.Diff.Symmetry
/-!
Leftovers by rank. One would pair the first old leftover with the first new one, the second with the
second, and so on, wherever both are arrays or both are objects. The scan does that only up to the
first two that are no partners: from there on the new side lags behind. Main statement: when the two
pairings agree, and which changes two arrays then have.
-/

namespace JsonDelta

namespace Alignment

variable (partners : Nat → Nat → Bool)

/-- Each old leftover, with the new leftover of its rank if they can be partners. -/
def leftoversByRank (old new : List Nat) : List (Nat × Option Nat) :=
  old.mapIdx fun k i => (i, new[k]?.filter (partners i))

/-- The new leftovers that cannot be partners of the old leftover of their rank. -/
def addedByRank (old new : List Nat) : List Nat :=
  (new.mapIdx fun k j => if old[k]?.any (partners · j) then none else some j).reduceOption

/-- From the first two leftovers of one rank that cannot be partners on, no old leftover can be a
partner of that new one, or of the new one of its own rank. -/
def InStep : List Nat → List Nat → Prop
  | i :: old, j :: new =>
    if partners i j then InStep old new
    else (∀ i' ∈ old, partners i' j = false) ∧ ∀ p ∈ old.zip new, partners p.1 p.2 = false
  | _, _ => True

variable {partners} {i j : Nat} {old new : List Nat}

theorem mapIdx_eq_map {α β : Type} (f : α → β) (l : List α) : l.mapIdx (fun _ x => f x) = l.map f :=
  List.ext_getElem (by simp) (by simp)

@[simp] theorem leftoversByRank_nil_left (new : List Nat) :
    leftoversByRank partners [] new = [] := rfl

@[simp] theorem leftoversByRank_nil_right (old : List Nat) :
    leftoversByRank partners old [] = old.map (·, none) := by
  simp [leftoversByRank, mapIdx_eq_map]

@[simp] theorem addedByRank_nil_left (new : List Nat) : addedByRank partners [] new = new := by
  have hsome : addedByRank partners [] new = (new.map some).reduceOption :=
    congrArg List.reduceOption (mapIdx_eq_map some new)
  rw [hsome, List.reduceOption, List.filterMap_map]
  exact List.filterMap_some

@[simp] theorem addedByRank_nil_right (old : List Nat) : addedByRank partners old [] = [] := rfl

theorem leftoversByRank_cons (i j : Nat) (old new : List Nat) :
    leftoversByRank partners (i :: old) (j :: new) =
      (i, if partners i j then some j else none) :: leftoversByRank partners old new := by
  simp [leftoversByRank, List.mapIdx_cons, Option.filter]

theorem addedByRank_cons (i j : Nat) (old new : List Nat) :
    addedByRank partners (i :: old) (j :: new) =
      if partners i j then addedByRank partners old new
      else j :: addedByRank partners old new := by
  by_cases h : partners i j <;> simp [addedByRank, List.mapIdx_cons, h]

theorem leftoversByRank_of_forall_not (h : ∀ p ∈ old.zip new, partners p.1 p.2 = false) :
    leftoversByRank partners old new = old.map (·, none) := by
  induction old generalizing new with
  | nil => simp
  | cons i old ih =>
      cases new with
      | nil => simp
      | cons j new =>
          rw [List.zip_cons_cons, List.forall_mem_cons] at h
          rw [leftoversByRank_cons, if_neg (by simp [h.1]), ih h.2, List.map_cons]

theorem addedByRank_sublist (partners : Nat → Nat → Bool) (old new : List Nat) :
    (addedByRank partners old new).Sublist new := by
  induction old generalizing new with
  | nil => simp
  | cons i old ih =>
      cases new with
      | nil => simp
      | cons j new =>
          rw [addedByRank_cons]
          split
          · exact (ih new).cons j
          · exact (ih new).cons_cons j

theorem addedByRank_eq_self_iff :
    addedByRank partners old new = new ↔ ∀ p ∈ old.zip new, partners p.1 p.2 = false := by
  induction old generalizing new with
  | nil => simp
  | cons i old ih =>
      cases new with
      | nil => simp
      | cons j new =>
          by_cases hij : partners i j = true
          · have hlen := (addedByRank_sublist partners old new).length_le
            have hne : addedByRank partners old new ≠ j :: new := by
              intro heq
              rw [heq, List.length_cons] at hlen
              omega
            simp [addedByRank_cons, hij, hne]
          · simp [addedByRank_cons, hij, ih]

/-! The scan. -/

theorem pairUp_of_forall_not (h : ∀ i ∈ old, partners i j = false) :
    pairUp partners old (j :: new) = (old.map (·, none), j :: new) := by
  induction old with
  | nil => rfl
  | cons i old ih =>
      obtain ⟨hi, hold⟩ := List.forall_mem_cons.1 h
      simp [pairUp, hi, ih hold]

theorem exists_mem_pairUp (hi : i ∈ old) (hij : partners i j = true) (new : List Nat) :
    ∃ i', (i', some j) ∈ (pairUp partners old (j :: new)).1 := by
  induction old with
  | nil => cases hi
  | cons k old ih =>
      by_cases hk : partners k j = true
      · exact ⟨k, by simp [pairUp, hk]⟩
      · rcases List.mem_cons.1 hi with rfl | hi
        · exact absurd hij hk
        · obtain ⟨i', hi'⟩ := ih hi
          exact ⟨i', by simp [pairUp, hk, hi']⟩

/-- A scan that stays in step pairs by rank. -/
theorem pairUp_of_inStep (h : InStep partners old new) :
    pairUp partners old new =
      (leftoversByRank partners old new, addedByRank partners old new) := by
  induction old generalizing new with
  | nil => simp [pairUp]
  | cons i old ih =>
      cases new with
      | nil => simp [pairUp]
      | cons j new =>
          rw [InStep] at h
          rw [leftoversByRank_cons, addedByRank_cons]
          by_cases hij : partners i j = true
          · rw [if_pos hij] at h
            simp [pairUp, hij, ih h]
          · rw [if_neg hij] at h
            obtain ⟨hold, hzip⟩ := h
            simp [pairUp, hij, pairUp_of_forall_not hold, leftoversByRank_of_forall_not hzip,
              addedByRank_eq_self_iff.2 hzip]

/-- A scan that leaves the same new places as pairing by rank was in step. -/
theorem inStep_of_snd_pairUp (hnew : new.Nodup)
    (h : (pairUp partners old new).2 = addedByRank partners old new) :
    InStep partners old new := by
  induction old generalizing new with
  | nil => simp [InStep]
  | cons i old ih =>
      cases new with
      | nil => simp [InStep]
      | cons j new =>
          rw [addedByRank_cons] at h
          rw [InStep]
          by_cases hij : partners i j = true
          · rw [if_pos hij] at h ⊢
            simp only [pairUp, if_pos hij] at h
            exact ih (List.nodup_cons.1 hnew).2 h
          · rw [if_neg hij] at h ⊢
            simp only [pairUp, if_neg hij] at h
            have hold : ∀ i' ∈ old, partners i' j = false := by
              intro i' hi'
              by_contra hpartner
              -- Then `j` would have found a partner, but it is one of the places that remain.
              obtain ⟨k, hk⟩ := exists_mem_pairUp hi' (eq_true_of_ne_false hpartner) new
              rw [← filterMap_snd_pairUp partners old (j :: new)] at hnew
              have hpaired : j ∈ (pairUp partners old (j :: new)).1.filterMap Prod.snd :=
                List.mem_filterMap.2 ⟨_, hk, rfl⟩
              have hremains : j ∈ (pairUp partners old (j :: new)).2 := by simp [h]
              exact (List.nodup_append.1 hnew).2.2 j hpaired j hremains rfl
            refine ⟨hold, addedByRank_eq_self_iff.1 ?_⟩
            rw [pairUp_of_forall_not hold] at h
            exact (List.cons.inj h).2.symm

theorem nodup_unmatchedNew (places : List (Option Nat)) : (unmatchedNew places).Nodup := by
  rw [unmatchedNew_eq_filter]
  exact List.nodup_range.filter _

end Alignment

namespace Document

open JsonDelta.Alignment

variable (options : DiffOptions) (items others : List Document) (place : Location)

theorem flatMap_reduceOption {α β : Type} (f : α → List β) (l : List (Option α)) :
    l.reduceOption.flatMap f = l.flatMap fun x => x.toList.flatMap f := by
  induction l with
  | nil => rfl
  | cons x l ih => cases x <;> simp [ih]

/-- What one new leftover contributes: it is added unless the old leftover of its rank is compared
with it. -/
def rankedAddition (old : List Nat) (rank j : Nat) : List Change :=
  match others[j]?, old[rank]?.bind (items[·]?) with
  | some b, some a => if sameContainer a b then [] else [.itemAdded (place.index j) b]
  | some b, none => [.itemAdded (place.index j) b]
  | none, _ => []

theorem addedItems_byRank (old : List Nat) (rank j : Nat) :
    (if old[rank]?.any (partnersAt items others · j) then none else some j).toList.flatMap
        (addedItems others place) =
      rankedAddition items others place old rank j := by
  unfold rankedAddition partnersAt
  cases hj : others[j]? with
  | none => cases old[rank]? <;> simp [addedItems, hj]
  | some b =>
      cases old[rank]? with
      | none => simp [addedItems, hj]
      | some i =>
          cases hi : items[i]? with
          | none => simp [addedItems, hi, hj]
          | some a => by_cases hab : sameContainer a b = true <;> simp [addedItems, hi, hj, hab]

section AnyHash

variable [StandardHash]

/-- What one old leftover contributes, given its rank: it is compared with the new leftover of that
rank if both are arrays or both are objects, and removed otherwise. -/
def rankedLeftover (new : List Nat) (rank i : Nat) : List Change :=
  match items[i]?, new[rank]?.bind (others[·]?) with
  | some a, some b =>
    if sameContainer a b then changes options a b (place.index i)
    else [.itemRemoved (place.index i) a]
  | some a, none => [.itemRemoved (place.index i) a]
  | none, _ => []

/-- The changes of two arrays whose leftovers are paired by rank. -/
def changesByRank : List Change :=
  let old := unmatchedOld items (matchItems items others)
  let new := unmatchedNew (matchItems items others)
  (ofItems items others).matched.flatMap (moves options others place) ++
    ((old.mapIdx (rankedLeftover options items others place new)).flatten ++
      (new.mapIdx (rankedAddition items others place old)).flatten)

theorem leftoverChanges_byRank (new : List Nat) (rank i : Nat) :
    leftoverChanges (items.map (changes options)) items others place
        (i, new[rank]?.filter (partnersAt items others i)) =
      rankedLeftover options items others place new rank i := by
  unfold rankedLeftover partnersAt
  cases hi : items[i]? with
  | none => cases new[rank]? <;> simp [leftoverChanges, hi, Option.filter]
  | some a =>
      cases new[rank]? with
      | none => simp [leftoverChanges, hi]
      | some j =>
          cases hj : others[j]? with
          | none => simp [leftoverChanges, hi, hj, Option.filter]
          | some b =>
              by_cases hab : sameContainer a b = true <;>
                simp [leftoverChanges, hi, hj, hab, Option.filter]

theorem changesByRank_eq :
    changesByRank options items others place =
      (ofItems items others).matched.flatMap (moves options others place) ++
        ((leftoversByRank (partnersAt items others)
            (unmatchedOld items (matchItems items others))
            (unmatchedNew (matchItems items others))).flatMap
          (leftoverChanges (items.map (changes options)) items others place) ++
        (addedByRank (partnersAt items others) (unmatchedOld items (matchItems items others))
          (unmatchedNew (matchItems items others))).flatMap (addedItems others place)) := by
  rw [changesByRank]
  congr 2
  · rw [leftoversByRank, List.flatMap_def, ← mapIdx_eq_map, List.mapIdx_mapIdx]
    simp only [Function.comp_def, leftoverChanges_byRank]
  · rw [addedByRank, flatMap_reduceOption, List.flatMap_def, ← mapIdx_eq_map, List.mapIdx_mapIdx]
    simp only [Function.comp_def, addedItems_byRank]

/-! The items that were added to an array can be told from its changes. -/

/-- The index of an item that was added to the array at this depth. -/
def addedAt? (depth : Nat) : Change → Option Segment
  | .itemAdded place _ => if place.path.length = depth + 1 then place.path.getLast? else none
  | _ => none

variable {options items others place}

theorem Recorded.length_lt {a b value : Document} {added : Location}
    (h : Recorded options a b place (.itemAdded added value)) :
    place.path.length < added.path.length := by
  generalize hchange : Change.itemAdded added value = change at h
  induction h with
  | itemAdded =>
      cases hchange
      simp [Location.index, Location.child, Path.child]
  | member _ _ _ ih =>
      have hdeeper := ih hchange
      simp [Location.key, Location.child, Path.child] at hdeeper
      omega
  | partner _ _ _ _ ih =>
      have hdeeper := ih hchange
      simp [Location.index, Location.child, Path.child] at hdeeper
      omega
  | _ => cases hchange

omit [StandardHash] in
theorem filterMap_addedAt?_addedItems {added : List Nat} (h : ∀ j ∈ added, j < others.length) :
    (added.flatMap (addedItems others place)).filterMap (addedAt? place.path.length) =
      added.map fun j : Nat => Segment.index j := by
  induction added with
  | nil => rfl
  | cons j added ih =>
      obtain ⟨hj, hadded⟩ := List.forall_mem_cons.1 h
      rw [List.flatMap_cons, List.filterMap_append, ih hadded, List.map_cons,
        addedItems_of_getElem? (List.getElem?_eq_getElem hj)]
      simp [addedAt?, Location.index, Location.child, Path.child]

theorem addedAt?_leftoverChanges {change : Change} {leftover : Nat × Option Nat}
    (h : change ∈ leftoverChanges (items.map (changes options)) items others place leftover) :
    addedAt? place.path.length change = none := by
  obtain ⟨i, partner⟩ := leftover
  cases partner with
  | none =>
      obtain ⟨a, -, rfl⟩ := mem_leftoverChanges_none_iff.1 h
      rfl
  | some j =>
      obtain ⟨a, b, -, -, hchange⟩ := mem_leftoverChanges_some_iff.1 h
      cases change with
      | itemAdded added value =>
          have hdeeper := (mem_changes_iff_recorded.1 hchange).length_lt
          simp [Location.index, Location.child, Path.child] at hdeeper
          rw [addedAt?, if_neg (by omega)]
      | _ => rfl

/-- The added places are what the changes of an array say was added at its own depth. -/
theorem filterMap_addedAt?_changes {matched : List (Nat × Nat)}
    {leftovers : List (Nat × Option Nat)} {added : List Nat}
    (h : ∀ j ∈ added, j < others.length) :
    (matched.flatMap (moves options others place) ++
        (leftovers.flatMap (leftoverChanges (items.map (changes options)) items others place) ++
          added.flatMap (addedItems others place))).filterMap (addedAt? place.path.length) =
      added.map fun j : Nat => Segment.index j := by
  have hmoves : (matched.flatMap (moves options others place)).filterMap
      (addedAt? place.path.length) = [] := by
    refine List.filterMap_eq_nil_iff.2 fun change hchange => ?_
    obtain ⟨⟨i, j⟩, -, hchange⟩ := List.mem_flatMap.1 hchange
    obtain ⟨b, -, -, -, rfl⟩ := mem_moves_iff.1 hchange
    rfl
  have hleftovers : (leftovers.flatMap
      (leftoverChanges (items.map (changes options)) items others place)).filterMap
        (addedAt? place.path.length) = [] := by
    refine List.filterMap_eq_nil_iff.2 fun change hchange => ?_
    obtain ⟨leftover, -, hchange⟩ := List.mem_flatMap.1 hchange
    exact addedAt?_leftoverChanges hchange
  rw [List.filterMap_append, List.filterMap_append, hmoves, hleftovers,
    filterMap_addedAt?_addedItems h, List.nil_append, List.nil_append]

theorem lt_of_mem_unmatchedNew {j : Nat} (h : j ∈ unmatchedNew (matchItems items others)) :
    j < others.length := by
  have hj := (List.getElem?_eq_some_iff.1 (mem_unmatchedNew.1 h)).1
  simpa [matchItems_eq_firstFit] using hj

/-- The changes of two arrays are those of their leftovers paired by rank exactly when the scan
stays in step. -/
theorem changes_eq_changesByRank_iff (hmode : options.ignoreOrder = true) (place : Location) :
    changes options (array items) (array others) place =
        changesByRank options items others place ↔
      InStep (partnersAt items others) (unmatchedOld items (matchItems items others))
        (unmatchedNew (matchItems items others)) := by
  rw [changes_array options hmode, List.append_assoc, changesByRank_eq]
  constructor
  · intro h
    have hscan : ∀ j ∈ (ofItems items others).added, j < others.length := fun j hj =>
      (covers_ofItems items others).lt_of_mem_added hj
    have hrank : ∀ j ∈ addedByRank (partnersAt items others)
        (unmatchedOld items (matchItems items others))
        (unmatchedNew (matchItems items others)), j < others.length := fun j hj =>
      lt_of_mem_unmatchedNew ((addedByRank_sublist _ _ _).subset hj)
    have hadded := congrArg (List.filterMap (addedAt? place.path.length)) h
    rw [filterMap_addedAt?_changes hscan, filterMap_addedAt?_changes hrank] at hadded
    apply inStep_of_snd_pairUp (nodup_unmatchedNew _)
    rw [← added_ofItems]
    refine List.map_injective_iff.2 (fun i j hij => ?_) hadded
    exact Int.ofNat_inj.1 (Segment.index.inj hij)
  · intro h
    rw [leftovers_ofItems, added_ofItems, pairUp_of_inStep h]

end AnyHash

/-- Two pairs of partners and an old leftover without a counterpart, next to a match. -/
theorem changes_eq_changesByRank_of_containers :
    let options : DiffOptions := { reportMoves := true }
    let items := [.null, .object [("a", .null)], .array [.null], .string "x"]
    let others := [.object [("a", .bool true)], .null, .array []]
    InStep (partnersAt items others) (unmatchedOld items (matchItems items others))
        (unmatchedNew (matchItems items others)) ∧
      changes options (array items) (array others) .root =
        changesByRank options items others .root ∧
      (changesByRank options items others .root).map (·.place.accessor) =
        ["root[1]", "root[1]['a']", "root[2][0]", "root[3]"] := by
  intro options items others
  have hstep : InStep (partnersAt items others) (unmatchedOld items (matchItems items others))
      (unmatchedNew (matchItems items others)) := by
    change InStep _ [1, 2, 3] [0, 2]
    simp [InStep, partnersAt, items, others, sameContainer, kind, Kind.isContainer]
  exact ⟨hstep, (changes_eq_changesByRank_iff rfl .root).2 hstep, by decide⟩

/-- The first two leftovers are numbers. After them the scan compares the old object with the new
number instead of the new object. -/
theorem changes_ne_changesByRank :
    let items := [.number (.unsigned 1), .object [("a", .number (.unsigned 1))]]
    let others := [.number (.unsigned 2), .object [("a", .number (.unsigned 2))]]
    changes {} (array items) (array others) .root ≠ changesByRank {} items others .root ∧
      (changes {} (array items) (array others) .root).map (·.place.accessor) =
        ["root[0]", "root[1]", "root[0]", "root[1]"] ∧
      (changesByRank {} items others .root).map (·.place.accessor) =
        ["root[0]", "root[1]['a']", "root[0]"] := by
  intro items others
  refine ⟨fun heq => ?_, by decide, by decide⟩
  have hlength := congrArg List.length heq
  revert hlength
  decide

end Document

end JsonDelta
