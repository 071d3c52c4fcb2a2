import JsonDelta.Proofs.Diff.Location
import JsonDelta.Proofs.Document.Order
/-!
The walk, step by step. Two objects or two arrays are walked in steps: each of them removes, adds or
moves one child, or compares two children at the place of the old one. Main statements: the changes
of two containers are those of their steps, the steps on the old side go through its children in
their order, and no two steps of one side are at the same child.
-/

namespace JsonDelta

inductive Step where
  | removed (segment : Segment) (value : Document)
  | added (segment : Segment) (value : Document)
  | moved (source target : Nat) (value : Document)
  | compared (segment : Segment) (old new : Document)

namespace Step

def segment : Step → Segment
  | removed segment _ | added segment _ | compared segment _ _ => segment
  | moved _ target _ => .index target

/-- The child of the old document at the segment, unless the segment is that of a new child. -/
def old? : Step → Option Document
  | removed _ value => some value
  | compared _ old _ => some old
  | added .. | moved .. => none

def inOld (step : Step) : Bool := step.old?.isSome

def removal (place : Location) (value : Document) : Segment → Change
  | .key name => .keyRemoved (place.key name) value
  | .index i => .itemRemoved (place.child (.index i)) value

def addition (place : Location) (value : Document) : Segment → Change
  | .key name => .keyAdded (place.key name) value
  | .index i => .itemAdded (place.child (.index i)) value

variable [StandardHash]

def changes (options : DiffOptions) (place : Location) : Step → List Change
  | removed segment value => [removal place value segment]
  | added segment value => [addition place value segment]
  | moved source target value => [.itemMoved place source target value]
  | compared segment old new => old.changes options new (place.child segment)

end Step

namespace Document

theorem flatMap_filterMap {α β γ : Type} (f : α → Option β) (g : β → List γ) (l : List α) :
    (l.filterMap f).flatMap g = l.flatMap fun x => (f x).toList.flatMap g := by
  rw [List.filterMap_eq_flatMap_toList, List.flatMap_assoc]

variable (options : DiffOptions)

def memberStep (others : List (String × Document)) (m : String × Document) : Step :=
  match others.lookup m.1 with
  | some other => .compared (.key m.1) m.2 other
  | none => .removed (.key m.1) m.2

def newMemberStep? (members : List (String × Document)) (m : String × Document) : Option Step :=
  if (members.lookup m.1).isNone then some (.added (.key m.1) m.2) else none

def moveStep? (others : List Document) : Nat × Nat → Option Step
  | (source, target) =>
    if options.reportMoves ∧ source ≠ target then others[target]?.map (.moved source target)
    else none

def leftoverStep? (items others : List Document) : Nat × Option Nat → Option Step
  | (i, some j) =>
    match items[i]?, others[j]? with
    | some item, some other => some (.compared (.index i) item other)
    | _, _ => none
  | (i, none) => items[i]?.map (.removed (.index i))

def newItemStep? (others : List Document) (j : Nat) : Option Step :=
  others[j]?.map (.added (.index j))

/-! The children that steps are at. -/

variable {options} {a b c d : Document} {s t : Step} {i j : Nat} {items others : List Document}
  {members otherMembers : List (String × Document)}

theorem moveStep?_eq_some {m : Nat × Nat} (h : moveStep? options others m = some s) :
    s.segment = .index m.2 ∧ s.inOld = false := by
  rw [moveStep?] at h
  split at h
  · obtain ⟨b, -, rfl⟩ := Option.map_eq_some_iff.1 h
    exact ⟨rfl, rfl⟩
  · cases h

theorem leftoverStep?_eq_some {l : Nat × Option Nat} (h : leftoverStep? items others l = some s) :
    s.segment = .index l.1 ∧ ∃ a, s.old? = some a ∧ items[l.1]? = some a := by
  obtain ⟨i, partner⟩ := l
  cases partner with
  | none =>
      obtain ⟨a, ha, rfl⟩ := Option.map_eq_some_iff.1 h
      exact ⟨rfl, a, rfl, ha⟩
  | some j =>
      rw [leftoverStep?] at h
      split at h
      · rename_i a b ha hb
        cases h
        exact ⟨rfl, a, rfl, ha⟩
      · cases h

theorem segment_memberStep (m : String × Document) :
    (memberStep otherMembers m).segment = .key m.1 := by
  unfold memberStep
  cases otherMembers.lookup m.1 <;> rfl

theorem old?_memberStep (m : String × Document) : (memberStep otherMembers m).old? = some m.2 := by
  unfold memberStep
  cases otherMembers.lookup m.1 <;> rfl

theorem newItemStep?_eq_some (h : newItemStep? others j = some s) :
    s.segment = .index j ∧ s.inOld = false := by
  obtain ⟨b, -, rfl⟩ := Option.map_eq_some_iff.1 h
  exact ⟨rfl, rfl⟩

theorem newMemberStep?_eq_some {m : String × Document} (h : newMemberStep? members m = some s) :
    s.segment = .key m.1 ∧ s.inOld = false ∧ members.lookup m.1 = none := by
  rw [newMemberStep?] at h
  split at h
  · cases h
    exact ⟨rfl, rfl, Option.isNone_iff_eq_none.1 ‹_›⟩
  · cases h

/-! The steps through two containers of one kind: what moved, the old children, what is new. -/

/-- Two containers of one kind are two arrays or two objects. -/
theorem exists_of_sameContainer (h : Alignment.sameContainer a b = true) :
    (∃ items others, a = array items ∧ b = array others) ∨
      ∃ members others, a = object members ∧ b = object others := by
  cases a <;> cases b <;> simp [Alignment.sameContainer, kind, Kind.isContainer] at h ⊢

variable (options) [StandardHash]

def moveSteps : Document → Document → List Step
  | array items, array others =>
    (options.align items others).matched.filterMap (moveStep? options others)
  | _, _ => []

def oldSteps : Document → Document → List Step
  | object members, object others => members.map (memberStep others)
  | array items, array others =>
    (options.align items others).leftovers.filterMap (leftoverStep? items others)
  | _, _ => []

def newSteps : Document → Document → List Step
  | object members, object others => others.filterMap (newMemberStep? members)
  | array items, array others => (options.align items others).added.filterMap (newItemStep? others)
  | _, _ => []

def steps (a b : Document) : List Step :=
  moveSteps options a b ++ (oldSteps options a b ++ newSteps options a b)

/-! The changes of the walk are those of its steps. -/

variable {options} {place : Location} {segment : Segment} {change : Change}

theorem moves_eq (place : Location) (m : Nat × Nat) :
    moves options others place m =
      (moveStep? options others m).toList.flatMap (Step.changes options place) := by
  obtain ⟨i, j⟩ := m
  rw [moves, moveStep?]
  split
  · cases others[j]? <;> simp [Step.changes]
  · rfl

theorem leftoverChanges_eq (place : Location) (l : Nat × Option Nat) :
    leftoverChanges (items.map (changes options)) items others place l =
      (leftoverStep? items others l).toList.flatMap (Step.changes options place) := by
  obtain ⟨i, partner⟩ := l
  cases partner with
  | none => cases hi : items[i]? <;> simp [leftoverChanges, leftoverStep?, hi, Step.changes]; rfl
  | some j =>
      rw [leftoverChanges, leftoverStep?, List.getElem?_map]
      cases items[i]? <;> cases others[j]? <;> simp [Step.changes]
      rfl

theorem addedItems_eq (place : Location) (j : Nat) :
    addedItems others place j =
      (newItemStep? others j).toList.flatMap (Step.changes options place) := by
  unfold addedItems newItemStep?
  cases others[j]? <;> simp [Step.changes]
  rfl

theorem memberChange_eq (place : Location) (m : String × Document) :
    memberChange options otherMembers place m =
      (memberStep otherMembers m).changes options place := by
  unfold memberChange memberStep
  cases otherMembers.lookup m.1 <;> rfl

theorem addedMembers_eq (place : Location) :
    addedMembers members otherMembers place =
      (otherMembers.filterMap (newMemberStep? members)).flatMap (Step.changes options place) := by
  rw [flatMap_filterMap, addedMembers]
  induction otherMembers with
  | nil => rfl
  | cons m others ih =>
      cases h : members.lookup m.1 <;> simp [newMemberStep?, h, ih, Step.changes]
      rfl

/-- The changes of two containers of one kind are those of their steps. -/
theorem changes_eq_flatMap_steps (h : Alignment.sameContainer a b = true) (place : Location) :
    changes options a b place = (steps options a b).flatMap (Step.changes options place) := by
  rw [steps, List.flatMap_append, List.flatMap_append]
  obtain ⟨items, others, rfl, rfl⟩ | ⟨members, others, rfl, rfl⟩ := exists_of_sameContainer h
  · rw [changes_array_align, moveSteps, oldSteps, newSteps, flatMap_filterMap, flatMap_filterMap,
      flatMap_filterMap, List.flatMap_congr fun m _ => moves_eq place m,
      List.flatMap_congr fun l _ => leftoverChanges_eq place l,
      List.flatMap_congr fun j _ => addedItems_eq place j]
  · have hmoves : moveSteps options (object members) (object others) = [] := rfl
    rw [changes, memberChanges_eq_flatMap, hmoves, oldSteps, newSteps, List.flatMap_nil,
      List.nil_append, List.flatMap_map, addedMembers_eq,
      List.flatMap_congr fun m _ => memberChange_eq place m]

/-! Old children and new ones. -/

theorem inOld_of_mem_moveSteps (h : s ∈ moveSteps options a b) : s.inOld = false := by
  unfold moveSteps at h
  split at h
  · obtain ⟨m, -, hm⟩ := List.mem_filterMap.1 h
    exact (moveStep?_eq_some hm).2
  · cases h

theorem inOld_of_mem_oldSteps (h : s ∈ oldSteps options a b) : s.inOld = true := by
  unfold oldSteps at h
  split at h
  · obtain ⟨m, -, rfl⟩ := List.mem_map.1 h
    rw [Step.inOld, old?_memberStep, Option.isSome_some]
  · obtain ⟨l, -, hl⟩ := List.mem_filterMap.1 h
    obtain ⟨-, c, hc, -⟩ := leftoverStep?_eq_some hl
    rw [Step.inOld, hc, Option.isSome_some]
  · cases h

theorem inOld_of_mem_newSteps (h : s ∈ newSteps options a b) : s.inOld = false := by
  unfold newSteps at h
  split at h
  · obtain ⟨m, -, hm⟩ := List.mem_filterMap.1 h
    exact (newMemberStep?_eq_some hm).2.1
  · obtain ⟨j, -, hj⟩ := List.mem_filterMap.1 h
    exact (newItemStep?_eq_some hj).2
  · cases h

theorem filter_inOld_steps : (steps options a b).filter Step.inOld = oldSteps options a b := by
  rw [steps, List.filter_append, List.filter_append, List.filter_eq_nil_iff.2, List.nil_append,
    List.filter_eq_self.2, List.filter_eq_nil_iff.2, List.append_nil]
  · exact fun s hs => Bool.eq_false_iff.1 (inOld_of_mem_newSteps hs)
  · exact fun s hs => inOld_of_mem_oldSteps hs
  · exact fun s hs => Bool.eq_false_iff.1 (inOld_of_mem_moveSteps hs)

theorem filter_not_inOld_steps :
    (steps options a b).filter (fun s => !s.inOld) =
      moveSteps options a b ++ newSteps options a b := by
  rw [steps, List.filter_append, List.filter_append, List.filter_eq_self.2,
    List.filter_eq_nil_iff.2, List.filter_eq_self.2, List.nil_append]
  · exact fun s hs => by rw [inOld_of_mem_newSteps hs, Bool.not_false]
  · exact fun s hs => by simp [inOld_of_mem_oldSteps hs]
  · exact fun s hs => by rw [inOld_of_mem_moveSteps hs, Bool.not_false]

theorem mem_steps_iff_mem_oldSteps (hold : s.inOld = true) :
    s ∈ steps options a b ↔ s ∈ oldSteps options a b := by
  rw [← filter_inOld_steps, List.mem_filter, and_iff_left hold]

/-- A step on the old side is at a child of the old container. -/
theorem child?_of_mem_steps (ha : a.KeysDistinct) (h : s ∈ steps options a b)
    (hc : s.old? = some c) : a.child? s.segment = some c := by
  have hold : s.inOld = true := by rw [Step.inOld, hc, Option.isSome_some]
  have hmem := (mem_steps_iff_mem_oldSteps hold).1 h
  unfold oldSteps at hmem
  split at hmem
  · obtain ⟨m, hm, rfl⟩ := List.mem_map.1 hmem
    rw [old?_memberStep] at hc
    cases hc
    rw [segment_memberStep]
    exact (Members.lookup_eq_some_iff (keysDistinct_object.1 ha).1).2 hm
  · obtain ⟨l, -, hl⟩ := List.mem_filterMap.1 hmem
    obtain ⟨hsegment, c', hc', hitem⟩ := leftoverStep?_eq_some hl
    cases hc.symm.trans hc'
    rw [hsegment]
    exact hitem
  · cases hmem

/-! No two steps of one side are at the same child. -/

theorem pairwise_oldSteps_array :
    (oldSteps options (array items) (array others)).Pairwise fun s t =>
      (array items).ChildBefore s.segment t.segment := by
  have hplaces : ((options.align items others).leftovers.map Prod.fst).Pairwise (· < ·) :=
    List.pairwise_lt_range.sublist (options.covers_align items others).leftovers_sublist
  refine List.pairwise_filterMap.2 ((List.pairwise_map.1 hplaces).imp fun hlt s hs t ht => ?_)
  obtain ⟨hsegment, -⟩ := leftoverStep?_eq_some hs
  obtain ⟨hsegment', c, -, hitem⟩ := leftoverStep?_eq_some ht
  rw [hsegment, hsegment']
  exact childBefore_index hlt (List.getElem?_eq_some_iff.1 hitem).1

/-- Steps on the old side go through the children of the old container in their order. -/
theorem pairwise_oldSteps (ha : a.KeysDistinct) :
    (oldSteps options a b).Pairwise fun s t => a.ChildBefore s.segment t.segment := by
  cases a with
  | object members =>
      cases b with
      | object others =>
          have hkeys := (keysDistinct_object.1 ha).1
          rw [oldSteps, List.pairwise_map]
          simpa only [segment_memberStep] using pairwise_childBefore_key hkeys
      | _ => exact .nil
  | array items =>
      cases b with
      | array others => exact pairwise_oldSteps_array
      | _ => exact .nil
  | _ => exact .nil

theorem pairwise_steps_old (options : DiffOptions) (b : Document) (ha : a.KeysDistinct) :
    (steps options a b).Pairwise fun s t =>
      s.inOld = true → t.inOld = true → a.ChildBefore s.segment t.segment := by
  rw [← List.pairwise_filter, filter_inOld_steps]
  exact pairwise_oldSteps ha

theorem pairwise_newSide_array :
    (moveSteps options (array items) (array others) ++
      newSteps options (array items) (array others)).Pairwise fun s t => s.segment ≠ t.segment := by
  have hnew := (options.covers_align items others).new.nodup_iff.2 List.nodup_range
  obtain ⟨hmatched, hrest, hcross⟩ := List.nodup_append.1 hnew
  obtain ⟨-, hadded, -⟩ := List.nodup_append.1 hrest
  refine List.pairwise_append.2 ⟨?_, ?_, ?_⟩
  · refine List.pairwise_filterMap.2 ((List.pairwise_map.1 hmatched).imp fun hne s hs t ht => ?_)
    rw [(moveStep?_eq_some hs).1, (moveStep?_eq_some ht).1]
    exact mt Segment.index_inj.1 hne
  · refine List.pairwise_filterMap.2 (hadded.imp fun hne s hs t ht => ?_)
    rw [(newItemStep?_eq_some hs).1, (newItemStep?_eq_some ht).1]
    exact mt Segment.index_inj.1 hne
  · intro s hs t ht
    obtain ⟨m, hm, hs⟩ := List.mem_filterMap.1 hs
    obtain ⟨j, hj, ht⟩ := List.mem_filterMap.1 ht
    rw [(moveStep?_eq_some hs).1, (newItemStep?_eq_some ht).1]
    exact mt Segment.index_inj.1
      (hcross m.2 (List.mem_map_of_mem hm) j (List.mem_append_right _ hj))

theorem pairwise_newSide (hb : b.KeysDistinct) :
    (moveSteps options a b ++ newSteps options a b).Pairwise fun s t =>
      s.segment ≠ t.segment := by
  cases a with
  | object members =>
      cases b with
      | object others =>
          have hkeys := List.pairwise_map.1 (keysDistinct_object.1 hb).1
          refine List.pairwise_filterMap.2 (hkeys.imp fun hne s hs t ht => ?_)
          rw [(newMemberStep?_eq_some hs).1, (newMemberStep?_eq_some ht).1]
          exact fun heq => hne (Segment.key.inj heq)
      | _ => exact .nil
  | array items =>
      cases b with
      | array others => exact pairwise_newSide_array
      | _ => exact .nil
  | _ => exact .nil

/-- Two steps of one side are at different children. -/
theorem pairwise_steps (hold : (oldSteps options a b).Pairwise fun s t => s.segment ≠ t.segment)
    (hnew : (moveSteps options a b ++ newSteps options a b).Pairwise fun s t =>
      s.segment ≠ t.segment) :
    (steps options a b).Pairwise fun s t => s.inOld = t.inOld → s.segment ≠ t.segment := by
  rw [← filter_inOld_steps, List.pairwise_filter] at hold
  rw [← filter_not_inOld_steps, List.pairwise_filter] at hnew
  refine (hold.and hnew).imp fun {s t} ⟨hst, hst'⟩ hside => ?_
  cases hs : s.inOld with
  | true => exact hst hs (hside.symm.trans hs)
  | false => exact hst' (by rw [hs]; rfl) (by rw [← hside, hs]; rfl)

end Document

end JsonDelta
