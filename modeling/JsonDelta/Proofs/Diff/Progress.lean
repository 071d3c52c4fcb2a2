import Mathlib.Logic.Function.Basic
import JsonDelta.Proofs.Diff.Replay
import JsonDelta.Proofs.Diff.Revision
/-!
Progress. Main statement: replaying one more stage leads from one revision of the old document to
the next. Indices of the old document stay valid until items are removed, so that stage comes last
and runs backwards.
-/

namespace JsonDelta

namespace Document

theorem length_flatMap_of_forall_eq_one {ι α : Type} {f : ι → List α} {l : List ι}
    (h : ∀ i ∈ l, (f i).length = 1) : (l.flatMap f).length = l.length := by
  induction l with
  | nil => rfl
  | cons i l ih =>
      have htail := ih fun k hk => h k (List.mem_cons_of_mem i hk)
      rw [List.flatMap_cons, List.length_append, h i List.mem_cons_self, htail, List.length_cons,
        Nat.add_comm]

variable (options : DiffOptions) (done : Stage → Bool)

/-! The effect on a container of edits inside the child in the middle of its list. -/

section Middle

variable {front behind : List Document} {before after : List (String × Document)} {i : Nat}
  {key : String} {a b : Document} {edits : List Edit} {path : Path}

theorem effect_item (h : Effect edits (path ++ [.index i]) a b) (hfront : front.length = i)
    (behind : List Document) :
    Effect edits path (array (front ++ a :: behind)) (array (front ++ b :: behind)) := by
  have hchild : (array (front ++ a :: behind)).child? (.index i) = some a :=
    child?_array_middle hfront
  have hcontainer := h.child hchild
  rwa [setChild_array_middle hfront] at hcontainer

theorem effect_member (h : Effect edits (path ++ [.key key]) a b) (hkey : key ∉ before.map Prod.fst)
    (after : List (String × Document)) :
    Effect edits path (object (before ++ (key, a) :: after))
      (object (before ++ (key, b) :: after)) := by
  have hchild : (object (before ++ (key, a) :: after)).child? (.key key) = some a :=
    child?_object_middle hkey
  have hcontainer := h.child hchild
  rwa [setChild_object_middle hkey] at hcontainer

end Middle

/-! What is added comes last, in order, and only its own stage adds it. Moves are no edits. -/

section Additions

variable {stage : Stage} {members : List (String × Document)}

theorem effect_addItems (others : List Document) (place : Location) (added : List Nat)
    (items : List Document) :
    Effect (added.flatMap fun j => Stage.itemAdded.edits (addedItems others place j)) place.path
      (array items) (array (items ++ added.flatMap fun j => others[j]?.toList)) := by
  induction added generalizing items with
  | nil => simpa using Effect.nil place.path (array items)
  | cons j added ih =>
      rw [List.flatMap_cons, List.flatMap_cons, ← List.append_assoc]
      refine .append ?_ (ih _)
      cases hb : others[j]? with
      | none => simpa [addedItems, hb, Stage.edits] using Effect.nil place.path (array items)
      | some b =>
          rw [addedItems_of_getElem? hb]
          have hadd : (array items).addChild? (.index j) b = some (array (items ++ [b])) := rfl
          exact .add hadd

theorem effect_addMembers (place : Location) {added : List (String × Document)}
    (h : ((members ++ added).map Prod.fst).Nodup) :
    Effect (Stage.keyAdded.edits (added.map fun m => .keyAdded (place.key m.1) m.2)) place.path
      (object members) (object (members ++ added)) := by
  induction added generalizing members with
  | nil => simpa [Stage.edits] using Effect.nil place.path (object members)
  | cons m added ih =>
      obtain ⟨key, value⟩ := m
      have hkey : key ∉ members.map Prod.fst := by
        simp only [List.map_append, List.map_cons] at h
        exact fun hk => (List.nodup_append.1 h).2.2 key hk key List.mem_cons_self rfl
      have hrest := @ih (members ++ [(key, value)]) (by simpa using h)
      have hfirst : Effect [.add (place.path ++ [.key key]) value] place.path (object members)
          (object (members ++ [(key, value)])) := .add (by rw [addChild?, if_neg hkey])
      have hall := hfirst.append hrest
      rw [List.append_assoc, List.singleton_append] at hall
      exact hall

theorem edits_addedItems_of_ne (h : stage ≠ .itemAdded) (others : List Document)
    (place : Location) (j : Nat) : stage.edits (addedItems others place j) = [] := by
  apply Stage.edits_eq_nil
  intro change hchange
  obtain ⟨value, _, rfl⟩ := List.mem_map.1 hchange
  exact fun heq => h (Option.some.inj heq).symm

theorem edits_addedMembers_of_ne (h : stage ≠ .keyAdded)
    (members others : List (String × Document)) (place : Location) :
    stage.edits (addedMembers members others place) = [] := by
  apply Stage.edits_eq_nil
  intro change hchange
  obtain ⟨m, _, rfl⟩ := List.mem_map.1 hchange
  exact fun heq => h (Option.some.inj heq).symm

theorem edits_moves (others : List Document) (place : Location) (m : Nat × Nat) :
    stage.edits (moves options others place m) = [] := by
  apply Stage.edits_eq_nil
  intro change hchange
  rw [moves] at hchange
  split at hchange
  · obtain ⟨value, _, rfl⟩ := List.mem_map.1 hchange
    exact (Option.some_ne_none stage).symm
  · cases hchange

end Additions

/-! One more stage. -/

/-- What may be done next: no stage twice, additions forwards, and items are removed last and
backwards. -/
structure Allowed (stage : Stage) (backwards : Bool) : Prop where
  fresh : done stage = false
  itemsKept : done .itemRemoved = false
  removesBackwards : stage = .itemRemoved → backwards = true
  addsForwards : stage = .keyAdded ∨ stage = .itemAdded → backwards = false

instance (stage : Stage) (backwards : Bool) : Decidable (Allowed done stage backwards) :=
  decidable_of_iff (done stage = false ∧ done .itemRemoved = false ∧
      (stage = .itemRemoved → backwards = true) ∧
      (stage = .keyAdded ∨ stage = .itemAdded → backwards = false))
    ⟨fun h => ⟨h.1, h.2.1, h.2.2.1, h.2.2.2⟩, fun h => ⟨h.1, h.2, h.3, h.4⟩⟩

variable [StandardHash]

/-- The edits of a stage lead from the revision before it to the one after it. -/
def Advances (stage : Stage) (backwards : Bool) (a b : Document) : Prop :=
  ∀ place, Effect (directed backwards (stage.edits (changes options a b place))) place.path
    (revised options done a b) (revised options (Function.update done stage true) a b)

section Stage

variable {stage : Stage} {backwards : Bool} {items others : List Document}
  {members otherMembers : List (String × Document)} {leftovers : List (Nat × Option Nat)}
  {place : Location} {i : Nat} {a b : Document}

theorem advances_whole (h : a.kind.isContainer = false ∨ a.kind ≠ b.kind)
    (hfresh : done stage = false) : Advances options done stage backwards a b := by
  intro place
  rw [changes_whole options h, revised_whole options done h, revised_whole options _ h]
  cases a.equal false b with
  | true =>
      rw [if_pos rfl, Bool.not_true, Bool.and_false, Bool.and_false, if_neg Bool.false_ne_true]
      rw [Stage.edits_nil, directed_nil]
      exact .nil _ _
  | false =>
      rw [if_neg Bool.false_ne_true, Bool.not_false, Bool.and_true, Bool.and_true]
      by_cases hstage : stage = .replaced
      · subst hstage
        have hedits : Stage.replaced.edits [.valueChanged place a b] =
            [.replace place.path b] := rfl
        rw [hedits, directed_singleton, hfresh, Function.update_self]
        exact .replace place.path a b
      · have hedits : stage.edits [.valueChanged place a b] = [] :=
          stage.edits_singleton_of_ne fun h => hstage (Option.some.inj h).symm
        rw [hedits, directed_nil, Function.update_of_ne (Ne.symm hstage)]
        exact .nil _ _

/-! Arrays. -/

/-- The edits of the item at an index. -/
def itemEdits (stage : Stage) (items others : List Document) (leftovers : List (Nat × Option Nat))
    (place : Location) (i : Nat) : List Edit :=
  ((leftovers.lookup i).map fun partner => stage.edits
    (leftoverChanges (items.map (changes options)) items others place (i, partner))).getD []

/-- The edits of one item exchange what stands for it. -/
theorem effect_currentItem (hkept : done .itemRemoved = false) (ha : items[i]? = some a)
    (hfate : Fate leftovers others i) (ih : ∀ b ∈ others, Advances options done stage backwards a b)
    {front : List Document} (hfront : front.length = i) (behind : List Document) :
    Effect (directed backwards (itemEdits options stage items others leftovers place i)) place.path
      (array (front ++ (currentItem options done items others leftovers i ++ behind)))
      (array (front ++ (currentItem options (Function.update done stage true) items others leftovers
        i ++ behind))) := by
  cases hfate with
  | matched h =>
      rw [currentItem_matched options _ ha h, currentItem_matched options _ ha h, itemEdits, h,
        Option.map_none, Option.getD_none, directed_nil]
      exact .nil _ _
  | removed h =>
      rw [currentItem_removed options _ ha h, currentItem_removed options _ ha h, itemEdits, h,
        Option.map_some, Option.getD_some, leftoverChanges_alone ha, hkept]
      by_cases hstage : stage = .itemRemoved
      · subst hstage
        have hedits : Stage.itemRemoved.edits [.itemRemoved (place.index i) a] =
            [.delete (place.path ++ [.index i])] := rfl
        rw [hedits, directed_singleton, Function.update_self]
        exact .delete (eraseChild?_array_middle hfront)
      · have hedits : stage.edits [.itemRemoved (place.index i) a] = [] :=
          stage.edits_singleton_of_ne fun h => hstage (Option.some.inj h).symm
        rw [hedits, directed_nil, Function.update_of_ne (Ne.symm hstage), hkept]
        exact .nil _ _
  | @compared j b h hb =>
      rw [currentItem_compared options _ ha hb h, currentItem_compared options _ ha hb h, itemEdits,
        h, Option.map_some, Option.getD_some, leftoverChanges_partner options ha hb]
      exact effect_item (ih b (List.mem_of_getElem? hb) (place.index i)) hfront behind

/-- The edits of two arrays: those of the items, and the additions. -/
theorem edits_array (stage : Stage) (items others : List Document) (place : Location) :
    stage.edits (changes options (array items) (array others) place) =
      (List.range items.length).flatMap
          (itemEdits options stage items others (options.align items others).leftovers place) ++
        (options.align items others).added.flatMap fun j =>
          stage.edits (addedItems others place j) := by
  have hsub := (options.covers_align items others).leftovers_sublist
  rw [List.range_eq_range'] at hsub ⊢
  rw [changes_array_align, Stage.edits_append, Stage.edits_append, Stage.edits_flatMap,
    Stage.edits_flatMap, Stage.edits_flatMap, List.flatMap_eq_nil_iff.2 fun m _ => edits_moves ..,
    List.nil_append, Alignment.flatMap_leftovers hsub]
  rfl

theorem effect_revised_items (h : Allowed done stage backwards)
    (ih : ∀ a ∈ items, ∀ b ∈ others, Advances options done stage backwards a b) (place : Location)
    (rest : List Document) :
    Effect (directed backwards ((List.range items.length).flatMap
        (itemEdits options stage items others (options.align items others).leftovers place)))
      place.path
      (array ((List.range items.length).flatMap
        (currentItem options done items others (options.align items others).leftovers) ++ rest))
      (array ((List.range items.length).flatMap
        (currentItem options (Function.update done stage true) items others
          (options.align items others).leftovers) ++ rest)) := by
  have hfate := fate_of_covers (options.covers_align items others)
  refine Effect.walk backwards rest fun front i behind hsplit tail => ?_
  have hi : i < items.length := List.mem_range.1 (hsplit ▸ by simp)
  have ha := List.getElem?_eq_getElem hi
  have hplace : front.length = i := by
    have hget : (List.range items.length)[front.length]? = some i := by simp [hsplit]
    obtain ⟨hlt, heq⟩ := List.getElem?_eq_some_iff.1 hget
    rwa [List.getElem_range] at heq
  refine effect_currentItem options done h.itemsKept ha (hfate i) (ih _ (List.getElem_mem hi)) ?_
    tail
  -- The index is still valid: one value stands for each item in front.
  have hlength : ∀ done' : Stage → Bool, done' .itemRemoved = false →
      (front.flatMap (currentItem options done' items others
        (options.align items others).leftovers)).length = i := by
    intro done' hdone'
    rw [← hplace]
    apply length_flatMap_of_forall_eq_one
    intro k hk
    have hk' : k < items.length := List.mem_range.1 (hsplit ▸ List.mem_append_left _ hk)
    exact length_currentItem options done' hdone' (List.getElem?_eq_getElem hk') (hfate k)
  cases backwards with
  | true => exact hlength done h.itemsKept
  | false =>
      have hstage : stage ≠ .itemRemoved := fun heq => Bool.false_ne_true (h.removesBackwards heq)
      exact hlength _ (by rw [Function.update_of_ne (Ne.symm hstage), h.itemsKept])

theorem advances_array (h : Allowed done stage backwards)
    (ih : ∀ a ∈ items, ∀ b ∈ others, Advances options done stage backwards a b) :
    Advances options done stage backwards (array items) (array others) := by
  intro place
  have hitems := effect_revised_items options done h ih place
  rw [edits_array, revised_array, revised_array]
  by_cases hstage : stage = .itemAdded
  · subst hstage
    obtain rfl := h.addsForwards (.inr rfl)
    have hitems := hitems []
    rw [List.append_nil, List.append_nil] at hitems
    rw [h.fresh, Function.update_self, if_neg Bool.false_ne_true, if_pos rfl, List.append_nil]
    exact hitems.append (effect_addItems others place _ _)
  · rw [Function.update_of_ne (Ne.symm hstage), List.flatMap_eq_nil_iff.2 fun j _ =>
      edits_addedItems_of_ne hstage others place j, List.append_nil]
    exact hitems _

/-! Objects. -/

/-- The edits of one old member exchange what stands for it. -/
theorem effect_revisedMember {m : String × Document}
    (ih : ∀ b, otherMembers.lookup m.1 = some b → Advances options done stage backwards m.2 b)
    (hfresh : done stage = false)
    {before : List (String × Document)} (hbefore : m.1 ∉ before.map Prod.fst)
    (after : List (String × Document)) :
    Effect (directed backwards (stage.edits (memberChange options otherMembers place m))) place.path
      (object (before ++ (revisedMember options done otherMembers m ++ after)))
      (object (before ++ (revisedMember options (Function.update done stage true) otherMembers m ++
        after))) := by
  rw [memberChange, revisedMember, revisedMember]
  cases hl : otherMembers.lookup m.1 with
  | some b => exact effect_member (ih b hl (place.key m.1)) hbefore after
  | none =>
      by_cases hstage : stage = .keyRemoved
      · subst hstage
        have hedits : Stage.keyRemoved.edits [.keyRemoved (place.key m.1) m.2] =
            [.delete (place.path ++ [.key m.1])] := rfl
        simp only [hedits, directed_singleton, Function.update_self, hfresh]
        exact .delete (eraseChild?_object_middle hbefore)
      · have hedits : stage.edits [.keyRemoved (place.key m.1) m.2] = [] :=
          stage.edits_singleton_of_ne fun h => hstage (Option.some.inj h).symm
        simp only [hedits, directed_nil, Function.update_of_ne (Ne.symm hstage)]
        exact .nil _ _

theorem effect_revised_members (hmembers : (members.map Prod.fst).Nodup)
    (hfresh : done stage = false)
    (ih : ∀ m ∈ members, ∀ b, otherMembers.lookup m.1 = some b →
      Advances options done stage backwards m.2 b)
    (place : Location) (rest : List (String × Document)) :
    Effect (directed backwards (stage.edits (memberChanges options members otherMembers place)))
      place.path (object (revisedMembers options done members otherMembers ++ rest))
      (object (revisedMembers options (Function.update done stage true) members otherMembers ++
        rest)) := by
  rw [memberChanges_eq_flatMap, Stage.edits_flatMap, revisedMembers_eq_flatMap,
    revisedMembers_eq_flatMap]
  refine Effect.walk backwards rest fun front m behind hsplit tail => ?_
  have hm : m ∈ members := hsplit ▸ by simp
  refine effect_revisedMember options done (ih m hm) hfresh ?_ tail
  -- Keys are distinct, and revisions in front of the member bring no new ones.
  have hfront : m.1 ∉ front.map Prod.fst := by
    rw [hsplit, List.map_append, List.map_cons] at hmembers
    exact fun h => (List.nodup_append.1 hmembers).2.2 _ h _ List.mem_cons_self rfl
  have hkeys : ∀ done' : Stage → Bool,
      m.1 ∉ (front.flatMap (revisedMember options done' otherMembers)).map Prod.fst := by
    intro done' h
    rw [← revisedMembers_eq_flatMap] at h
    exact hfront ((keys_revisedMembers_sublist options done' front otherMembers).subset h)
  cases backwards with
  | true => exact hkeys done
  | false => exact hkeys _

theorem advances_object (h : Allowed done stage backwards)
    (hmembers : (members.map Prod.fst).Nodup) (hothers : (otherMembers.map Prod.fst).Nodup)
    (ih : ∀ m ∈ members, ∀ b, otherMembers.lookup m.1 = some b →
      Advances options done stage backwards m.2 b) :
    Advances options done stage backwards (object members) (object otherMembers) := by
  intro place
  have holdMembers := effect_revised_members options done hmembers h.fresh ih place
  rw [changes, Stage.edits_append, revised, revised]
  by_cases hstage : stage = .keyAdded
  · subst hstage
    obtain rfl := h.addsForwards (.inl rfl)
    have holdMembers := holdMembers []
    rw [List.append_nil, List.append_nil] at holdMembers
    rw [h.fresh, Function.update_self, if_neg Bool.false_ne_true, if_pos rfl, List.append_nil]
    exact holdMembers.append (effect_addMembers place
      (nodup_keys_revised options _ hmembers hothers))
  · rw [Function.update_of_ne (Ne.symm hstage), edits_addedMembers_of_ne hstage, List.append_nil]
    exact holdMembers _

/-- One more stage leads from one revision to the next. -/
theorem advances (h : Allowed done stage backwards) (ha : a.KeysDistinct) (hb : b.KeysDistinct) :
    Advances options done stage backwards a b := by
  induction a, b using Document.pairInduction with
  | whole a b hwhole => exact advances_whole options done hwhole h.fresh
  | array items others ih =>
      rw [keysDistinct_array] at ha hb
      exact advances_array options done h fun a hi b ho => ih a hi b ho (ha a hi) (hb b ho)
  | object members others ih =>
      obtain ⟨hkeys, hvalues⟩ := keysDistinct_object.1 ha
      obtain ⟨hotherKeys, hotherValues⟩ := keysDistinct_object.1 hb
      refine advances_object options done h hkeys hotherKeys fun m hm b hl => ?_
      have ho := Members.mem_of_lookup hl
      exact ih m hm _ ho (hvalues m hm) (hotherValues _ ho)

/-! Stage after stage. -/

/-- Each stage is allowed after those in front of it. -/
def Admissible (done : Stage → Bool) : List (Stage × Bool) → Prop
  | [] => True
  | (stage, backwards) :: schedule =>
    Allowed done stage backwards ∧ Admissible (Function.update done stage true) schedule

instance decidableAdmissible (done : Stage → Bool) :
    (schedule : List (Stage × Bool)) → Decidable (Admissible done schedule)
  | [] => .isTrue trivial
  | (stage, backwards) :: schedule =>
    have := decidableAdmissible (Function.update done stage true) schedule
    inferInstanceAs (Decidable (Allowed done stage backwards ∧ _))

/-- What is done after a schedule. -/
def finished (done : Stage → Bool) (schedule : List (Stage × Bool)) : Stage → Bool :=
  schedule.foldl (fun done step => Function.update done step.1 true) done

/-- An admissible schedule leads from one revision to another. -/
theorem effect_schedule {schedule : List (Stage × Bool)} (h : Admissible done schedule)
    (ha : a.KeysDistinct) (hb : b.KeysDistinct) (place : Location) :
    Effect (schedule.flatMap fun step => directed step.2 (step.1.edits (changes options a b place)))
      place.path (revised options done a b) (revised options (finished done schedule) a b) := by
  induction schedule generalizing done with
  | nil => exact .nil _ _
  | cons step schedule ih =>
      obtain ⟨hstep, hrest⟩ := h
      rw [List.flatMap_cons]
      exact (advances options done hstep ha hb place).append (ih _ hrest)

end Stage

end Document

end JsonDelta
