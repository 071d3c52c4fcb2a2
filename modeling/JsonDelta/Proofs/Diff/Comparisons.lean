import JsonDelta.Proofs.Diff.Steps
import JsonDelta.Proofs.Document.Edit
/-!
The comparisons of a walk: that of the two documents and, where two containers are compared, those
that their steps make. Main statements: what holds between the changes of any two steps of every
comparison holds between any two changes of the walk, and the changes under the place of a
comparison are its own.
-/

namespace JsonDelta

/-- The change is located in the old document. -/
def Change.inOld : Change → Bool
  | .keyRemoved .. | .itemRemoved .. | .valueChanged .. => true
  | .keyAdded .. | .itemAdded .. | .itemMoved .. => false

namespace Document

variable {options : DiffOptions} {old new a b c d : Document} {place : Location}
  {segment : Segment} {change : Change} {s t : Step} {items others : List Document}
  {members otherMembers : List (String × Document)}

/-! What is compared by a step. -/

variable [StandardHash]

theorem compared_mem_steps_array_iff :
    .compared segment c d ∈ steps options (array items) (array others) ↔
      ∃ i j : Nat, segment = .index i ∧ (i, some j) ∈ (options.align items others).leftovers ∧
        items[i]? = some c ∧ others[j]? = some d := by
  rw [mem_steps_iff_mem_oldSteps rfl, oldSteps, List.mem_filterMap, Prod.exists]
  refine exists_congr fun i => ⟨?_, ?_⟩
  · rintro ⟨partner, hi, hstep⟩
    cases partner with
    | none =>
        obtain ⟨item, -, hremoved⟩ := Option.map_eq_some_iff.1 hstep
        cases hremoved
    | some j =>
        rw [leftoverStep?] at hstep
        split at hstep
        · cases hstep
          exact ⟨j, rfl, hi, ‹_›, ‹_›⟩
        · cases hstep
  · rintro ⟨j, rfl, hi, hc, hd⟩
    exact ⟨some j, hi, by rw [leftoverStep?, hc, hd]⟩

theorem compared_mem_steps_object_iff :
    .compared segment c d ∈ steps options (object members) (object otherMembers) ↔
      ∃ key, segment = .key key ∧ (key, c) ∈ members ∧ otherMembers.lookup key = some d := by
  rw [mem_steps_iff_mem_oldSteps rfl, oldSteps, List.mem_map, Prod.exists]
  refine exists_congr fun key => ⟨?_, ?_⟩
  · rintro ⟨value, hmem, hstep⟩
    rw [memberStep] at hstep
    split at hstep <;> cases hstep
    exact ⟨rfl, hmem, ‹_›⟩
  · rintro ⟨rfl, hmem, hd⟩
    exact ⟨c, hmem, by rw [memberStep, hd]⟩

/-- Only containers of one kind have steps. -/
theorem sameContainer_of_mem_steps (h : s ∈ steps options a b) :
    Alignment.sameContainer a b = true := by
  cases a <;> cases b <;> simp [steps, moveSteps, oldSteps, newSteps] at h <;> rfl

/-- What holds of two documents whenever it holds of all that their steps compare, holds of any
two. -/
theorem stepInduction (options : DiffOptions) {motive : Document → Document → Prop}
    (whole : ∀ a b, a.kind.isContainer = false ∨ a.kind ≠ b.kind → motive a b)
    (container : ∀ a b, Alignment.sameContainer a b = true →
      (∀ segment c d, .compared segment c d ∈ steps options a b → motive c d) → motive a b)
    (a b : Document) : motive a b := by
  induction a, b using Document.pairInduction with
  | whole a b hwhole => exact whole a b hwhole
  | array items others ih =>
      refine container _ _ rfl fun segment c d hstep => ?_
      obtain ⟨i, j, -, -, hc, hd⟩ := compared_mem_steps_array_iff.1 hstep
      exact ih c (List.mem_of_getElem? hc) d (List.mem_of_getElem? hd)
  | object members others ih =>
      refine container _ _ rfl fun segment c d hstep => ?_
      obtain ⟨key, -, hc, hd⟩ := compared_mem_steps_object_iff.1 hstep
      exact ih _ hc _ (Members.mem_of_lookup hd)

/-- The comparisons of the walk through two documents, each at the place of its old side. -/
inductive Compared (options : DiffOptions) (old new : Document) :
    Document → Document → Location → Prop
  | root : Compared options old new old new .root
  | child {a b c d : Document} {place : Location} {segment : Segment}
      (h : Compared options old new a b place)
      (hstep : .compared segment c d ∈ steps options a b) :
      Compared options old new c d (place.child segment)

namespace Compared

theorem accurate (h : Compared options old new a b place) : place.Accurate := by
  induction h with
  | root => exact Location.accurate_root
  | child _ _ ih => exact ih.child _

theorem get?_old (h : Compared options old new a b place) (ho : old.KeysDistinct) :
    old.get? place.path = some a ∧ a.KeysDistinct := by
  induction h with
  | root => exact ⟨get?_nil old, ho⟩
  | child h hstep ih =>
      obtain ⟨hget, ha⟩ := ih
      have hchild := child?_of_mem_steps ha hstep rfl
      exact ⟨(get?_child hget _).trans hchild, keysDistinct_of_child? ha hchild⟩

theorem keysDistinct_new (h : Compared options old new a b place) (hn : new.KeysDistinct) :
    b.KeysDistinct := by
  induction h with
  | root => exact hn
  | child h hstep hb =>
      obtain ⟨items, others, rfl, rfl⟩ | ⟨members, others, rfl, rfl⟩ :=
        exists_of_sameContainer (sameContainer_of_mem_steps hstep)
      · obtain ⟨i, j, -, -, -, hd⟩ := compared_mem_steps_array_iff.1 hstep
        exact keysDistinct_array.1 hb _ (List.mem_of_getElem? hd)
      · obtain ⟨key, -, -, hd⟩ := compared_mem_steps_object_iff.1 hstep
        exact (keysDistinct_object.1 hb).2 _ (Members.mem_of_lookup hd)

end Compared

/-- What holds between the changes of any two steps holds between any two changes. -/
theorem pairwise_diff_of_steps {r : Change → Change → Prop}
    (h : ∀ a b place, Compared options old new a b place → (steps options a b).Pairwise fun s t =>
      ∀ c ∈ s.changes options place, ∀ d ∈ t.changes options place, r c d) :
    (old.diff options new).Pairwise r := by
  suffices hwalk : ∀ a b place, Compared options old new a b place →
      (changes options a b place).Pairwise r from hwalk old new .root .root
  intro a b
  induction a, b using stepInduction options with
  | whole a b hwhole =>
      intro place _
      rw [changes_whole options hwhole]
      split
      · exact .nil
      · exact List.pairwise_singleton ..
  | container a b hcontainer ih =>
      intro place hab
      rw [changes_eq_flatMap_steps hcontainer, List.pairwise_flatMap]
      refine ⟨fun s hs => ?_, h a b place hab⟩
      cases s with
      | compared segment c d => exact ih segment c d hs _ (hab.child hs)
      | _ => exact List.pairwise_singleton ..

/-! Where the changes of a comparison are. -/

theorem Recorded.prefix_place (h : Recorded options a b place change) :
    place.path <+: change.place.path := by
  induction h with
  | valueChanged => exact List.prefix_refl _
  | member _ _ _ ih => exact (Path.prefix_child ..).trans ih
  | partner _ _ _ _ ih => exact (Path.prefix_child ..).trans ih
  | _ => exact Path.prefix_child ..

/-- What containers record is under their place; any other two documents are recorded at it. -/
theorem Recorded.under_or_whole (h : Recorded options a b place change) :
    change.place.path.Under place.path ∨
      (a.kind.isContainer = false ∨ a.kind ≠ b.kind) ∧ change = .valueChanged place a b := by
  cases h with
  | valueChanged hwhole hne => exact .inr ⟨hwhole, rfl⟩
  | member _ _ h => exact .inl (Path.under_of_child_prefix h.prefix_place)
  | partner _ _ _ h => exact .inl (Path.under_of_child_prefix h.prefix_place)
  | _ => exact .inl (Path.under_of_child_prefix (List.prefix_refl _))

theorem under_of_mem_changes (hcontainer : Alignment.sameContainer a b = true)
    (h : change ∈ changes options a b place) : change.place.path.Under place.path := by
  obtain hunder | ⟨hwhole, -⟩ := (recorded_of_mem_changes h).under_or_whole
  · exact hunder
  · obtain ⟨hkind, hsame⟩ : a.kind.isContainer = true ∧ a.kind = b.kind := by
      simpa [Alignment.sameContainer] using hcontainer
    rcases hwhole with hscalar | hdiffer
    · rw [hkind] at hscalar
      cases hscalar
    · exact absurd hsame hdiffer

theorem under_of_mem_changes_of_new (hnew : change.inOld = false)
    (h : change ∈ changes options a b place) : change.place.path.Under place.path := by
  obtain hunder | ⟨-, rfl⟩ := (recorded_of_mem_changes h).under_or_whole
  · exact hunder
  · cases hnew

end Document

namespace Step

open Document

variable {options : DiffOptions} {s t : Step} {place : Location} {change : Change}
  {value : Document}

@[simp] theorem place_removal (segment : Segment) :
    (removal place value segment).place = place.child segment := by
  cases segment <;> rfl

@[simp] theorem place_addition (segment : Segment) :
    (addition place value segment).place = place.child segment := by
  cases segment <;> rfl

@[simp] theorem inOld_addition (segment : Segment) :
    (addition place value segment).inOld = false := by
  cases segment <;> rfl

@[simp] theorem inOld_removal (segment : Segment) :
    (removal place value segment).inOld = true := by
  cases segment <;> rfl

variable [StandardHash]

/-- What a step changes is at its child or under it. -/
theorem prefix_of_mem_changes (h : change ∈ s.changes options place) :
    place.path.child s.segment <+: change.place.path := by
  cases s with
  | compared segment a b => exact (recorded_of_mem_changes h).prefix_place
  | removed segment value =>
      obtain rfl := List.mem_singleton.1 h
      rw [place_removal]
      exact List.prefix_refl _
  | added segment value =>
      obtain rfl := List.mem_singleton.1 h
      rw [place_addition]
      exact List.prefix_refl _
  | moved source target value =>
      obtain rfl := List.mem_singleton.1 h
      exact List.prefix_refl _

/-- A step that compares nothing changes its child as a whole, on its own side. -/
theorem place_of_mem_changes (hstep : ∀ segment a b, s ≠ .compared segment a b)
    (h : change ∈ s.changes options place) :
    change.place = place.child s.segment ∧ change.inOld = s.inOld := by
  cases s with
  | compared segment a b => exact absurd rfl (hstep segment a b)
  | moved source target value =>
      obtain rfl := List.mem_singleton.1 h
      exact ⟨rfl, rfl⟩
  | _ =>
      obtain rfl := List.mem_singleton.1 h
      simp [segment, inOld, old?]

theorem place_of_mem_changes_of_new (hs : s.inOld = false)
    (h : change ∈ s.changes options place) :
    change.place = place.child s.segment ∧ change.inOld = false := by
  have hstep (segment : Segment) (a b : Document) : s ≠ .compared segment a b := by
    rintro rfl
    cases hs
  obtain ⟨hplace, hside⟩ := place_of_mem_changes hstep h
  exact ⟨hplace, hside.trans hs⟩

/-- Only a step on the old side changes something there. -/
theorem inOld_of_mem_changes (h : change ∈ s.changes options place) (hold : change.inOld = true) :
    s.inOld = true := by
  by_contra hs
  obtain ⟨-, hnew⟩ := place_of_mem_changes_of_new (Bool.eq_false_of_not_eq_true hs) h
  rw [hold] at hnew
  cases hnew

/-- Under a child are only the changes of the step that compares it. -/
theorem not_under_of_mem_changes {segment : Segment} (h : change ∈ s.changes options place)
    (hs : s.segment = segment → s.inOld = true → ∀ a b, s ≠ .compared segment a b) :
    ¬ change.place.path.Under (place.child segment).path := by
  intro hunder
  by_cases hsegment : s.segment = segment
  · have hplace : change.place = place.child s.segment := by
      refine (place_of_mem_changes ?_ h).1
      rintro segment' a b rfl
      obtain rfl : segment' = segment := hsegment
      exact hs rfl rfl a b rfl
    exact hunder.ne_child s.segment (congrArg Location.path hplace)
  · have hparted : (place.path.child s.segment).Parted (place.path.child segment) :=
      ⟨place.path, s.segment, segment, hsegment, List.prefix_refl _, List.prefix_refl _⟩
    exact hparted.not_prefix_of_prefix (prefix_of_mem_changes h) hunder.1

end Step

/-! The changes under a place. -/

namespace Document

variable {options : DiffOptions} {old new a b c d : Document} {place : Location}
  {segment : Segment} {change : Change}

variable [StandardHash]

theorem filter_under_flatMap_eq_nil {l : List Step}
    (h : ∀ s ∈ l, s.segment = segment → s.inOld = true → ∀ c d, s ≠ .compared segment c d) :
    (l.flatMap (Step.changes options place)).filter
      (fun change => change.place.path.Under (place.child segment).path) = [] := by
  rw [List.filter_eq_nil_iff]
  intro change hchange
  obtain ⟨s, hs, hchange⟩ := List.mem_flatMap.1 hchange
  rw [decide_eq_true_eq]
  exact Step.not_under_of_mem_changes hchange (h s hs)

theorem filter_under_eq_nil (hcontainer : Alignment.sameContainer a b = true)
    (h : ∀ c d, .compared segment c d ∉ steps options a b) :
    (changes options a b place).filter
      (fun change => change.place.path.Under (place.child segment).path) = [] := by
  rw [changes_eq_flatMap_steps hcontainer]
  refine filter_under_flatMap_eq_nil fun s hs _ _ c d hcompared => ?_
  exact h c d (hcompared ▸ hs)

theorem filter_under_eq_self (hcontainer : Alignment.sameContainer a b = true) :
    (changes options a b place).filter (fun change => change.place.path.Under place.path) =
      changes options a b place :=
  List.filter_eq_self.2 fun _ hchange => decide_eq_true (under_of_mem_changes hcontainer hchange)

/-- Under a child that is compared are the changes of its comparison. -/
theorem filter_under_compared (ha : a.KeysDistinct)
    (hstep : .compared segment c d ∈ steps options a b)
    (hcontainer : Alignment.sameContainer c d = true) :
    (changes options a b place).filter
        (fun change => change.place.path.Under (place.child segment).path) =
      changes options c d (place.child segment) := by
  have hsteps := pairwise_steps_old options b ha
  obtain ⟨before, after, heq⟩ := List.append_of_mem hstep
  rw [heq] at hsteps
  obtain ⟨-, hafter, hbefore⟩ := List.pairwise_append.1 hsteps
  -- The other steps on the old side are at other children.
  have hnil {l : List Step} (hl : ∀ s ∈ l, s.inOld = true → s.segment ≠ segment) :
      (l.flatMap (Step.changes options place)).filter
        (fun change => change.place.path.Under (place.child segment).path) = [] :=
    filter_under_flatMap_eq_nil fun s hs hsegment hold => absurd hsegment (hl s hs hold)
  rw [changes_eq_flatMap_steps (sameContainer_of_mem_steps hstep), heq, List.flatMap_append,
    List.flatMap_cons, List.filter_append, List.filter_append, Step.changes,
    filter_under_eq_self hcontainer,
    hnil fun s hs hold => (hbefore s hs _ List.mem_cons_self hold rfl).ne,
    hnil fun s hs hold => ((List.pairwise_cons.1 hafter).1 s hs rfl hold).ne.symm,
    List.nil_append, List.append_nil]

omit [StandardHash] in
theorem filter_under_child (l : List Change) :
    l.filter (fun change => change.place.path.Under (place.child segment).path) =
      (l.filter fun change => change.place.path.Under place.path).filter fun change =>
        change.place.path.Under (place.child segment).path := by
  rw [List.filter_filter]
  refine List.filter_congr fun change _ => ?_
  have hplace : (place.child segment).path.Under place.path :=
    Path.under_of_child_prefix (List.prefix_refl _)
  rw [Bool.eq_iff_iff, Bool.and_eq_true, decide_eq_true_eq, decide_eq_true_eq]
  exact ⟨fun hunder => ⟨hunder, hunder.trans hplace⟩, And.left⟩

/-- The changes under the place of a comparison are its own. -/
theorem Compared.filter_diff (h : Compared options old new a b place) (ho : old.KeysDistinct)
    (hcontainer : Alignment.sameContainer a b = true) :
    (old.diff options new).filter (fun change => change.place.path.Under place.path) =
      changes options a b place := by
  induction h with
  | root => exact filter_under_eq_self hcontainer
  | child h hstep ih =>
      rw [filter_under_child, ih (sameContainer_of_mem_steps hstep),
        filter_under_compared (h.get?_old ho).2 hstep hcontainer]

theorem Compared.recorded_iff (h : Compared options old new a b place) (ho : old.KeysDistinct)
    (hcontainer : Alignment.sameContainer a b = true)
    (hunder : change.place.path.Under place.path) :
    Recorded options old new .root change ↔ Recorded options a b place change := by
  rw [← mem_changes_iff_recorded, ← mem_changes_iff_recorded, ← h.filter_diff ho hcontainer,
    List.mem_filter, decide_eq_true_eq, and_iff_left hunder, diff]

end Document

/-! The buckets, by the side on which their records are located. -/

namespace ChangeSet

variable {changes : List Change} {r : Path → Path → Prop}

theorem pairwise_paths_filterMap {ρ : Type} {bucket : Change → Option ρ} {path : ρ → Path}
    (side : Bool) (hbucket : ∀ c x, bucket c = some x → c.inOld = side ∧ path x = c.place.path)
    (h : changes.Pairwise fun c d =>
      c.inOld = side → d.inOld = side → r c.place.path d.place.path) :
    ((changes.filterMap bucket).map path).Pairwise r := by
  rw [List.pairwise_map, List.pairwise_filterMap]
  refine h.imp fun {c d} hcd x hx y hy => ?_
  obtain ⟨hc, hx⟩ := hbucket c x hx
  obtain ⟨hd, hy⟩ := hbucket d y hy
  rw [hx, hy]
  exact hcd hc hd

theorem pairwise_paths_old (h : changes.Pairwise fun c d =>
      c.inOld = true → d.inOld = true → r c.place.path d.place.path) :
    ((ofChanges changes).keyRemoved.map fun x => x.place.path).Pairwise r ∧
      ((ofChanges changes).itemRemoved.map fun x => x.place.path).Pairwise r ∧
      ((ofChanges changes).valueChanged.map fun x => x.place.path).Pairwise r := by
  refine ⟨pairwise_paths_filterMap true ?_ h, pairwise_paths_filterMap true ?_ h,
    pairwise_paths_filterMap true ?_ h⟩ <;>
  · intro c x hx
    cases c <;> cases hx
    exact ⟨rfl, rfl⟩

theorem pairwise_paths_new (h : changes.Pairwise fun c d =>
      c.inOld = false → d.inOld = false → r c.place.path d.place.path) :
    ((ofChanges changes).keyAdded.map fun x => x.place.path).Pairwise r ∧
      ((ofChanges changes).itemAdded.map fun x => x.place.path).Pairwise r ∧
      ((ofChanges changes).itemMoved.map fun x => x.place.path).Pairwise r := by
  refine ⟨pairwise_paths_filterMap false ?_ h, pairwise_paths_filterMap false ?_ h,
    pairwise_paths_filterMap false ?_ h⟩ <;>
  · intro c x hx
    cases c <;> cases hx
    exact ⟨rfl, rfl⟩

end ChangeSet

end JsonDelta
