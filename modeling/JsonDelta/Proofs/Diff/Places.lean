import JsonDelta.Proofs.Diff.Comparisons
/-!
The places of the records. Old and new indices of an array are not told apart by a path, so a
removal and an addition can share one. Main statement: two records of a kind never do, and in order
no record is at or under the place of another, whatever their kinds.
-/

namespace JsonDelta

namespace Document

variable {options : DiffOptions} {old new a b : Document} {place : Location} {s t : Step}
  {c d : Change}

/-! Two changes of one side. -/

variable [StandardHash]

theorem parted_of_mem_changes (hst : s.segment ≠ t.segment) (hc : c ∈ s.changes options place)
    (hd : d ∈ t.changes options place) : c.place.path.Parted d.place.path :=
  ⟨place.path, s.segment, t.segment, hst, Step.prefix_of_mem_changes hc,
    Step.prefix_of_mem_changes hd⟩

/-- What is new is at a child, or under a child of the old side. -/
theorem ne_of_mem_changes_of_new (hs : s.inOld = true) (ht : t.inOld = false)
    (hc : c ∈ s.changes options place) (hd : d ∈ t.changes options place)
    (hnew : c.inOld = false) : c.place.path ≠ d.place.path := by
  have hunder : c.place.path.Under (place.child s.segment).path := by
    cases s with
    | compared segment x y => exact under_of_mem_changes_of_new hnew hc
    | removed segment value =>
        obtain rfl := List.mem_singleton.1 hc
        rw [Step.inOld_removal] at hnew
        cases hnew
    | added | moved => cases hs
  rw [(Step.place_of_mem_changes_of_new ht hd).1]
  exact hunder.ne_child t.segment

theorem ne_of_mem_changes (hst : s.inOld = t.inOld → s.segment ≠ t.segment)
    (hc : c ∈ s.changes options place) (hd : d ∈ t.changes options place)
    (hside : c.inOld = d.inOld) : c.place.path ≠ d.place.path := by
  cases hs : s.inOld <;> cases ht : t.inOld
  case true.true | false.false =>
    exact (parted_of_mem_changes (hst (hs.trans ht.symm)) hc hd).ne
  case true.false =>
    have hnew := (Step.place_of_mem_changes_of_new ht hd).2
    exact ne_of_mem_changes_of_new hs ht hc hd (hside.trans hnew)
  case false.true =>
    have hnew := (Step.place_of_mem_changes_of_new hs hc).2
    exact (ne_of_mem_changes_of_new ht hs hd hc (hside.symm.trans hnew)).symm

theorem pairwise_steps_of_keysDistinct (options : DiffOptions) (ha : a.KeysDistinct)
    (hb : b.KeysDistinct) :
    (steps options a b).Pairwise fun s t => s.inOld = t.inOld → s.segment ≠ t.segment :=
  pairwise_steps ((pairwise_oldSteps ha).imp ChildBefore.ne) (pairwise_newSide hb)

theorem pairwise_ne_diff (options : DiffOptions) (ho : old.KeysDistinct) (hn : new.KeysDistinct) :
    (old.diff options new).Pairwise fun c d =>
      c.inOld = d.inOld → c.place.path ≠ d.place.path := by
  refine pairwise_diff_of_steps fun a b place hab => ?_
  have hsteps := pairwise_steps_of_keysDistinct options (hab.get?_old ho).2
    (hab.keysDistinct_new hn)
  exact hsteps.imp fun hst c hc d hd hside => ne_of_mem_changes hst hc hd hside

/-! Any two changes, in order. -/

/-- In order, a new child has no old one at its place. -/
theorem child?_eq_none_of_mem_steps (hmode : options.ignoreOrder = false)
    (h : s ∈ steps options a b) (hnew : s.inOld = false) : a.child? s.segment = none := by
  have hmem : s ∈ moveSteps options a b ++ newSteps options a b := by
    rw [← filter_not_inOld_steps, List.mem_filter, hnew]
    exact ⟨h, rfl⟩
  obtain ⟨items, others, rfl, rfl⟩ | ⟨members, others, rfl, rfl⟩ :=
    exists_of_sameContainer (sameContainer_of_mem_steps h)
  · rw [moveSteps, newSteps, DiffOptions.align_inOrder hmode] at hmem
    obtain ⟨j, hj, hstep⟩ := List.mem_filterMap.1 hmem
    rw [(newItemStep?_eq_some hstep).1]
    exact List.getElem?_eq_none (Alignment.mem_added_byIndex.1 hj).1
  · obtain ⟨m, -, hstep⟩ := List.mem_filterMap.1 hmem
    obtain ⟨hsegment, -, hnone⟩ := newMemberStep?_eq_some hstep
    rw [hsegment]
    exact hnone

theorem pairwise_steps_inOrder (hmode : options.ignoreOrder = false) (ha : a.KeysDistinct)
    (hb : b.KeysDistinct) : (steps options a b).Pairwise fun s t => s.segment ≠ t.segment := by
  have hsome {s : Step} (hs : s ∈ steps options a b) (hold : s.inOld = true) :
      a.child? s.segment ≠ none := by
    obtain ⟨value, hvalue⟩ := Option.isSome_iff_exists.1 hold
    rw [child?_of_mem_steps ha hs hvalue]
    exact Option.some_ne_none value
  refine (pairwise_steps_of_keysDistinct options ha hb).imp_of_mem fun {s t} hs ht hst heq => ?_
  cases hsold : s.inOld <;> cases htold : t.inOld
  case true.true | false.false => exact hst (hsold.trans htold.symm) heq
  case true.false => exact hsome hs hsold (heq ▸ child?_eq_none_of_mem_steps hmode ht htold)
  case false.true => exact hsome ht htold (heq ▸ child?_eq_none_of_mem_steps hmode hs hsold)

theorem pairwise_parted_diff (hmode : options.ignoreOrder = false) (ho : old.KeysDistinct)
    (hn : new.KeysDistinct) :
    (old.diff options new).Pairwise fun c d => c.place.path.Parted d.place.path := by
  refine pairwise_diff_of_steps fun a b place hab => ?_
  have hsteps := pairwise_steps_inOrder hmode (hab.get?_old ho).2 (hab.keysDistinct_new hn)
  exact hsteps.imp fun hst c hc d hd => parted_of_mem_changes hst hc hd

end Document

namespace ChangeSet

variable {options : DiffOptions} {old new : Document}

/-- No two records of a kind have the same path. -/
structure PathsDistinct (set : ChangeSet) : Prop where
  keyAdded : (set.keyAdded.map fun r => r.place.path).Nodup
  keyRemoved : (set.keyRemoved.map fun r => r.place.path).Nodup
  itemAdded : (set.itemAdded.map fun r => r.place.path).Nodup
  itemRemoved : (set.itemRemoved.map fun r => r.place.path).Nodup
  valueChanged : (set.valueChanged.map fun r => r.place.path).Nodup
  itemMoved : (set.itemMoved.map fun r => r.place.path).Nodup

section AnyHash

variable [StandardHash]

theorem pathsDistinct_between (options : DiffOptions) (ho : old.KeysDistinct)
    (hn : new.KeysDistinct) : (between options old new).PathsDistinct := by
  have hdiff := Document.pairwise_ne_diff options ho hn
  obtain ⟨hkeyRemoved, hitemRemoved, hvalueChanged⟩ := pairwise_paths_old
    (hdiff.imp fun hcd hc hd => hcd (hc.trans hd.symm))
  obtain ⟨hkeyAdded, hitemAdded, hitemMoved⟩ := pairwise_paths_new
    (hdiff.imp fun hcd hc hd => hcd (hc.trans hd.symm))
  exact ⟨hkeyAdded, hkeyRemoved, hitemAdded, hitemRemoved, hvalueChanged, hitemMoved⟩

omit [StandardHash] in
/-- The places of the records are those of the changes, bucket by bucket. -/
theorem places_ofChanges_perm (changes : List Change) :
    (ofChanges changes).places.Perm (changes.map Change.place) := by
  induction changes with
  | nil => exact .refl _
  | cons change changes ih =>
      refine .trans ?_ (ih.cons change.place)
      -- The new place stands in front of its bucket, and the buckets before it are passed over.
      cases change with
      | keyAdded => exact .refl _
      | keyRemoved =>
          exact (((List.perm_middle.append_right _).append_right _).append_right _).append_right _
      | itemAdded => exact ((List.perm_middle.append_right _).append_right _).append_right _
      | itemRemoved => exact (List.perm_middle.append_right _).append_right _
      | valueChanged => exact List.perm_middle.append_right _
      | itemMoved => exact List.perm_middle

/-- In order the places of all records part. -/
theorem pairwise_places_inOrder (hmode : options.ignoreOrder = false) (ho : old.KeysDistinct)
    (hn : new.KeysDistinct) :
    (between options old new).places.Pairwise fun p q => p.path.Parted q.path := by
  have hsymm {p q : Location} (h : p.path.Parted q.path) : q.path.Parted p.path := h.symm
  refine ((places_ofChanges_perm _).pairwise_iff hsymm).2 ?_
  rw [List.pairwise_map]
  exact Document.pairwise_parted_diff hmode ho hn

/-- Records of a kind have different paths, and in order no record is at or under another. -/
theorem pathsDistinct_and_pairwise_places (options : DiffOptions) (ho : old.KeysDistinct)
    (hn : new.KeysDistinct) :
    (between options old new).PathsDistinct ∧
      (options.ignoreOrder = false → (between options old new).places.Pairwise fun p q =>
        p.path ≠ q.path ∧ ¬ p.path <+: q.path ∧ ¬ q.path <+: p.path) := by
  refine ⟨pathsDistinct_between options ho hn, fun hmode => ?_⟩
  exact (pairwise_places_inOrder hmode ho hn).imp fun h =>
    ⟨h.ne, h.not_prefix, h.symm.not_prefix⟩

end AnyHash

/-- Records of four kinds at three depths. -/
theorem pathsDistinct_and_pairwise_places_nested :
    let old := Document.object [("a", .array [.null, .object [("x", .null), ("y", .null)],
      .bool true]), ("b", .null)]
    let new := Document.object [("c", .null), ("a", .array [.string "z", .object [("y", .array []),
      ("z", .null)]]), ("d", .null)]
    let set := between { ignoreOrder := false } old new
    set.PathsDistinct ∧
      (set.places.Pairwise fun p q =>
        p.path ≠ q.path ∧ ¬ p.path <+: q.path ∧ ¬ q.path <+: p.path) ∧
      set.places.map Location.accessor =
        ["root['a'][1]['z']", "root['c']", "root['d']", "root['a'][1]['x']", "root['b']",
          "root['a'][2]", "root['a'][0]", "root['a'][1]['y']"] := by
  intro old new set
  have ho : old.KeysDistinct := by
    simp [old, Document.KeysDistinct, Document.ItemsDistinct, Document.MembersDistinct]
  have hn : new.KeysDistinct := by
    simp [new, Document.KeysDistinct, Document.ItemsDistinct, Document.MembersDistinct]
  obtain ⟨hdistinct, hinOrder⟩ :=
    pathsDistinct_and_pairwise_places { ignoreOrder := false } ho hn
  exact ⟨hdistinct, hinOrder rfl, by decide⟩

/-- In any order a removal and an addition can have the same path. -/
example :
    let set := between {} (.array [.null]) (.array [.bool true])
    set.itemRemoved.map (fun r => r.place.path) = [[.index 0]] ∧
      set.itemAdded.map (fun r => r.place.path) = [[.index 0]] := by
  decide

end ChangeSet

end JsonDelta
