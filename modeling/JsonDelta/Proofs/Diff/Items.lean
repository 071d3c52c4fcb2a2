import JsonDelta.Proofs.Diff.Places
import JsonDelta.Proofs.Document.AnyOrder
/-!
The items of two arrays whose order is ignored. Main statement: whatever two arrays the walk
compares, every old item is matched, compared in place with one partner, or removed, every new one
is matched, such a partner, or added, each of them once, and the records at the places of the items
say which. No two items without a match are equal.
-/

namespace JsonDelta

/-! Entries with a key that no other entry has. -/

section Keys

variable {α β : Type} [DecidableEq β] {l : List α} {x : α} {y : β}

theorem filter_eq_singleton_of_nodup_filterMap {f : α → Option β} (h : (l.filterMap f).Nodup)
    (hx : x ∈ l) (hy : f x = some y) : (l.filter fun z => f z = some y) = [x] := by
  obtain ⟨before, after, rfl⟩ := List.append_of_mem hx
  rw [List.filterMap_append, List.filterMap_cons_some hy] at h
  obtain ⟨-, hafter, hbefore⟩ := List.nodup_append.1 h
  have hnil {s : List α} (hs : ∀ k ∈ s.filterMap f, k ≠ y) :
      (s.filter fun z => f z = some y) = [] := by
    rw [List.filter_eq_nil_iff]
    intro z hz heq
    exact hs y (List.mem_filterMap.2 ⟨z, hz, of_decide_eq_true heq⟩) rfl
  rw [List.filter_append, List.filter_cons, if_pos (decide_eq_true hy),
    hnil fun k hk => hbefore k hk y List.mem_cons_self,
    hnil fun k hk heq => (List.nodup_cons.1 hafter).1 (heq ▸ hk), List.nil_append]

theorem filter_eq_singleton_of_nodup_map {f : α → β} (h : (l.map f).Nodup) (hx : x ∈ l) :
    (l.filter fun z => f z = f x) = [x] := by
  have hsome : (l.filterMap fun z => some (f z)).Nodup := by rwa [List.filterMap_eq_map']
  simpa only [Option.some_inj] using filter_eq_singleton_of_nodup_filterMap hsome hx rfl

theorem filter_eq_nil_of_not_mem_map {f : α → β} (h : y ∉ l.map f) :
    (l.filter fun z => f z = y) = [] := by
  rw [List.filter_eq_nil_iff]
  intro z hz heq
  exact h (List.mem_map.2 ⟨z, hz, of_decide_eq_true heq⟩)

end Keys

namespace Alignment

variable {alignment : Alignment} {oldLength newLength i j : Nat} {partner : Option Nat}

/-- The entries of an old index: as matched, and as left over. -/
def ofOld (alignment : Alignment) (i : Nat) : List (Nat × Nat) × List (Nat × Option Nat) :=
  (alignment.matched.filter fun m => m.1 = i, alignment.leftovers.filter fun l => l.1 = i)

/-- The entries of a new index: as matched, as the partner of a leftover, and as added. -/
def ofNew (alignment : Alignment) (j : Nat) :
    List (Nat × Nat) × List (Nat × Option Nat) × List Nat :=
  (alignment.matched.filter fun m => m.2 = j, alignment.leftovers.filter fun l => l.2 = some j,
    alignment.added.filter fun k => k = j)

theorem mem_snd_ofOld :
    (i, partner) ∈ (alignment.ofOld i).2 ↔ (i, partner) ∈ alignment.leftovers := by
  simp [ofOld]

theorem mem_of_ofNew :
    j ∈ (alignment.ofNew j).2.2 ↔ j ∈ alignment.added := by
  simp [ofNew]

/-- An old index has one entry. -/
theorem Covers.ofOld_eq (h : alignment.Covers oldLength newLength) (hi : i < oldLength) :
    (∃ j, (i, j) ∈ alignment.matched ∧ alignment.ofOld i = ([(i, j)], [])) ∨
      ∃ partner, (i, partner) ∈ alignment.leftovers ∧ alignment.ofOld i = ([], [(i, partner)]) := by
  obtain ⟨hmatched, hleftovers, hcross⟩ := List.nodup_append.1 (h.old.nodup_iff.2 List.nodup_range)
  rcases List.mem_append.1 (h.old.symm.subset (List.mem_range.2 hi)) with hmem | hmem
  · obtain ⟨⟨i, j⟩, hij, rfl⟩ := List.mem_map.1 hmem
    refine .inl ⟨j, hij, Prod.ext (filter_eq_singleton_of_nodup_map hmatched hij) ?_⟩
    exact filter_eq_nil_of_not_mem_map fun hleft => hcross _ hmem _ hleft rfl
  · obtain ⟨⟨i, partner⟩, hij, rfl⟩ := List.mem_map.1 hmem
    refine .inr ⟨partner, hij, Prod.ext ?_ (filter_eq_singleton_of_nodup_map hleftovers hij)⟩
    exact filter_eq_nil_of_not_mem_map fun hmatch => hcross _ hmatch _ hmem rfl

/-- A new index has one entry. -/
theorem Covers.ofNew_eq (h : alignment.Covers oldLength newLength) (hj : j < newLength) :
    (∃ i, (i, j) ∈ alignment.matched ∧ alignment.ofNew j = ([(i, j)], [], [])) ∨
      (∃ i, (i, some j) ∈ alignment.leftovers ∧ alignment.ofNew j = ([], [(i, some j)], [])) ∨
        j ∈ alignment.added ∧ alignment.ofNew j = ([], [], [j]) := by
  obtain ⟨hmatched, hrest, hcross⟩ := List.nodup_append.1 (h.new.nodup_iff.2 List.nodup_range)
  obtain ⟨hpartners, hadded, hcross'⟩ := List.nodup_append.1 hrest
  have hnoMatch (hmem : j ∉ alignment.matched.map Prod.snd) :
      (alignment.matched.filter fun m => m.2 = j) = [] :=
    filter_eq_nil_of_not_mem_map hmem
  have hnoPartner (hmem : j ∉ alignment.leftovers.filterMap Prod.snd) :
      (alignment.leftovers.filter fun l => l.2 = some j) = [] := by
    rw [List.filter_eq_nil_iff]
    intro l hl heq
    exact hmem (List.mem_filterMap.2 ⟨l, hl, of_decide_eq_true heq⟩)
  have hnotAdded (hmem : j ∉ alignment.added) : (alignment.added.filter fun k => k = j) = [] :=
    filter_eq_nil_of_not_mem_map (f := id) (by rwa [List.map_id])
  rcases List.mem_append.1 (h.new.symm.subset (List.mem_range.2 hj)) with hmem | hmem
  · obtain ⟨⟨i, j⟩, hij, rfl⟩ := List.mem_map.1 hmem
    have hmatch := filter_eq_singleton_of_nodup_map hmatched hij
    refine .inl ⟨i, hij, Prod.ext hmatch (Prod.ext (hnoPartner fun hp => ?_)
      (hnotAdded fun ha => ?_))⟩
    · exact hcross _ hmem _ (List.mem_append_left _ hp) rfl
    · exact hcross _ hmem _ (List.mem_append_right _ ha) rfl
  · have hnoMatch := hnoMatch fun hm => hcross _ hm _ hmem rfl
    rcases List.mem_append.1 hmem with hmem | hmem
    · obtain ⟨⟨i, partner⟩, hij, rfl⟩ := List.mem_filterMap.1 hmem
      have hpartner := filter_eq_singleton_of_nodup_filterMap hpartners hij rfl
      refine .inr (.inl ⟨i, hij, Prod.ext hnoMatch (Prod.ext hpartner (hnotAdded fun ha => ?_))⟩)
      exact hcross' _ hmem _ ha rfl
    · have hadd : (alignment.added.filter fun k => k = j) = [j] :=
        filter_eq_singleton_of_nodup_map (f := id) (by rwa [List.map_id]) hmem
      refine .inr (.inr ⟨hmem, Prod.ext hnoMatch (Prod.ext (hnoPartner fun hp => ?_) hadd)⟩)
      exact hcross' _ hp _ hmem rfl

end Alignment

namespace ChangeSet

/-- The records at a path of items that were removed. -/
def removedAt (set : ChangeSet) (path : Path) : List ItemChange :=
  set.itemRemoved.filter fun r => r.place.path = path

/-- The records at a path of items that were added. -/
def addedAt (set : ChangeSet) (path : Path) : List ItemChange :=
  set.itemAdded.filter fun r => r.place.path = path

/-- The records under a path. -/
def under (set : ChangeSet) (path : Path) : ChangeSet where
  keyAdded := set.keyAdded.filter fun r => r.place.path.Under path
  keyRemoved := set.keyRemoved.filter fun r => r.place.path.Under path
  itemAdded := set.itemAdded.filter fun r => r.place.path.Under path
  itemRemoved := set.itemRemoved.filter fun r => r.place.path.Under path
  valueChanged := set.valueChanged.filter fun r => r.place.path.Under path
  itemMoved := set.itemMoved.filter fun r => r.place.path.Under path

theorem filter_filterMap_under {ρ : Type} {bucket : Change → Option ρ} {place : ρ → Location}
    (h : ∀ c x, bucket c = some x → place x = c.place) (path : Path) (changes : List Change) :
    ((changes.filterMap bucket).filter fun x => (place x).path.Under path) =
      (changes.filter fun c => c.place.path.Under path).filterMap bucket := by
  rw [List.filter_filterMap, List.filterMap_filter]
  refine List.filterMap_congr fun c _ => ?_
  cases hc : bucket c with
  | none => simp
  | some x => simp [Option.filter, h c x hc]

theorem under_ofChanges (changes : List Change) (path : Path) :
    (ofChanges changes).under path =
      ofChanges (changes.filter fun c => c.place.path.Under path) := by
  unfold under ofChanges
  congr 1 <;>
  · refine filter_filterMap_under ?_ path changes
    intro c x hx
    cases c <;> cases hx
    rfl

end ChangeSet

/-! The records of two arrays that are compared. -/

namespace Document

variable {options : DiffOptions} {old new a b : Document} {items others : List Document}
  {place recorded : Location} {i j : Nat}

variable [StandardHash]

/-- The comparison of partners records nothing at the places of items. -/
theorem path_ne_of_partner {change : Change} {k : Nat}
    (hij : (i, some j) ∈ (Alignment.ofItems items others).leftovers) (ha : items[i]? = some a)
    (hb : others[j]? = some b) (h : Recorded options a b (place.index i) change) :
    change.place.path ≠ (place.index k).path := by
  obtain ⟨a', b', ha', hb', hcontainer⟩ := Alignment.sameContainer_of_mem_leftovers hij
  cases ha.symm.trans ha'
  cases hb.symm.trans hb'
  have hunder := under_of_mem_changes hcontainer h.mem_changes
  exact hunder.ne_child (.index k)

omit [StandardHash] in
theorem index_eq_of_path_eq (h : (place.index i).path = (place.index j).path) : i = j :=
  Segment.index_inj.1 (Path.child_inj.1 h)

theorem recorded_itemRemoved_iff (hmode : options.ignoreOrder = true)
    (hpath : recorded.path = (place.index i).path) :
    Recorded options (array items) (array others) place (.itemRemoved recorded a) ↔
      recorded = place.index i ∧ (i, none) ∈ (Alignment.ofItems items others).leftovers ∧
        items[i]? = some a := by
  constructor
  · intro h
    cases h with
    | itemRemoved hi ha =>
        obtain rfl := index_eq_of_path_eq hpath
        rw [DiffOptions.align_anyOrder hmode] at hi
        exact ⟨rfl, hi, ha⟩
    | partner hij ha hb h =>
        rw [DiffOptions.align_anyOrder hmode] at hij
        exact absurd hpath (path_ne_of_partner hij ha hb h)
  · rintro ⟨rfl, hi, ha⟩
    exact .itemRemoved (DiffOptions.align_anyOrder hmode items others ▸ hi) ha

theorem recorded_itemAdded_iff (hmode : options.ignoreOrder = true)
    (hpath : recorded.path = (place.index j).path) :
    Recorded options (array items) (array others) place (.itemAdded recorded b) ↔
      recorded = place.index j ∧ j ∈ (Alignment.ofItems items others).added ∧
        others[j]? = some b := by
  constructor
  · intro h
    cases h with
    | itemAdded hj hb =>
        obtain rfl := index_eq_of_path_eq hpath
        rw [DiffOptions.align_anyOrder hmode] at hj
        exact ⟨rfl, hj, hb⟩
    | partner hij ha hb h =>
        rw [DiffOptions.align_anyOrder hmode] at hij
        exact absurd hpath (path_ne_of_partner hij ha hb h)
  · rintro ⟨rfl, hj, hb⟩
    exact .itemAdded (DiffOptions.align_anyOrder hmode items others ▸ hj) hb

end Document

namespace ChangeSet

open Document

/-! What became of the items. -/

section Items

variable (options : DiffOptions) (items others : List Document) (place : Location)
  (set : ChangeSet)

variable [StandardHash]

/-- An old item is matched with an equal one, compared in place with a container of its kind, or
removed. It is recorded as removed in the last case only, and under its place are the records of its
comparison. -/
inductive OldItem (i : Nat) (a : Document) : Prop
  | matched {j : Nat} {b : Document}
      (hentries : (Alignment.ofItems items others).ofOld i = ([(i, j)], []))
      (hb : others[j]? = some b) (hequal : a.equal true b = true)
      (hremoved : set.removedAt (place.index i).path = [])
      (hunder : set.under (place.index i).path = {})
  | compared {j : Nat} {b : Document}
      (hentries : (Alignment.ofItems items others).ofOld i = ([], [(i, some j)]))
      (hb : others[j]? = some b) (hcontainer : Alignment.sameContainer a b = true)
      (hremoved : set.removedAt (place.index i).path = [])
      (hunder : set.under (place.index i).path = ofChanges (a.changes options b (place.index i)))
  | removed
      (hentries : (Alignment.ofItems items others).ofOld i = ([], [(i, none)]))
      (hremoved : set.removedAt (place.index i).path = [⟨place.index i, a⟩])
      (hunder : set.under (place.index i).path = {})

/-- A new item is matched with an equal one, the partner in a comparison, or added, and recorded as
added in the last case only. -/
inductive NewItem (j : Nat) (b : Document) : Prop
  | matched {i : Nat} {a : Document}
      (hentries : (Alignment.ofItems items others).ofNew j = ([(i, j)], [], []))
      (ha : items[i]? = some a) (hequal : a.equal true b = true)
      (hadded : set.addedAt (place.index j).path = [])
  | partner {i : Nat} {a : Document}
      (hentries : (Alignment.ofItems items others).ofNew j = ([], [(i, some j)], []))
      (ha : items[i]? = some a) (hcontainer : Alignment.sameContainer a b = true)
      (hadded : set.addedAt (place.index j).path = [])
  | added
      (hentries : (Alignment.ofItems items others).ofNew j = ([], [], [j]))
      (hadded : set.addedAt (place.index j).path = [⟨place.index j, b⟩])

/-- Every item of the two arrays is accounted for, and no match was missed. -/
structure ItemsAccounted : Prop where
  old : ∀ i a, items[i]? = some a → OldItem options items others place set i a
  new : ∀ j b, others[j]? = some b → NewItem items others place set j b
  unequal : (∀ n ∈ (Document.array items).numbers ++ (Document.array others).numbers, n.FitsWord) →
    ∀ i j a b, items[i]? = some a → others[j]? = some b →
      ((Alignment.ofItems items others).ofOld i).1 = [] →
        ((Alignment.ofItems items others).ofNew j).1 = [] → a.equal true b = false

end Items

section Compared

variable {options : DiffOptions} {old new a b : Document} {items others : List Document}
  {place : Location} {i j : Nat}

variable [StandardHash]

theorem under_between (h : Compared options old new a b place) (ho : old.KeysDistinct)
    (hcontainer : Alignment.sameContainer a b = true) :
    (between options old new).under place.path = ofChanges (changes options a b place) := by
  rw [between, under_ofChanges, h.filter_diff ho hcontainer]

variable (hmode : options.ignoreOrder = true) (ho : old.KeysDistinct) (hn : new.KeysDistinct)
  (h : Compared options old new (array items) (array others) place)
include hmode ho h

theorem mem_itemRemoved_iff {r : ItemChange} (hpath : r.place.path = (place.index i).path) :
    r ∈ (between options old new).itemRemoved ↔
      r.place = place.index i ∧ (i, none) ∈ (Alignment.ofItems items others).leftovers ∧
        items[i]? = some r.value := by
  have hunder : (Change.itemRemoved r.place r.value).place.path.Under place.path := by
    rw [Change.place, hpath]
    exact Path.under_of_child_prefix (List.prefix_refl _)
  rw [mem_itemRemoved_between, h.recorded_iff ho rfl hunder, recorded_itemRemoved_iff hmode hpath]

theorem mem_itemAdded_iff {r : ItemChange} (hpath : r.place.path = (place.index j).path) :
    r ∈ (between options old new).itemAdded ↔
      r.place = place.index j ∧ j ∈ (Alignment.ofItems items others).added ∧
        others[j]? = some r.value := by
  have hunder : (Change.itemAdded r.place r.value).place.path.Under place.path := by
    rw [Change.place, hpath]
    exact Path.under_of_child_prefix (List.prefix_refl _)
  rw [mem_itemAdded_between, h.recorded_iff ho rfl hunder, recorded_itemAdded_iff hmode hpath]

theorem removedAt_eq_nil (hi : (i, none) ∉ (Alignment.ofItems items others).leftovers) :
    (between options old new).removedAt (place.index i).path = [] := by
  rw [removedAt, List.filter_eq_nil_iff]
  intro r hr hpath
  exact hi ((mem_itemRemoved_iff hmode ho h (of_decide_eq_true hpath)).1 hr).2.1

include hn in
theorem removedAt_eq_singleton
    (hi : (i, none) ∈ (Alignment.ofItems items others).leftovers) (ha : items[i]? = some a) :
    (between options old new).removedAt (place.index i).path = [⟨place.index i, a⟩] := by
  have hmem : ⟨place.index i, a⟩ ∈ (between options old new).itemRemoved :=
    (mem_itemRemoved_iff hmode ho h rfl).2 ⟨rfl, hi, ha⟩
  exact filter_eq_singleton_of_nodup_map (pathsDistinct_between options ho hn).itemRemoved hmem

theorem addedAt_eq_nil (hj : j ∉ (Alignment.ofItems items others).added) :
    (between options old new).addedAt (place.index j).path = [] := by
  rw [addedAt, List.filter_eq_nil_iff]
  intro r hr hpath
  exact hj ((mem_itemAdded_iff hmode ho h (of_decide_eq_true hpath)).1 hr).2.1

include hn in
theorem addedAt_eq_singleton (hj : j ∈ (Alignment.ofItems items others).added)
    (hb : others[j]? = some b) :
    (between options old new).addedAt (place.index j).path = [⟨place.index j, b⟩] := by
  have hmem : ⟨place.index j, b⟩ ∈ (between options old new).itemAdded :=
    (mem_itemAdded_iff hmode ho h rfl).2 ⟨rfl, hj, hb⟩
  exact filter_eq_singleton_of_nodup_map (pathsDistinct_between options ho hn).itemAdded hmem

theorem under_index_eq_empty (hi : ∀ j, (i, some j) ∉ (Alignment.ofItems items others).leftovers) :
    (between options old new).under (place.index i).path = {} := by
  have hnone (c d : Document) :
      .compared (.index i) c d ∉ steps options (array items) (array others) := by
    intro hstep
    obtain ⟨k, j, hsegment, hj, -⟩ := compared_mem_steps_array_iff.1 hstep
    obtain rfl : i = k := Segment.index_inj.1 hsegment
    rw [DiffOptions.align_anyOrder hmode] at hj
    exact hi j hj
  rw [between, under_ofChanges, Location.index, filter_under_child, h.filter_diff ho rfl,
    filter_under_eq_nil rfl hnone]
  rfl

theorem under_index_eq
    (hij : (i, some j) ∈ (Alignment.ofItems items others).leftovers) (ha : items[i]? = some a)
    (hb : others[j]? = some b) (hcontainer : Alignment.sameContainer a b = true) :
    (between options old new).under (place.index i).path =
      ofChanges (changes options a b (place.index i)) := by
  have hstep : .compared (.index i) a b ∈ steps options (array items) (array others) := by
    refine compared_mem_steps_array_iff.2 ⟨i, j, rfl, ?_, ha, hb⟩
    rwa [DiffOptions.align_anyOrder hmode]
  exact under_between (h.child hstep) ho hcontainer

include hn in
theorem oldItem_between (ha : items[i]? = some a) :
    OldItem options items others place (between options old new) i a := by
  have hcovers := Alignment.covers_ofItems items others
  have hi : i < items.length := (List.getElem?_eq_some_iff.1 ha).1
  obtain ⟨j, hij, hentries⟩ | ⟨partner, hij, hentries⟩ := hcovers.ofOld_eq hi
  · obtain ⟨a', b, ha', hb, hfits⟩ := Alignment.fits_of_mem_matched hij
    cases ha.symm.trans ha'
    have hnone (partner : Option Nat) :
        (i, partner) ∉ (Alignment.ofItems items others).leftovers := by
      rw [← Alignment.mem_snd_ofOld, hentries]
      exact List.not_mem_nil
    exact .matched hentries hb (equal_of_fits hfits) (removedAt_eq_nil hmode ho h (hnone none))
      (under_index_eq_empty hmode ho h fun j => hnone (some j))
  · have hpartner (other : Option Nat)
        (hother : (i, other) ∈ (Alignment.ofItems items others).leftovers) : other = partner := by
      rw [← Alignment.mem_snd_ofOld, hentries, List.mem_singleton] at hother
      exact congrArg Prod.snd hother
    cases partner with
    | none =>
        refine .removed hentries (removedAt_eq_singleton hmode ho hn h hij ha)
          (under_index_eq_empty hmode ho h fun j hj => ?_)
        cases hpartner _ hj
    | some j =>
        obtain ⟨a', b, ha', hb, hcontainer⟩ := Alignment.sameContainer_of_mem_leftovers hij
        cases ha.symm.trans ha'
        refine .compared hentries hb hcontainer (removedAt_eq_nil hmode ho h fun hnone => ?_)
          (under_index_eq hmode ho h hij ha hb hcontainer)
        cases hpartner _ hnone

include hn in
theorem newItem_between (hb : others[j]? = some b) :
    NewItem items others place (between options old new) j b := by
  have hcovers := Alignment.covers_ofItems items others
  have hj : j < others.length := (List.getElem?_eq_some_iff.1 hb).1
  have hnotAdded (hentries : ((Alignment.ofItems items others).ofNew j).2.2 = []) :
      j ∉ (Alignment.ofItems items others).added := by
    rw [← Alignment.mem_of_ofNew, hentries]
    exact List.not_mem_nil
  obtain ⟨i, hij, hentries⟩ | ⟨i, hij, hentries⟩ | ⟨hmem, hentries⟩ := hcovers.ofNew_eq hj
  · obtain ⟨a, b', ha, hb', hfits⟩ := Alignment.fits_of_mem_matched hij
    cases hb.symm.trans hb'
    exact .matched hentries ha (equal_of_fits hfits)
      (addedAt_eq_nil hmode ho h (hnotAdded (by rw [hentries])))
  · obtain ⟨a, b', ha, hb', hcontainer⟩ := Alignment.sameContainer_of_mem_leftovers hij
    cases hb.symm.trans hb'
    exact .partner hentries ha hcontainer
      (addedAt_eq_nil hmode ho h (hnotAdded (by rw [hentries])))
  · exact .added hentries (addedAt_eq_singleton hmode ho hn h hmem hb)

end Compared

variable {options : DiffOptions} {old new a b : Document} {items others : List Document}
  {place : Location} {i j : Nat}

section AnyHash

variable [StandardHash]

/-- Two items without a match are not equal, where no integer wraps around. -/
theorem not_equal_of_unmatched (hitems : (array items).KeysDistinct)
    (hothers : (array others).KeysDistinct)
    (hnumbers : ∀ n ∈ (array items).numbers ++ (array others).numbers, n.FitsWord)
    (ha : items[i]? = some a) (hb : others[j]? = some b)
    (hi : ((Alignment.ofItems items others).ofOld i).1 = [])
    (hj : ((Alignment.ofItems items others).ofNew j).1 = []) : a.equal true b = false := by
  have hcovers := Alignment.covers_ofItems items others
  have hleft : i ∈ (Alignment.ofItems items others).leftovers.map Prod.fst := by
    obtain ⟨k, -, hentries⟩ | ⟨partner, hij, -⟩ :=
      hcovers.ofOld_eq (List.getElem?_eq_some_iff.1 ha).1
    · rw [hentries] at hi
      cases hi
    · exact List.mem_map_of_mem hij
  have hleft' : j ∈ (Alignment.ofItems items others).leftovers.filterMap Prod.snd ++
      (Alignment.ofItems items others).added := by
    obtain ⟨k, -, hentries⟩ | ⟨k, hkj, -⟩ | ⟨hadded, -⟩ :=
      hcovers.ofNew_eq (List.getElem?_eq_some_iff.1 hb).1
    · rw [hentries] at hj
      cases hj
    · exact List.mem_append_left _ (List.mem_filterMap.2 ⟨_, hkj, rfl⟩)
    · exact List.mem_append_right _ hadded
  have hitem := List.mem_of_getElem? ha
  have hother := List.mem_of_getElem? hb
  have hreals : RealsAgree a b := (realsAgree_of_fitsWord hnumbers).mono
    (numbers_subset_array hitem) (numbers_subset_array hother)
  rw [← fits_eq_equal (keysDistinct_array.1 hitems a hitem) (keysDistinct_array.1 hothers b hother)
    hreals]
  exact Alignment.not_fits_of_leftovers ha hb hleft hleft'

/-- Wherever two arrays are compared in any order, nothing is lost, counted twice or missed. -/
theorem itemsAccounted_between (hmode : options.ignoreOrder = true) (ho : old.KeysDistinct)
    (hn : new.KeysDistinct) (h : Compared options old new (array items) (array others) place) :
    ItemsAccounted options items others place (between options old new) where
  old _ _ ha := oldItem_between hmode ho hn h ha
  new _ _ hb := newItem_between hmode ho hn h hb
  unequal hnumbers _ _ _ _ :=
    not_equal_of_unmatched (h.get?_old ho).2 (h.keysDistinct_new hn) hnumbers

end AnyHash

/-- A match that moved, a comparison of partners, two removals and two additions, below a key. -/
theorem itemsAccounted_between_nested :
    let items := [Document.number (.unsigned 1), .object [("x", .number (.unsigned 2))],
      .string "s", .array []]
    let others := [Document.object [("x", .number (.unsigned 3))], .bool true,
      .number (.unsigned 1), .string "t"]
    let old := Document.object [("k", .array items)]
    let new := Document.object [("k", .array others)]
    let set := between { reportMoves := true } old new
    ItemsAccounted { reportMoves := true } items others (Location.root.key "k") set ∧
      (∀ n ∈ (Document.array items).numbers ++ (Document.array others).numbers, n.FitsWord) ∧
      (Alignment.ofItems items others).matched = [(0, 2)] ∧
      (Alignment.ofItems items others).leftovers = [(1, some 0), (2, none), (3, none)] ∧
      set.itemRemoved.map (fun r => r.place.accessor) = ["root['k'][2]", "root['k'][3]"] ∧
      set.valueChanged.map (fun r => r.place.accessor) = ["root['k'][1]['x']"] ∧
      set.itemAdded.map (fun r => r.place.accessor) = ["root['k'][1]", "root['k'][3]"] := by
  intro items others old new set
  have ho : old.KeysDistinct := by
    simp [old, items, KeysDistinct, ItemsDistinct, MembersDistinct]
  have hn : new.KeysDistinct := by
    simp [new, others, KeysDistinct, ItemsDistinct, MembersDistinct]
  have harrays : Compared { reportMoves := true } old new (array items) (array others)
      (Location.root.key "k") :=
    Compared.root.child (compared_mem_steps_object_iff.2 ⟨"k", rfl, List.mem_cons_self, rfl⟩)
  refine ⟨itemsAccounted_between rfl ho hn harrays, ?_, by decide, by decide, by decide, by decide,
    by decide⟩
  simp [items, others, numbers, itemNumbers, memberNumbers, Number.FitsWord]

end ChangeSet

end JsonDelta
