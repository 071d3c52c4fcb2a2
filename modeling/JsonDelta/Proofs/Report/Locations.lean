import JsonDelta.Proofs.Decimal
import JsonDelta.Proofs.Diff.Comparisons
import JsonDelta.Proofs.Diff.Ignored
import JsonDelta.Proofs.Report.Entry
import JsonDelta.Proofs.Report.Nesting
/-!
Locations in a report. Entries are grouped by the texts of their segments, which tell neither an
index from the key of its digits nor the whole document from its member `root`. Main statement: the
entries of one diff are grouped by their paths all the same. Every path of a change, also one with
an index of the new document, steps through containers of the old one, and a container is entered
by keys only or by indices only.
-/

namespace JsonDelta

namespace Document

variable {d a : Document} {s t : Segment} {path p q : Path}

/-- The segment is of the kind that enters the document, whether or not it leads to a child. -/
def Admits : Document → Segment → Prop
  | object _, .key _ => True
  | array _, .index _ => True
  | _, _ => False

theorem admits_of_child? (h : d.child? s = some a) : d.Admits s := by
  cases d <;> cases s <;> trivial

/-- Among the segments that enter one document, the text tells which it is. -/
theorem Admits.eq_of_text_eq (hs : d.Admits s) (ht : d.Admits t) (h : s.text = t.text) : s = t := by
  match d, s, t, hs, ht with
  | array _, .index n, .index m, _, _ =>
      exact congrArg Segment.index (Decimal.intText_injective h)
  | object _, .key name, .key other, _, _ => exact congrArg Segment.key h

/-- Every segment of the path enters a document of its kind. -/
def Leads (d : Document) (path : Path) : Prop :=
  ∀ (parent : Path) (s : Segment), parent.child s <+: path →
    ∃ a, d.get? parent = some a ∧ a.Admits s

theorem leads_of_get? (h : d.get? path = some a) : d.Leads path := by
  intro parent s hp
  obtain ⟨c, hc⟩ := exists_get?_of_prefix hp h
  obtain ⟨b, hb⟩ := exists_get?_of_prefix (Path.prefix_child parent s) hc
  rw [get?_child hb] at hc
  exact ⟨b, hb, admits_of_child? hc⟩

/-- The last segment need not lead to anything. -/
theorem leads_child (h : d.get? path = some a) (hs : a.Admits s) : d.Leads (path.child s) := by
  intro parent t hp
  rcases List.prefix_concat_iff.1 hp with heq | hp
  · obtain ⟨rfl, hst⟩ := List.append_inj' heq rfl
    obtain rfl := List.singleton_inj.1 hst
    exact ⟨a, h, hs⟩
  · exact leads_of_get? h parent t hp

/-- Behind a common part, two paths are told apart by their texts: where they go on, both enter the
same document. -/
theorem eq_of_map_text_eq (parent : Path) (hp : d.Leads (parent ++ p)) (hq : d.Leads (parent ++ q))
    (h : p.map Segment.text = q.map Segment.text) : p = q := by
  induction p generalizing parent q with
  | nil => exact (List.map_eq_nil_iff.1 h.symm).symm
  | cons s p ih =>
      cases q with
      | nil => cases h
      | cons t q =>
          obtain ⟨htext, hrest⟩ := List.cons.inj h
          have hps : parent ++ s :: p = parent.child s ++ p := by simp [Path.child]
          have hqt : parent ++ t :: q = parent.child t ++ q := by simp [Path.child]
          rw [hps] at hp
          rw [hqt] at hq
          obtain ⟨a, ha, hs⟩ := hp parent s (List.prefix_append ..)
          obtain ⟨b, hb, ht⟩ := hq parent t (List.prefix_append ..)
          obtain rfl := Option.some.inj (ha.symm.trans hb)
          obtain rfl := hs.eq_of_text_eq ht htext
          rw [ih _ hp hq hrest]

end Document

theorem Change.Faithful.leads {change : Change} {old : Document} (h : change.Faithful old) :
    old.Leads change.place.path := by
  have hitem (hin : old.InArrayAt change.place.path) : old.Leads change.place.path := by
    obtain ⟨parent, i, items, hpath, hparent⟩ := hin
    rw [hpath]
    exact Document.leads_child hparent trivial
  cases change with
  | keyRemoved | itemRemoved | valueChanged => exact Document.leads_of_get? h
  | itemAdded | itemMoved => exact hitem h
  | keyAdded =>
      obtain ⟨parent, key, members, hpath, hparent, -⟩ := h
      rw [Change.place, hpath]
      exact Document.leads_child hparent trivial

namespace ChangeSet

variable {options : DiffOptions} {old new : Document} {place spot : Location}

variable [StandardHash]

theorem leads_of_mem_places (ho : old.KeysDistinct)
    (h : place ∈ (between options old new).places) : old.Leads place.path := by
  obtain ⟨change, hchange, rfl⟩ := exists_recorded_of_mem_places h
  exact (hchange.faithful ho (Document.get?_nil old)).leads

/-- If the whole document has changed, that is the only change. -/
theorem path_eq_nil_of_mem_places (h : place ∈ (between options old new).places)
    (hnil : place.path = []) (hspot : spot ∈ (between options old new).places) :
    spot.path = [] := by
  obtain ⟨change, hchange, rfl⟩ := exists_recorded_of_mem_places h
  obtain ⟨other, hother, rfl⟩ := exists_recorded_of_mem_places hspot
  rcases hchange.under_or_whole with hunder | ⟨hwhole, -⟩
  · have hlength := hunder.2
    rw [hnil] at hlength
    exact absurd hlength (Nat.lt_irrefl _)
  · have hmem := hother.mem_changes
    rw [Document.changes_whole options hwhole] at hmem
    split at hmem
    · cases hmem
    · rw [List.mem_singleton.1 hmem]
      rfl

end ChangeSet

namespace Report

theorem walk_of_path_ne_nil {entry : Entry} (h : entry.path ≠ []) :
    entry.walk = entry.path.map Segment.text :=
  if_neg h

namespace Listing

variable {options : DiffOptions} {old new : Document} {set : ChangeSet} {limit : Nat}
  {entry other : Entry}

theorem mem_entriesOf_of_mem_flatten (h : entry ∈ (flatten set limit).entries) :
    entry ∈ entriesOf set := by
  rcases Nat.eq_zero_or_pos limit with rfl | hpos
  · rwa [entries_flatten_zero] at h
  · rw [flatten, entries_truncate_of_pos _ hpos] at h
    exact List.mem_of_mem_take h

theorem exists_place_of_mem_entriesOf (h : entry ∈ entriesOf set) :
    ∃ place ∈ set.places, entry.path = place.path := by
  simp only [entriesOf, itemEntries, valueEntries, moveEntries, List.mem_append, List.mem_map,
    List.mem_flatMap, List.mem_filter, List.mem_cons, List.not_mem_nil, or_false] at h
  simp only [ChangeSet.places, List.mem_append, List.mem_map]
  grind

section AnyHash

variable [StandardHash]

/-- Two entries of a diff walk to one node exactly if they are at one path. -/
theorem walk_eq_walk_iff (ho : old.KeysDistinct)
    (hentry : entry ∈ (flatten (.between options old new) limit).entries)
    (hother : other ∈ (flatten (.between options old new) limit).entries) :
    entry.walk = other.walk ↔ entry.path = other.path := by
  obtain ⟨place, hplace, hpath⟩ :=
    exists_place_of_mem_entriesOf (mem_entriesOf_of_mem_flatten hentry)
  obtain ⟨spot, hspot, hother⟩ :=
    exists_place_of_mem_entriesOf (mem_entriesOf_of_mem_flatten hother)
  constructor
  · intro hwalk
    by_cases hnil : entry.path = []
    · have hspotNil := ChangeSet.path_eq_nil_of_mem_places hplace (hpath.symm.trans hnil) hspot
      rw [hnil, hother, hspotNil]
    · have hotherNil : other.path ≠ [] := fun h => hnil <|
        hpath.trans (ChangeSet.path_eq_nil_of_mem_places hspot (hother.symm.trans h) hplace)
      rw [walk_of_path_ne_nil hnil, walk_of_path_ne_nil hotherNil, hpath, hother] at hwalk
      rw [hpath, hother]
      exact Document.eq_of_map_text_eq [] (ChangeSet.leads_of_mem_places ho hplace)
        (ChangeSet.leads_of_mem_places ho hspot) hwalk
  · intro heq
    rw [Entry.walk, Entry.walk, heq]

/-- The entries of a diff are grouped by their paths: two of them go to one node of the report tree
exactly if they are at one path, and the node has the records of all entries at this path. -/
theorem nest_flatten_between (options : DiffOptions) (ho : old.KeysDistinct) (new : Document)
    (limit lengthLimit : Nat) :
    let entries := (flatten (.between options old new) limit).entries
    ∀ entry ∈ entries,
      (∀ other ∈ entries, entry.walk = other.walk ↔ entry.path = other.path) ∧
        ∃ node, (nest lengthLimit entries).find? entry.walk = some node ∧
          node.leaves = (entries.filter fun other => other.path = entry.path).map
            (Entry.leaf lengthLimit) := by
  intro entries entry hentry
  refine ⟨fun other hother => walk_eq_walk_iff ho hentry hother, ?_⟩
  obtain ⟨node, hnode⟩ := Option.isSome_iff_exists.1
    ((isSome_find?_nest lengthLimit entries entry.walk).2
      (.inr ⟨entry, hentry, List.prefix_refl _⟩))
  have hgroups := groups_nest lengthLimit entries entry.walk
  rw [hnode, Option.getD_some] at hgroups
  refine ⟨node, hnode, ?_⟩
  rw [hgroups.leaves]
  congr 1
  apply List.filter_congr
  intro other hother
  rw [decide_eq_decide]
  exact walk_eq_walk_iff ho hother hentry

end AnyHash

/-- A member `root`, a member `0` and an item 0, below which a value was removed and another one
was added. -/
theorem nest_flatten_between_alike :
    let old := Document.object
      [("root", .null), ("a", .array [.null]), ("b", .object [("0", .null)])]
    let new := Document.object
      [("root", .bool true), ("a", .array [.bool true]), ("b", .object [("0", .bool true)])]
    let entries := (flatten (.between {} old new) 0).entries
    let added : Entry := ⟨[.key "a", .index 0], .added, .bool true⟩
    let removed : Entry := ⟨[.key "a", .index 0], .removed, .null⟩
    let changed : Entry := ⟨[.key "b", .key "0"], .added, .bool true⟩
    entries.length = 6 ∧ added.walk = removed.walk ∧ added.walk ≠ changed.walk ∧
      ∃ node, (nest 9 entries).find? ["a", "0"] = some node ∧
        node.leaves = [added.leaf 9, removed.leaf 9] := by
  intro old new entries added removed changed
  have ho : old.KeysDistinct := by
    simp [old, Document.KeysDistinct, Document.ItemsDistinct, Document.MembersDistinct]
  have hadded : added ∈ entries := List.mem_of_getElem? (show entries[0]? = some added from rfl)
  have hremoved : removed ∈ entries :=
    List.mem_of_getElem? (show entries[1]? = some removed from rfl)
  have hchanged : changed ∈ entries :=
    List.mem_of_getElem? (show entries[5]? = some changed from rfl)
  obtain ⟨hwalk, node, hnode, hleaves⟩ := nest_flatten_between {} ho new 0 9 added hadded
  refine ⟨rfl, (hwalk removed hremoved).2 rfl, fun h => ?_, node, hnode, hleaves⟩
  have hpath := (hwalk changed hchanged).1 h
  exact absurd hpath (by decide)

end Listing

end Report

end JsonDelta
