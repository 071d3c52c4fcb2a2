import JsonDelta.Proofs.Diff.Location
import JsonDelta.Proofs.Document.KeyPath
/-!
Ignored keys. The old and the new document are walked at different indices, but above the first
array both are at the same place, so a path of keys that is stripped from both cannot be on the way
to a record. Main statement: no record lies at or below such a path.
-/

namespace JsonDelta

/-- A key that was added is found in the new document as long as only keys lead to it. -/
def Change.FoundByKeys (new : Document) : Change → Prop
  | .keyAdded place value => place.path.KeysOnly → new.get? place.path = some value
  | _ => True

namespace Document

variable {options : DiffOptions} {old new a b d : Document} {place : Location} {change : Change}
  {p q : Path}

variable [StandardHash]

theorem Recorded.foundByKeys (h : Recorded options a b place change) (hb : b.KeysDistinct)
    (hnew : place.path.KeysOnly → new.get? place.path = some b) : change.FoundByKeys new := by
  induction h with
  | keyAdded _ hmem =>
      intro hkeys
      have hplace := hnew fun segment hs => hkeys segment (List.mem_append_left _ hs)
      exact (get?_key hplace).trans
        ((Members.lookup_eq_some_iff (keysDistinct_object.1 hb).1).2 hmem)
  | member _ hl _ ih =>
      refine ih ((keysDistinct_object.1 hb).2 _ (Members.mem_of_lookup hl)) fun hkeys => ?_
      have hplace := hnew fun segment hs => hkeys segment (List.mem_append_left _ hs)
      exact (get?_key hplace).trans hl
  | partner _ _ hj _ ih =>
      -- Below an index there is no path of keys, so the indices need not agree.
      refine ih (keysDistinct_array.1 hb _ (List.mem_of_getElem? hj)) fun hkeys => ?_
      exact absurd hkeys Path.not_keysOnly_index
  | _ => trivial

omit [StandardHash] in
theorem exists_get?_of_prefix (hp : p <+: q) (h : d.get? q = some a) : ∃ b, d.get? p = some b := by
  obtain ⟨rest, rfl⟩ := hp
  rw [get?_append] at h
  obtain ⟨b, hb, -⟩ := Option.bind_eq_some_iff.1 h
  exact ⟨b, hb⟩

/-- Keys on the way to a record lead somewhere in one of the documents. -/
theorem Recorded.exists_get?_of_prefix (h : Recorded options old new .root change)
    (ho : old.KeysDistinct) (hn : new.KeysDistinct) (hkeys : p.KeysOnly)
    (hp : p <+: change.place.path) : (∃ a, old.get? p = some a) ∨ ∃ b, new.get? p = some b := by
  have hold := h.faithful ho (get?_nil old)
  have hitem (hin : old.InArrayAt change.place.path) : ∃ a, old.get? p = some a := by
    obtain ⟨parent, i, items, hpath, hparent⟩ := hin
    rw [hpath, Path.child, List.prefix_concat_iff] at hp
    rcases hp with rfl | hp
    · exact absurd hkeys Path.not_keysOnly_index
    · exact Document.exists_get?_of_prefix hp hparent
  cases change with
  | keyRemoved => exact .inl (Document.exists_get?_of_prefix hp hold)
  | itemRemoved => exact .inl (Document.exists_get?_of_prefix hp hold)
  | valueChanged => exact .inl (Document.exists_get?_of_prefix hp hold)
  | itemAdded => exact .inl (hitem hold)
  | itemMoved => exact .inl (hitem hold)
  | keyAdded place value =>
      have hnew := h.foundByKeys hn fun _ => get?_nil new
      obtain ⟨parent, key, members, hpath, hparent, -⟩ := hold
      have hcases := hp
      rw [Change.place, hpath, Path.child, List.prefix_concat_iff] at hcases
      rcases hcases with heq | hprefix
      · obtain rfl : p = place.path := heq.trans hpath.symm
        exact .inr ⟨value, hnew hkeys⟩
      · exact .inl (Document.exists_get?_of_prefix hprefix hparent)

end Document

namespace ChangeSet

variable {old new : Document} {ignore : List Path} {p : Path}

section AnyHash

variable [StandardHash]

/-- No record lies at or below a place that is ignored by its keys. -/
theorem not_prefix_of_mem_places_stripped (options : DiffOptions) (ho : old.KeysDistinct)
    (hn : new.KeysDistinct) (hkeys : p.KeysOnly) (hne : p ≠ []) (hp : p ∈ ignore) :
    ∀ place ∈ (between options (old.strip ignore).1 (new.strip ignore).1).places,
      ¬ p <+: place.path := by
  intro place hplace hprefix
  obtain ⟨change, hchange, rfl⟩ := exists_recorded_of_mem_places hplace
  have hold := Document.get?_strip_of_mem ho hkeys hne hp
  have hnew := Document.get?_strip_of_mem hn hkeys hne hp
  rcases hchange.exists_get?_of_prefix (Document.keysDistinct_strip ho ignore)
    (Document.keysDistinct_strip hn ignore) hkeys hprefix with ⟨a, ha⟩ | ⟨b, hb⟩
  · rw [hold] at ha
    cases ha
  · rw [hnew] at hb
    cases hb

end AnyHash

/-- The item `v` is stripped from the old array and reported in the new one, next to `t`. -/
theorem not_prefix_of_mem_places_stripped_beside_array :
    let old := Document.object [("a", .object [("t", .null), ("xs", .array [.string "v"])])]
    let new := Document.object
      [("a", .object [("xs", .array [.null, .string "v"]), ("t", .bool true)])]
    let ignore : List Path := [[.key "a", .key "xs", .index 0], [.key "a", .key "t"]]
    let set := between {} (old.strip ignore).1 (new.strip ignore).1
    (∀ place ∈ set.places, ¬ [.key "a", .key "t"] <+: place.path) ∧
      set.places.map Location.accessor = ["root['a']['xs'][0]"] ∧
      (between {} old new).places.map Location.accessor =
        ["root['a']['xs'][0]", "root['a']['t']"] := by
  intro old new ignore set
  have ho : old.KeysDistinct := by
    simp [old, Document.KeysDistinct, Document.ItemsDistinct, Document.MembersDistinct]
  have hn : new.KeysDistinct := by
    simp [new, Document.KeysDistinct, Document.ItemsDistinct, Document.MembersDistinct]
  have hkeys : Path.KeysOnly [.key "a", .key "t"] := by simp [Path.KeysOnly]
  have hp : [.key "a", .key "t"] ∈ ignore := by simp [ignore]
  exact ⟨not_prefix_of_mem_places_stripped {} ho hn hkeys (by simp) hp, by decide, by decide⟩

end ChangeSet

end JsonDelta
