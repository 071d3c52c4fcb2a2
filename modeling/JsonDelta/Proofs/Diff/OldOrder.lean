import JsonDelta.Proofs.Diff.Comparisons
/-!
The order of the records. The walk goes through the old document in its own order at every depth,
whatever the order of the new one. Main statement: what was removed and what changed is recorded in
the order of the old document.
-/

namespace JsonDelta

namespace Document

variable {options : DiffOptions} {old new a b : Document} {place : Location} {s t : Step}

variable [StandardHash]

/-- Changes of the old side follow the children of their steps. -/
theorem precedes_of_mem_changes {c d : Change} (hget : old.get? place.path = some a)
    (hst : a.ChildBefore s.segment t.segment) (hc : c ∈ s.changes options place)
    (hd : d ∈ t.changes options place) : old.Precedes c.place.path d.place.path :=
  ⟨place.path, a, s.segment, t.segment, hget, hst, Step.prefix_of_mem_changes hc,
    Step.prefix_of_mem_changes hd⟩

theorem pairwise_precedes_diff (options : DiffOptions) (ho : old.KeysDistinct) (new : Document) :
    (old.diff options new).Pairwise fun c d =>
      c.inOld = true → d.inOld = true → old.Precedes c.place.path d.place.path := by
  refine pairwise_diff_of_steps fun a b place hab => ?_
  obtain ⟨hget, ha⟩ := hab.get?_old ho
  refine (pairwise_steps_old options b ha).imp fun {s t} hst c hc d hd hcold hdold => ?_
  have hbefore := hst (Step.inOld_of_mem_changes hc hcold) (Step.inOld_of_mem_changes hd hdold)
  exact precedes_of_mem_changes hget hbefore hc hd

end Document

namespace ChangeSet

/-- What was removed and what changed, each in the order of the document. -/
structure InOrderOf (set : ChangeSet) (d : Document) : Prop where
  keyRemoved : (set.keyRemoved.map fun r => r.place.path).Pairwise d.Precedes
  itemRemoved : (set.itemRemoved.map fun r => r.place.path).Pairwise d.Precedes
  valueChanged : (set.valueChanged.map fun r => r.place.path).Pairwise d.Precedes

section AnyHash

variable [StandardHash]

/-- Removals and changes come in the order of the old document, in both modes. -/
theorem inOrderOf_between (options : DiffOptions) {old : Document} (ho : old.KeysDistinct)
    (new : Document) : (between options old new).InOrderOf old := by
  obtain ⟨hkeys, hitems, hvalues⟩ :=
    pairwise_paths_old (Document.pairwise_precedes_diff options ho new)
  exact ⟨hkeys, hitems, hvalues⟩

end AnyHash

/-- The new document has its keys and items the other way round. -/
theorem inOrderOf_between_turned :
    let old := Document.object [("b", .array [.null, .object [("x", .null), ("y", .null)],
      .bool true]), ("a", .null), ("c", .string "old"), ("d", .null)]
    let new := Document.object [("c", .string "new"), ("b", .array [.object [("y", .bool false)],
      .string "z"]), ("d", .bool true)]
    let set := between {} old new
    set.InOrderOf old ∧
      set.keyRemoved.map (fun r => r.place.accessor) = ["root['b'][1]['x']", "root['a']"] ∧
      set.itemRemoved.map (fun r => r.place.accessor) = ["root['b'][0]", "root['b'][2]"] ∧
      set.valueChanged.map (fun r => r.place.accessor) =
        ["root['b'][1]['y']", "root['c']", "root['d']"] := by
  intro old new set
  have ho : old.KeysDistinct := by
    simp [old, Document.KeysDistinct, Document.ItemsDistinct, Document.MembersDistinct]
  exact ⟨inOrderOf_between {} ho new, by decide, by decide, by decide⟩

end ChangeSet

end JsonDelta
