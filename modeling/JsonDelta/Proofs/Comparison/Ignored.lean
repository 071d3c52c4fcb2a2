import JsonDelta.Proofs.Comparison
import JsonDelta.Proofs.Document.Commute
/-!
Ignored content. Two runs on documents that differ at an ignored path of keys strip different values
there, and earlier ignored paths may reach into these values. Main statement: the verdicts are the
same.
-/

namespace JsonDelta.Comparison

variable {old old' new new' : Document} {p : Path} {ignore : List Path}

section AnyHash

variable [StandardHash]

/-- What is at an ignored path of keys, in either document, does not count. -/
theorem compareDocuments_snd_eq_of_changedAt (options : CompareOptions)
    (render : Report.RenderOptions) (hp : p.KeysOnly) (hne : p ≠ []) (hmem : p ∈ ignore)
    (ho : old.KeysDistinct) (hn : new.KeysDistinct) (hold : old.ChangedAt p old')
    (hnew : new.ChangedAt p new') :
    (compareDocuments ignore options render old' new').2 =
      (compareDocuments ignore options render old new).2 := by
  rw [compareDocuments_snd, compareDocuments_snd, hold.strip_eq ho hp hne hmem,
    hnew.strip_eq hn hp hne hmem]

end AnyHash

/-- The first ignored path takes an item out of what the second one ignores in the old document. -/
theorem compareDocuments_snd_eq_of_changedAt_into_array :
    let old := Document.object
      [("a", .object [("t", .array [.null, .bool true]), ("u", .string "x")]), ("b", .null)]
    let old' := Document.object
      [("a", .object [("t", .object [("t", .null)]), ("u", .string "x")]), ("b", .null)]
    let new := Document.object [("b", .bool true), ("a", .object [("t", .string "y")])]
    let new' := Document.object [("b", .bool true), ("a", .object [])]
    let ignore : List Path := [[.key "a", .key "t", .index 0], [.key "a", .key "t"]]
    let verdict := (compareDocuments ignore {} {} old new).2
    (compareDocuments ignore {} {} old' new').2 = verdict ∧ verdict.changeCount = 3 ∧
      (compareDocuments [] {} {} old' new').2 ≠ (compareDocuments [] {} {} old new).2 := by
  intro old old' new new' ignore verdict
  have ho : old.KeysDistinct := by
    simp [old, Document.KeysDistinct, Document.ItemsDistinct, Document.MembersDistinct]
  have hn : new.KeysDistinct := by
    simp [new, Document.KeysDistinct, Document.MembersDistinct]
  have hp : Path.KeysOnly [.key "a", .key "t"] := by simp [Path.KeysOnly]
  have hvalue : (Document.object [("t", .null)]).KeysDistinct := by
    simp [Document.KeysDistinct, Document.MembersDistinct]
  have hold : old.ChangedAt [.key "a", .key "t"] old' := .replaced hvalue rfl
  have hnew : new.ChangedAt [.key "a", .key "t"] new' := .deleted rfl
  refine ⟨?_, by decide, fun heq => ?_⟩
  · exact compareDocuments_snd_eq_of_changedAt {} {} hp (by simp) (by simp [ignore]) ho hn hold hnew
  · have hcount := congrArg Verdict.changeCount heq
    revert hcount
    decide

end JsonDelta.Comparison
