import JsonDelta.Comparison
import JsonDelta.Proofs.Diff.Symmetry
import JsonDelta.Proofs.Document.Edit
/-!
Comparing two documents without the ignored places. Both are stripped on their own, and the verdict
is `identical` exactly when what is left has no changes. Main statement: which of the two documents
is the old one decides neither whether there are changes nor whether the verdict is `identical`.
-/

namespace JsonDelta.Comparison

/-- What is ignored is taken out of each document on its own. -/
theorem withoutIgnored_snd (paths : List Path) (old new : Document) :
    (withoutIgnored paths old new).2 = ((old.strip paths).1, (new.strip paths).1) := by
  induction paths generalizing old new with
  | nil => rfl
  | cons path paths ih => rw [Document.strip_cons, Document.strip_cons, withoutIgnored, ih]

section AnyHash

variable [StandardHash]

theorem compareDocuments_snd (ignore : List Path) (options : CompareOptions)
    (render : Report.RenderOptions) (old new : Document) :
    (compareDocuments ignore options render old new).2 =
      verdict options render (old.strip ignore).1 (new.strip ignore).1 := by
  show verdict options render (withoutIgnored ignore old new).2.1
    (withoutIgnored ignore old new).2.2 = _
  rw [withoutIgnored_snd]

theorem outcome_verdict_eq_identical_iff (options : CompareOptions) (render : Report.RenderOptions)
    (old new : Document) :
    (verdict options render old new).outcome = .identical ↔
      (ChangeSet.between (diffOptions options) old new).isEmpty = true := by
  by_cases h : (ChangeSet.between (diffOptions options) old new).isEmpty = true
  · simp [verdict, h]
  · simp [verdict, h]

/-- Which document is the old one does not decide whether there are differences. -/
theorem isEmpty_between_comm_and_identical_comm :
    (∀ (options : DiffOptions) (a b : Document), a.KeysDistinct → b.KeysDistinct →
      ((ChangeSet.between options a b).isEmpty = true ↔
        (ChangeSet.between options b a).isEmpty = true)) ∧
    ∀ (ignore : List Path) (options : CompareOptions) (render : Report.RenderOptions)
      (a b : Document), a.KeysDistinct → b.KeysDistinct →
      ((compareDocuments ignore options render a b).2.outcome = .identical ↔
        (compareDocuments ignore options render b a).2.outcome = .identical) := by
  have hempty (options : DiffOptions) (a b : Document) (ha : a.KeysDistinct) (hb : b.KeysDistinct) :
      (ChangeSet.between options a b).isEmpty = true ↔
        (ChangeSet.between options b a).isEmpty = true := by
    rw [ChangeSet.isEmpty_between_comm options ha hb]
  refine ⟨hempty, fun ignore options render a b ha hb => ?_⟩
  rw [compareDocuments_snd, compareDocuments_snd, outcome_verdict_eq_identical_iff,
    outcome_verdict_eq_identical_iff]
  exact hempty _ _ _ (Document.keysDistinct_strip ha ignore) (Document.keysDistinct_strip hb ignore)

end AnyHash

/-- The integers are equal as words, but their hashes differ, so the objects around them are
paired up and compared. There is nothing to report, although the arrays are not equal. -/
theorem isEmpty_between_comm_and_identical_comm_wrapped :
    let a := Document.array
      [.object [("n", .number (.unsigned 18446744073709551615))], .array [.null]]
    let b := Document.array [.array [.null], .object [("n", .number (.signed (-1)))]]
    let old := Document.object [("t", .null), ("x", a)]
    let new := Document.object [("x", b)]
    ((ChangeSet.between {} a b).isEmpty = true ↔ (ChangeSet.between {} b a).isEmpty = true) ∧
      ((compareDocuments [[.key "t"]] {} {} old new).2.outcome = .identical ↔
        (compareDocuments [[.key "t"]] {} {} new old).2.outcome = .identical) ∧
      (compareDocuments [[.key "t"]] {} {} old new).2.outcome = .identical ∧
      a.equal true b = false := by
  intro a b old new
  have ha : a.KeysDistinct := by
    simp [a, Document.KeysDistinct, Document.ItemsDistinct, Document.MembersDistinct]
  have hb : b.KeysDistinct := by
    simp [b, Document.KeysDistinct, Document.ItemsDistinct, Document.MembersDistinct]
  have hold : old.KeysDistinct := by
    simp [old, a, Document.KeysDistinct, Document.ItemsDistinct, Document.MembersDistinct]
  have hnew : new.KeysDistinct := by
    simp [new, b, Document.KeysDistinct, Document.ItemsDistinct, Document.MembersDistinct]
  exact ⟨isEmpty_between_comm_and_identical_comm.1 {} a b ha hb,
    isEmpty_between_comm_and_identical_comm.2 [[.key "t"]] {} {} old new hold hnew,
    by decide, by decide⟩

end JsonDelta.Comparison
