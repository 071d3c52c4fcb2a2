import JsonDelta.Proofs.Comparison
import JsonDelta.Proofs.Report.Entry
import JsonDelta.Proofs.Report.Render
/-!
The verdict on two documents. Main statement: it is read off the change set between what stripping
leaves of each of them, and its report accounts for every entry of that change set.
-/

namespace JsonDelta.Comparison

open Report

variable [StandardHash]

/-- Cutting the entries of the whole change set gives the report that was cut at once. -/
theorem verdict_eq_format (options : CompareOptions) (render : RenderOptions)
    (old new : Document) :
    verdict options render old new =
      let changes := ChangeSet.between (diffOptions options) old new
      if changes.isEmpty then {}
      else
        { outcome := .different
          changeCount := (Listing.flatten changes 0).entries.length
          report := Report.format changes options.limit render options.layout } := by
  simp only [verdict, Listing.truncate_flatten, Report.format]

/-- The report shows entries and counts the others, which are all there are. -/
theorem verdict_accounts (options : CompareOptions) (render : RenderOptions)
    (old new : Document) :
    let shown := (Listing.flatten (.between (diffOptions options) old new) options.limit).entries
    ∃ lines k, (verdict options render old new).report = withNote lines (Listing.leftOutNote k) ∧
      Shown (Entry.IsLine options.layout render) (IsHeading options.layout render) shown lines ∧
      shown.length + k = (verdict options render old new).changeCount := by
  intro shown
  rw [verdict_eq_format]
  by_cases h : (ChangeSet.between (diffOptions options) old new).isEmpty = true
  · have hshown : shown = [] := Listing.entries_flatten_eq_nil _ _ h
    rw [if_pos h, hshown]
    exact ⟨[], 0, rfl, .nil, rfl⟩
  · obtain ⟨k, hnote, hcount⟩ := Listing.flatten_accounts
      (.between (diffOptions options) old new) options.limit
    obtain ⟨lines, hreport, hlines⟩ := exists_render_eq options.layout render
      (.flatten (.between (diffOptions options) old new) options.limit)
    rw [if_neg h]
    exact ⟨lines, k, hnote ▸ hreport, hlines, hcount⟩

/-- Comparing documents is stripping both, taking their change set and formatting it. -/
theorem compareDocuments_eq_format_and_accounts (ignore : List Path) (options : CompareOptions)
    (render : RenderOptions) (old new : Document) :
    let changes := ChangeSet.between
      { ignoreOrder := true, reportMoves := options.reportMoves }
      (old.strip ignore).1 (new.strip ignore).1
    let result := (compareDocuments ignore options render old new).2
    let shown := (Listing.flatten changes options.limit).entries
    result =
        (if changes.isEmpty then {}
        else
          { outcome := .different
            changeCount := (Listing.flatten changes 0).entries.length
            report := Report.format changes options.limit render options.layout }) ∧
      ∃ lines k, result.report = withNote lines (Listing.leftOutNote k) ∧
        Shown (Entry.IsLine options.layout render) (IsHeading options.layout render) shown lines ∧
        shown.length + k = result.changeCount := by
  intro changes result shown
  have hresult : result = verdict options render (old.strip ignore).1 (new.strip ignore).1 :=
    compareDocuments_snd ..
  rw [hresult]
  exact ⟨verdict_eq_format .., verdict_accounts ..⟩

end JsonDelta.Comparison
