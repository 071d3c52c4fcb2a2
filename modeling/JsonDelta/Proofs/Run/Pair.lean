import JsonDelta.Proofs.Comparison.Verdict
import JsonDelta.Proofs.FileTree
import JsonDelta.Proofs.Report.Flat
import JsonDelta.Proofs.Report.Outline
import JsonDelta.Proofs.Text.Bytes
import JsonDelta.Run
/-!
Pairs of files. Main statement: the verdict on two files says the same in all its parts, whatever
the limits, the layout and the colors of its report are, and these do not change what it says.
-/

namespace JsonDelta

namespace Report

/-! What has entries has a report. -/

theorem Entry.IsLine.ne_empty {layout : Layout} {options : RenderOptions} {entry : Entry}
    {line : String} (h : entry.IsLine layout options line) : line ≠ "" := by
  cases layout with
  | nested =>
      obtain ⟨level, rfl⟩ := h
      exact Color.paint_ne_empty _ _ (by simp [leader_ne_empty])
  | flat =>
      rw [show line = entryLine options entry from h]
      exact entryLine_ne_empty options entry

/-- Each entry has a line of its own, and that line is not empty. -/
theorem render_ne_empty (layout : Layout) (options : RenderOptions) {listing : Listing}
    (h : listing.entries ≠ []) : render layout options listing ≠ "" := by
  obtain ⟨lines, hrender, own, headings, hperm, hown, -⟩ := exists_render_eq layout options listing
  rw [hrender, withNote_eq]
  cases hentries : listing.entries with
  | nil => exact absurd hentries h
  | cons entry entries =>
      rw [hentries] at hown
      obtain ⟨line, hline, htail⟩ : ∃ line ∈ own, entry.IsLine layout options line := by
        cases hown with
        | cons hline _ => exact ⟨_, List.mem_cons_self, hline⟩
      have hmem : line ∈ lines := hperm.mem_iff.2 (List.mem_append_left _ hline)
      exact joinLines_ne_empty (List.mem_append_left _ hmem) htail.ne_empty

end Report

/-- What the parts of a verdict say about each other. -/
inductive Verdict.Coherent : Verdict → Prop
  | identical :
      Coherent { outcome := .identical, changeCount := 0, report := "", failure := none }
  | different {count : Nat} {report : String} (hcount : 0 < count) (hreport : report ≠ "") :
      Coherent { outcome := .different, changeCount := count, report := report, failure := none }
  | unreadable (failure : Failure) :
      Coherent
        { outcome := .unreadable, changeCount := 0, report := "", failure := some failure }

namespace Comparison

open Report

variable (options : CompareOptions) (render : RenderOptions) (old new : Document)

variable [StandardHash]

theorem coherent_verdict : (verdict options render old new).Coherent := by
  rw [verdict_eq_format]
  by_cases h : (ChangeSet.between (diffOptions options) old new).isEmpty = true
  · rw [if_pos h]
    exact .identical
  · rw [if_neg h]
    exact .different (List.length_pos_iff.2 (Listing.entries_flatten_ne_nil _ 0 h))
      (render_ne_empty _ _ (Listing.entries_flatten_ne_nil _ options.limit h))

/-! Outcome and count are read off the changes, before these are cut, laid out and colored. -/

theorem outcome_verdict : (verdict options render old new).outcome =
    if (ChangeSet.between (diffOptions options) old new).isEmpty then .identical
    else .different := by
  rw [verdict]
  split <;> rfl

theorem outcome_verdict_ne_unreadable :
    (verdict options render old new).outcome ≠ .unreadable := by
  rw [outcome_verdict]
  split <;> decide

theorem changeCount_verdict : (verdict options render old new).changeCount =
    (Listing.flatten (.between (diffOptions options) old new) 0).entries.length := by
  rw [verdict_eq_format]
  by_cases h : (ChangeSet.between (diffOptions options) old new).isEmpty = true
  · rw [if_pos h, Listing.entries_flatten_eq_nil _ _ h]
    rfl
  · rw [if_neg h]

end Comparison

/-! Documents in files. -/

/-- A text without a zero character is read as it was written. -/
theorem Document.ofBytes?_toUTF8 {text : String} (h : '\x00' ∉ text.toList) :
    ofBytes? text.toUTF8 = parse? text := by
  have hall : text.toUTF8.data.takeWhile (· ≠ 0) = text.toUTF8.data := by
    apply Array.toList_inj.1
    rw [Array.toList_takeWhile, List.takeWhile_eq_self_iff]
    exact fun byte hbyte => decide_eq_true (Text.ne_zero_of_mem_bytes h hbyte)
  have hread : String.fromUTF8? text.toUTF8 = some text := dif_pos text.isValidUTF8
  rw [ofBytes?, hall]
  exact congrArg (Option.bind · parse?) hread

/-- What can go wrong with the document at a path. -/
inductive Failure.About (path : String) : Failure → Prop
  | noSuchFile : About path (.noSuchFile path)
  | isDirectory : About path (.isDirectory path)
  | cannotOpen : About path (.cannotOpen path)
  | malformed : About path (.malformed (some path))

theorem Failure.About.infix_message {path : String} {failure : Failure} (h : failure.About path) :
    path.toList <:+: failure.message.toList := by
  have hafter (front : String) : path.toList <:+: (front ++ path).toList := by
    rw [String.toList_append]
    exact (List.suffix_append ..).isInfix
  have hbefore (rest : String) : path.toList <:+: (path ++ ": " ++ rest).toList := by
    rw [String.append_assoc, String.toList_append]
    exact (List.prefix_append ..).isInfix
  cases h with
  | noSuchFile => exact hafter "no such file: "
  | isDirectory => exact hafter "is a directory: "
  | cannotOpen => exact hafter "cannot open: "
  | malformed => exact hbefore syntaxDetail

namespace FileSystem

variable {system : FileSystem} {path oldPath newPath : String} {failure : Failure}
  {old new : Document}

/-- A failure to load a document is about its path, which the message names. -/
theorem about_and_infix_message_of_load (h : system.load path = .error failure) :
    failure.About path ∧ path.toList <:+: failure.message.toList := by
  have habout : failure.About path := by
    unfold load at h
    split at h
    · cases h
      exact .noSuchFile
    · split at h
      · cases h
        exact .isDirectory
      · split at h
        · cases h
          exact .cannotOpen
        · split at h
          · cases h
          · cases h
            exact .malformed
  exact ⟨habout, habout.infix_message⟩

theorem load_of_find? (text : String) (h : '\x00' ∉ text.toList)
    (hfind : system.find? path = some (.file text.toUTF8)) : system.load path =
      match Document.parse? text with
      | some d => .ok d
      | none => .error (.malformed (some path)) := by
  rw [load, hfind]
  simp only [FileTree.isDirectory, FileTree.content?, Document.ofBytes?_toUTF8 h]
  rfl


/-- The documents at two paths, or the first failure to read one. -/
def loadBoth (system : FileSystem) (oldPath newPath : String) :
    Except Failure (Document × Document) := do
  let old ← system.load oldPath
  let new ← system.load newPath
  return (old, new)

theorem loadBoth_of_old_error (hold : system.load oldPath = .error failure) :
    system.loadBoth oldPath newPath = .error failure := by
  rw [loadBoth, hold]
  rfl

theorem loadBoth_of_old_ok (hold : system.load oldPath = .ok old) :
    system.loadBoth oldPath newPath = (system.load newPath).map fun new => (old, new) := by
  rw [loadBoth, hold]
  cases system.load newPath <;> rfl

theorem exists_loadBoth_eq_error_iff :
    (∃ failure, system.loadBoth oldPath newPath = .error failure) ↔
      (∃ failure, system.load oldPath = .error failure) ∨
        ∃ failure, system.load newPath = .error failure := by
  cases hold : system.load oldPath with
  | error failure =>
      exact iff_of_true ⟨failure, loadBoth_of_old_error hold⟩ (.inl ⟨failure, rfl⟩)
  | ok old =>
      rw [loadBoth_of_old_ok hold]
      cases system.load newPath with
      | error failure => exact iff_of_true ⟨failure, rfl⟩ (.inr ⟨failure, rfl⟩)
      | ok new => exact iff_of_false (by rintro ⟨_, ⟨⟩⟩) (by rintro (⟨_, ⟨⟩⟩ | ⟨_, ⟨⟩⟩))

end FileSystem

namespace Run

section Pair

variable (system : FileSystem) (options : RunOptions) (render : Report.RenderOptions)
  (oldPath newPath : String)

variable [StandardHash]

/-- The verdict on two files is the failure to read them, or the verdict on their documents without
what is to be ignored. -/
theorem snd_comparePair : (comparePair system options render oldPath newPath).2 =
    match system.loadBoth oldPath newPath with
    | .error failure => { outcome := .unreadable, failure := some failure }
    | .ok (old, new) => Comparison.verdict options.toCompareOptions render
        (old.strip (options.ignore.map Accessor.parse)).1
        (new.strip (options.ignore.map Accessor.parse)).1 := by
  rw [comparePair]
  cases hold : system.load oldPath with
  | error failure =>
      rw [FileSystem.loadBoth_of_old_error hold]
      rfl
  | ok old =>
      rw [FileSystem.loadBoth_of_old_ok hold]
      cases system.load newPath with
      | error failure => rfl
      | ok new => exact Comparison.compareDocuments_snd ..

theorem coherent_snd_comparePair :
    (comparePair system options render oldPath newPath).2.Coherent := by
  rw [snd_comparePair]
  cases system.loadBoth oldPath newPath with
  | error failure => exact .unreadable failure
  | ok documents => exact Comparison.coherent_verdict ..

theorem outcome_comparePair_eq_unreadable_iff :
    (comparePair system options render oldPath newPath).2.outcome = .unreadable ↔
      ∃ failure, system.loadBoth oldPath newPath = .error failure := by
  rw [snd_comparePair]
  cases system.loadBoth oldPath newPath with
  | error failure => exact iff_of_true rfl ⟨failure, rfl⟩
  | ok documents =>
      refine iff_of_false (Comparison.outcome_verdict_ne_unreadable _ _ _ _) ?_
      rintro ⟨_, ⟨⟩⟩

/-- Nothing but the documents and the moves to report counts. -/
theorem outcome_changeCount_comparePair (limit : Nat) (layout : Report.Layout)
    (render' : Report.RenderOptions) :
    let verdict := (comparePair system options render oldPath newPath).2
    let other := (comparePair system { options with limit := limit, layout := layout } render'
      oldPath newPath).2
    other.outcome = verdict.outcome ∧ other.changeCount = verdict.changeCount := by
  dsimp only
  rw [snd_comparePair, snd_comparePair]
  cases system.loadBoth oldPath newPath with
  | error failure => exact ⟨rfl, rfl⟩
  | ok documents =>
      simp only [Comparison.outcome_verdict, Comparison.changeCount_verdict]
      exact ⟨rfl, rfl⟩

/-- The parts of the verdict on two files agree: the files cannot be read, with the failure of the
old one first, or there are neither changes nor a report, or there are both. How much is shown of
the changes, and how, decides neither the outcome nor the number of changes. -/
theorem coherent_comparePair :
    let verdict := (comparePair system options render oldPath newPath).2
    verdict.Coherent ∧
      (verdict.outcome = .unreadable ↔
        (∃ failure, system.load oldPath = .error failure) ∨
          ∃ failure, system.load newPath = .error failure) ∧
      (∀ failure, system.load oldPath = .error failure → verdict.failure = some failure) ∧
      (∀ old failure, system.load oldPath = .ok old → system.load newPath = .error failure →
        verdict.failure = some failure) ∧
      ∀ (limit : Nat) (layout : Report.Layout) (render' : Report.RenderOptions),
        let other := (comparePair system { options with limit := limit, layout := layout } render'
          oldPath newPath).2
        other.outcome = verdict.outcome ∧ other.changeCount = verdict.changeCount := by
  intro verdict
  refine ⟨coherent_snd_comparePair .., ?_, fun failure hold => ?_, fun old failure hold hnew => ?_,
    fun limit layout render' => outcome_changeCount_comparePair ..⟩
  · exact (outcome_comparePair_eq_unreadable_iff ..).trans FileSystem.exists_loadBoth_eq_error_iff
  · rw [show verdict = _ from snd_comparePair .., FileSystem.loadBoth_of_old_error hold]
  · rw [show verdict = _ from snd_comparePair .., FileSystem.loadBoth_of_old_ok hold, hnew]
    rfl

end Pair

/-- Two of three files can be read. Of two changes between them one is shown, without a character of
its value. -/
theorem coherent_comparePair_cut :
    let system : FileSystem :=
      { root := .directory [("old", .file "[1,2]".toUTF8), ("new", .file "[]".toUTF8),
          ("cut", .file "[".toUTF8)] }
    let short : RunOptions := { limit := 1, layout := .flat }
    let verdict := (comparePair system short { color := true, lengthLimit := 0 } "old" "new").2
    verdict.Coherent ∧ verdict.outcome = .different ∧ verdict.changeCount = 2 ∧
      verdict.report = "\x1b[31m- [0]: ...(1 more chars)\x1b[0m\n...(1 more items)" ∧
      system.load "cut" = .error (.malformed (some "cut")) ∧
      (comparePair system short {} "old" "cut").2.failure = some (.malformed (some "cut")) := by
  intro system short verdict
  have hentry : IsEntryName "old" ∧ IsEntryName "new" ∧ IsEntryName "cut" := by
    simp [isEntryName_iff]
  obtain ⟨holdName, hnewName, hcutName⟩ := hentry
  have hold : system.load "old" = .ok (.array [.number (.unsigned 1), .number (.unsigned 2)]) :=
    FileSystem.load_of_find? "[1,2]" (by decide) (FileSystem.find?_entry holdName)
  have hnew : system.load "new" = .ok (.array []) :=
    FileSystem.load_of_find? "[]" (by decide) (FileSystem.find?_entry hnewName)
  have hcut : system.load "cut" = .error (.malformed (some "cut")) :=
    FileSystem.load_of_find? "[" (by decide) (FileSystem.find?_entry hcutName)
  obtain ⟨hcoherent, -⟩ :=
    coherent_comparePair system short { color := true, lengthLimit := 0 } "old" "new"
  obtain ⟨-, -, -, -, hshown⟩ := coherent_comparePair system {} {} "old" "new"
  obtain ⟨houtcome, hcount⟩ := hshown 1 .flat { color := true, lengthLimit := 0 }
  obtain ⟨-, -, -, hfailure, -⟩ := coherent_comparePair system short {} "old" "cut"
  have hboth := (FileSystem.loadBoth_of_old_ok hold).trans (congrArg _ hnew)
  have hdefault := snd_comparePair system {} {} "old" "new"
  rw [hboth] at hdefault
  rw [hdefault] at houtcome hcount
  refine ⟨hcoherent, houtcome.trans (by decide), hcount.trans (by decide), ?_, hcut,
    hfailure _ _ hold hcut⟩
  rw [show verdict = _ from snd_comparePair .., hboth]
  decide

end Run

end JsonDelta
