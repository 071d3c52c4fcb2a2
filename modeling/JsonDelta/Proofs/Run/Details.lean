import JsonDelta.Proofs.Comparison.Verdict
import JsonDelta.Proofs.Report.Ending
import JsonDelta.Proofs.Run
import JsonDelta.Proofs.Run.Pair
/-!
Details of the pairs that differ. Main statement: in a verbose run the report of such a pair stands
on the error stream between the status line of the pair and the next one, each line of it with a
mark in front, and without the marks it is the report again.
-/

namespace JsonDelta

/-! Reports in lines. -/

namespace Report

variable {text : String}

theorem EndsInLine.textLines_eq (h : EndsInLine text) : Run.textLines text = splitLines text := by
  have hlast : (text.toList.splitOn '\n').getLast? ≠ some [] := by
    intro hlast
    obtain ⟨c, hc, hne⟩ := h
    rcases eq_newline_of_getLast?_splitOn hlast with hnil | hbreak
    · rw [hnil] at hc
      cases hc
    · rw [hbreak] at hc
      exact hne (Option.some.inj hc).symm
  rw [splitLines_of_ne h.ne_empty, Run.textLines, if_neg hlast]

theorem not_mem_leftOutNote (k : Nat) : '\n' ∉ (Listing.leftOutNote k).toList := by
  rw [Listing.leftOutNote]
  split
  · decide
  · simp [Text.not_mem_of_printable (Decimal.printable_natText k)]

end Report

namespace Run

open Report

variable {colors : Colors} {report text : String}

/-! The details of one pair. -/

def closeLines (lines : List String) : String := String.join (lines.map (· ++ "\n"))

/-- An empty line, the marked lines of a report, and the mark alone. -/
def detailLines (report : String) : List String :=
  "" :: ((splitLines report).map (detailsMark ++ ·) ++ [detailsMark])

/-- The line without a mark in front. -/
def unmark (line : String) : String := String.ofList (line.toList.drop detailsMark.length)

theorem unmark_mark (line : String) : unmark (detailsMark ++ line) = line := by
  rw [unmark, String.toList_append, ← String.length_toList, List.drop_left, String.ofList_toList]

theorem errText_detailEvents (h : EndsInLine report) :
    Event.errText (detailEvents report) = closeLines (detailLines report) := by
  rw [detailEvents, h.textLines_eq, Event.errText, closeLines, detailLines]
  simp [Function.comp_def]

theorem not_mem_of_mem_detailLines {line : String} (h : line ∈ detailLines report) :
    '\n' ∉ line.toList := by
  have hmark : '\n' ∉ detailsMark.toList := by decide
  rcases List.mem_cons.1 h with rfl | h
  · simp
  · rcases List.mem_append.1 h with h | h
    · obtain ⟨line, hline, rfl⟩ := List.mem_map.1 h
      simp [hmark, not_mem_of_mem_splitLines hline]
    · rwa [List.mem_singleton.1 h]

theorem mark_prefix_of_mem_detailLines {line : String} (h : line ∈ (detailLines report).tail) :
    detailsMark.toList <+: line.toList := by
  rcases List.mem_append.1 h with h | h
  · obtain ⟨line, -, rfl⟩ := List.mem_map.1 h
    rw [String.toList_append]
    exact List.prefix_append _ _
  · rw [List.mem_singleton.1 h]

/-- Between the first and the last line stands the report. -/
theorem intercalate_unmark (report : String) :
    "\n".intercalate ((detailLines report).tail.dropLast.map unmark) = report := by
  have hlines : (detailLines report).tail.dropLast.map unmark = splitLines report := by
    rw [detailLines, List.tail_cons, List.dropLast_concat, List.map_map]
    simp [Function.comp_def, unmark_mark]
  rw [hlines, intercalate_splitLines]

/-! Status lines. -/

/-- A line that says what became of a pair, or that a name has none. -/
def IsStatusLine (colors : Colors) (text : String) : Prop :=
  ∃ label ∈ ["[MISS]", "[NEW ]", "[DIFF]", "[ERROR]"], ∃ rest,
    text = redLine colors.err ("❌ " ++ label ++ rest)

theorem not_mark_prefix_of_isStatusLine (h : IsStatusLine colors text) :
    ¬ detailsMark.toList <+: text.toList := by
  obtain ⟨label, -, rest, rfl⟩ := h
  cases hcolor : colors.err <;> simp [redLine, detailsMark]

def differenceLine (colors : Colors) (paths : String × String) : String :=
  redLine colors.err ("❌ [DIFF] " ++ pairText paths.1 paths.2)

theorem isStatusLine_differenceLine (colors : Colors) (paths : String × String) :
    IsStatusLine colors (differenceLine colors paths) := by
  refine ⟨"[DIFF]", by decide, " " ++ pairText paths.1 paths.2, ?_⟩
  rw [differenceLine, ← String.append_assoc]
  rfl

def unreadableLine (colors : Colors) (paths : String × String) : String :=
  redLine colors.err ("❌ [ERROR] reading or parsing " ++ paths.1 ++ " or " ++ paths.2 ++ ".")

theorem isStatusLine_unreadableLine (colors : Colors) (paths : String × String) :
    IsStatusLine colors (unreadableLine colors paths) := by
  refine ⟨"[ERROR]", by decide, " reading or parsing " ++ paths.1 ++ " or " ++ paths.2 ++ ".", ?_⟩
  rw [unreadableLine]
  simp only [← String.append_assoc]
  rfl

end Run

section AnyHash

variable [StandardHash]

open Report in
theorem Comparison.endsInLine_verdict {options : CompareOptions} {render : RenderOptions}
    {old new : Document} (h : (verdict options render old new).outcome = .different) :
    EndsInLine (verdict options render old new).report := by
  rw [verdict_eq_format] at h ⊢
  by_cases hempty : (ChangeSet.between (diffOptions options) old new).isEmpty = true
  · rw [if_pos hempty] at h
    cases h
  · obtain ⟨k, hnote, -⟩ := Listing.flatten_accounts
      (.between (diffOptions options) old new) options.limit
    rw [if_neg hempty]
    exact endsInLine_render _ _ (Listing.entries_flatten_ne_nil _ _ hempty)
      (hnote ▸ not_mem_leftOutNote k)

namespace Run

open Report

variable {system : FileSystem} {options : RunOptions} {render : RenderOptions} {colors : Colors}
  {oldPath newPath : String}

theorem endsInLine_comparePair
    (h : (comparePair system options render oldPath newPath).2.outcome = .different) :
    EndsInLine (comparePair system options render oldPath newPath).2.report := by
  rw [snd_comparePair] at h ⊢
  cases hboth : system.loadBoth oldPath newPath with
  | error failure =>
      rw [hboth] at h
      cases h
  | ok documents =>
      rw [hboth] at h
      exact Comparison.endsInLine_verdict h

theorem errText_pairEvents_of_different {paths : String × String}
    (hverbose : options.verbose = true)
    (h : pairOutcome system options colors paths = .different) :
    Event.errText (pairEvents system options colors paths) = differenceLine colors paths ++
      closeLines (detailLines
        (comparePair system options { color := colors.err } paths.1 paths.2).2.report) := by
  have hend := endsInLine_comparePair h
  rw [pairOutcome] at h
  rw [pairEvents, Event.errText_log_append, outcomeEvents, h]
  dsimp only
  rw [if_pos hverbose, Event.errText_cons, errText_detailEvents hend, statusLine_red]
  rfl

/-- What is written for a pair begins with its status line. -/
theorem errText_pairEvents_cases (paths : String × String) :
    Event.errText (pairEvents system options colors paths) = "" ∨ ∃ line rest,
      IsStatusLine colors line ∧
        Event.errText (pairEvents system options colors paths) = line ++ rest := by
  rw [pairEvents, Event.errText_log_append, outcomeEvents]
  split
  · exact .inl rfl
  · rw [Event.errText_cons, statusLine_red]
    exact .inr ⟨_, _, isStatusLine_differenceLine colors paths, rfl⟩
  · rw [Event.errText_cons, statusLine_red]
    exact .inr ⟨_, _, isStatusLine_unreadableLine colors paths, rfl⟩

/-- What is written to the error stream for some pairs. -/
def pairsText (system : FileSystem) (options : RunOptions) (colors : Colors)
    (pairs : List (String × String)) : String :=
  Event.errText (pairs.flatMap (pairEvents system options colors))

theorem pairsText_cons (paths : String × String) (pairs : List (String × String)) :
    pairsText system options colors (paths :: pairs) =
      Event.errText (pairEvents system options colors paths) ++
        pairsText system options colors pairs := by
  rw [pairsText, List.flatMap_cons, Event.errText_append, pairsText]

theorem pairsText_cases (pairs : List (String × String)) :
    pairsText system options colors pairs = "" ∨ ∃ line rest,
      IsStatusLine colors line ∧ pairsText system options colors pairs = line ++ rest := by
  induction pairs with
  | nil => exact .inl rfl
  | cons paths pairs ih =>
      rw [pairsText_cons]
      rcases errText_pairEvents_cases paths with hempty | ⟨line, rest, hline, heq⟩
      · rw [hempty, String.empty_append]
        exact ih
      · exact .inr ⟨line, _, hline, by rw [heq, String.append_assoc]⟩

/-- What a run over pairs writes before, for and behind one of them. -/
theorem errText_runPairs_of_pairs {pairing : Pairing} {before behind : List (String × String)}
    {paths : String × String} (h : pairing.pairs = before ++ paths :: behind) :
    Event.errText (runPairs system options colors pairing).1 =
      String.join (pairing.missing.map (nameLine colors "[MISS]")) ++
        String.join (pairing.extra.map (nameLine colors "[NEW ]")) ++
          pairsText system options colors before ++
            (Event.errText (pairEvents system options colors paths) ++
              pairsText system options colors behind) := by
  rw [fst_runPairs, Event.errText_append_log, Event.errText_append, Event.errText_append,
    errText_nameEvents, errText_nameEvents, h, List.flatMap_append, Event.errText_append,
    ← String.append_assoc, ← pairsText_cons]
  rfl

end Run

/-- In a verbose run a pair that differs has its report between its own status line and the next
one: an empty line, the lines of the report with a mark in front, and the mark alone. Without the
marks the lines between the first and the last are the report, all lines but the first have the
mark, and no status line has it. -/
theorem run_details {system : FileSystem} {options : RunOptions} (console : Console)
    (hverbose : options.verbose = true) {log : List LogLine} {pairing : Pairing}
    (hpairing : Pairing.ofPaths system options.recursive options.path1 options.path2 =
      .ok (log, pairing))
    {before behind : List (String × String)} {paths : String × String}
    (hpairs : pairing.pairs = before ++ paths :: behind) {verdict : Verdict}
    (hverdict : (Run.comparePair system options { color := (options.colors console).err }
      paths.1 paths.2).2 = verdict) (hdifferent : verdict.outcome = .different) :
    let colors := options.colors console
    let lines := Run.detailLines verdict.report
    let pairsText := Run.pairsText system options colors
    Event.errText (run system console options).1 =
        String.join (pairing.missing.map (Run.nameLine colors "[MISS]")) ++
          String.join (pairing.extra.map (Run.nameLine colors "[NEW ]")) ++ pairsText before ++
            (Run.differenceLine colors paths ++ Run.closeLines lines ++ pairsText behind) ∧
      (pairsText behind = "" ∨ ∃ line rest,
        Run.IsStatusLine colors line ∧ pairsText behind = line ++ rest) ∧
      lines = "" ::
        ((Report.splitLines verdict.report).map ("[details]    " ++ ·) ++ ["[details]    "]) ∧
      (∀ line ∈ lines, '\n' ∉ line.toList) ∧
      "\n".intercalate (lines.tail.dropLast.map Run.unmark) = verdict.report ∧
      (∀ line ∈ lines.tail, Run.detailsMark.toList <+: line.toList) ∧
      ∀ line, Run.IsStatusLine colors line → ¬ Run.detailsMark.toList <+: line.toList := by
  subst verdict
  intro colors lines pairsText
  refine ⟨?_, Run.pairsText_cases behind, rfl, fun line => Run.not_mem_of_mem_detailLines,
    Run.intercalate_unmark _, fun line => Run.mark_prefix_of_mem_detailLines,
    fun line => Run.not_mark_prefix_of_isStatusLine⟩
  rw [run_of_pairing console hpairing, Event.errText_log_append,
    Run.errText_runPairs_of_pairs hpairs, Run.errText_pairEvents_of_different hverbose hdifferent]

/-! Two directories with a key that has a line break. -/

end AnyHash

def oldVersions : List (String × FileTree) :=
  [("a.json", .file "\x7b\"x\\ny\":1\x7d".toUTF8), ("b.json", .file "[".toUTF8)]

def newVersions : List (String × FileTree) :=
  [("a.json", .file "\x7b\"x\\ny\":2\x7d".toUTF8), ("b.json", .file "1".toUTF8)]

def versions : FileSystem :=
  { root := .directory [("old", .directory oldVersions), ("new", .directory newVersions)] }

def inDetail : RunOptions := { path1 := "old", path2 := "new", verbose := true }

/-- The second pair cannot be read. -/
theorem run_details_broken_key :
    let colors := inDetail.colors {}
    let first := ("old/a.json", "new/a.json")
    let second := ("old/b.json", "new/b.json")
    let report := "  [x\ny]\n-     1\n+     2"
    Pairing.ofPaths versions false "old" "new" =
        .ok ([⟨.debug, "2 pair(s), 0 missing, 0 extra"⟩], { pairs := [first, second] }) ∧
      (Run.comparePair versions inDetail { color := colors.err } first.1 first.2).2 =
        { outcome := .different, changeCount := 2, report := report } ∧
      Event.errText (run versions {} inDetail).1 =
        "❌ [DIFF] old/a.json                               <-> new/a.json\n" ++
          ("\n[details]      [x\n[details]    y]\n[details]    -     1\n[details]    +     2\n" ++
            "[details]    \n") ++
          "❌ [ERROR] reading or parsing old/b.json or new/b.json.\n" := by
  intro colors first second report
  have hpairing : Pairing.ofPaths versions false "old" "new" =
      .ok ([⟨.debug, "2 pair(s), 0 missing, 0 extra"⟩], { pairs := [first, second] }) := by
    have hold : versions.find? "old" = some (.directory oldVersions) := rfl
    have hnew : versions.find? "new" = some (.directory newVersions) := rfl
    have holdNames : documentNames false oldVersions = ["a.json", "b.json"] := by
      simp [oldVersions, documentNames, isDocumentName]
    have hnewNames : documentNames false newVersions = ["a.json", "b.json"] := by
      simp [newVersions, documentNames, isDocumentName]
    rw [Pairing.ofPaths_directories hold hnew, Pairing.ofDirectories, holdNames, hnewNames]
    rfl
  have hold : versions.load "old/a.json" = .ok (.object [("x\ny", .number (.unsigned 1))]) :=
    FileSystem.load_of_find? "\x7b\"x\\ny\":1\x7d" (by decide) rfl
  have hnew : versions.load "new/a.json" = .ok (.object [("x\ny", .number (.unsigned 2))]) :=
    FileSystem.load_of_find? "\x7b\"x\\ny\":2\x7d" (by decide) rfl
  have hcut : versions.load "old/b.json" = .error (.malformed (some "old/b.json")) :=
    FileSystem.load_of_find? "[" (by decide) rfl
  have hverdict : (Run.comparePair versions inDetail { color := colors.err } first.1 first.2).2 =
      { outcome := .different, changeCount := 2, report := report } := by
    rw [Run.snd_comparePair, FileSystem.loadBoth_of_old_ok hold, hnew]
    rfl
  have hlines : Run.closeLines (Run.detailLines report) =
      "\n[details]      [x\n[details]    y]\n[details]    -     1\n[details]    +     2\n" ++
        "[details]    \n" := by
    decide
  have hfirst : Run.differenceLine colors first =
      "❌ [DIFF] old/a.json                               <-> new/a.json\n" := by
    decide
  have hsecond : Run.pairsText versions inDetail colors [second] =
      "❌ [ERROR] reading or parsing old/b.json or new/b.json.\n" := by
    rw [Run.pairsText, List.flatMap_singleton, Run.pairEvents, Event.errText_log_append,
      Run.snd_comparePair, FileSystem.loadBoth_of_old_error hcut]
    decide
  have hpairs : [first, second] = [] ++ first :: [second] := rfl
  obtain ⟨htext, -⟩ := run_details {} rfl hpairing hpairs hverdict rfl
  refine ⟨hpairing, hverdict, htext.trans ?_⟩
  have hnothing : String.join [] ++ String.join [] ++ Run.pairsText versions inDetail colors [] =
      "" := rfl
  rw [List.map_nil, List.map_nil, hnothing, hfirst, hlines, hsecond, String.empty_append]

end JsonDelta
