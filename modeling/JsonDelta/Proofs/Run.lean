import Mathlib.Algebra.GroupWithZero.Nat
import JsonDelta.Run
import JsonDelta.Proofs.Pairing
/-!
Runs over two directories. Every pair of documents is compared and reported by itself. Main
statement: such a run writes and counts what the runs over its single pairs do, behind a line for
every name of one directory only.
-/

namespace JsonDelta

/-! What is written, by stream. -/

namespace Event

variable {α : Type}

theorem join_map_flatMap (read : Event → String) (write : α → List Event) (items : List α) :
    String.join ((items.flatMap write).map read) =
      String.join (items.map fun item => String.join ((write item).map read)) := by
  induction items with
  | nil => rfl
  | cons item rest ih => simp [ih]

theorem join_map_log {read : Event → String} (h : ∀ line, read (log line) = "")
    (lines : List LogLine) : String.join ((lines.map log).map read) = "" := by
  induction lines with
  | nil => rfl
  | cons line rest ih => simpa [h] using ih

theorem outText_append (front back : List Event) :
    outText (front ++ back) = outText front ++ outText back := by
  simp [outText]

theorem outText_flatMap (write : α → List Event) (items : List α) :
    outText (items.flatMap write) = String.join (items.map fun item => outText (write item)) :=
  join_map_flatMap _ write items

theorem outText_log (lines : List LogLine) : outText (lines.map log) = "" :=
  join_map_log (fun _ => rfl) lines

theorem outText_log_append (lines : List LogLine) (events : List Event) :
    outText (lines.map log ++ events) = outText events := by
  rw [outText_append, outText_log, String.empty_append]

theorem outText_append_log (events : List Event) (line : LogLine) :
    outText (events ++ [log line]) = outText events := by
  have hline : outText [log line] = "" := outText_log [line]
  rw [outText_append, hline, String.append_empty]

theorem errText_cons (text : String) (events : List Event) :
    errText (.err text :: events) = text ++ errText events := by
  simp [errText]

theorem errText_append (front back : List Event) :
    errText (front ++ back) = errText front ++ errText back := by
  simp [errText]

theorem errText_flatMap (write : α → List Event) (items : List α) :
    errText (items.flatMap write) = String.join (items.map fun item => errText (write item)) :=
  join_map_flatMap _ write items

theorem errText_log (lines : List LogLine) : errText (lines.map log) = "" :=
  join_map_log (fun _ => rfl) lines

theorem errText_log_append (lines : List LogLine) (events : List Event) :
    errText (lines.map log ++ events) = errText events := by
  rw [errText_append, errText_log, String.empty_append]

theorem errText_append_log (events : List Event) (line : LogLine) :
    errText (events ++ [log line]) = errText events := by
  have hline : errText [log line] = "" := errText_log [line]
  rw [errText_append, hline, String.append_empty]

end Event

/-! Counts. -/

namespace Outcome

theorem count_map_eq_sum {α : Type} (o : Outcome) (outcome : α → Outcome) (items : List α) :
    (items.map outcome).count o = (items.map fun item => [outcome item].count o).sum := by
  induction items with
  | nil => rfl
  | cons item rest ih =>
      rw [List.map_cons, List.map_cons, List.sum_cons, ← ih, ← List.count_append,
        List.singleton_append]

theorem count_add_count_add_count (outcomes : List Outcome) :
    outcomes.count .identical + outcomes.count .different + outcomes.count .unreadable =
      outcomes.length := by
  induction outcomes with
  | nil => rfl
  | cons p rest ih => cases p <;> simp <;> omega

end Outcome

theorem Summary.exitStatus_eq_zero_iff {summary : Summary}
    (hvalid : summary.invalidInvocation = false)
    (hsize : summary.different + summary.errors + summary.missing + summary.extra < UInt64.size) :
    summary.exitStatus = 0 ↔ summary.different = 0 ∧ summary.errors = 0 ∧ summary.missing = 0 ∧
      summary.extra = 0 := by
  rw [exitStatus, hvalid]
  simp only [Bool.false_eq_true, ↓reduceIte, Nat.mod_eq_of_lt hsize]
  split
  · omega
  · omega

namespace Run

variable {system : FileSystem} {options : RunOptions} {colors : Colors} {pairing : Pairing}

/-! Lines for the names of one directory only. -/

/-- The text as a line of its own, between escape codes where there is color. -/
def redLine (color : Bool) (text : String) : String :=
  if color then "\x1b[31m" ++ text ++ "\x1b[0m\n" else text ++ "\n"

theorem statusLine_red (color : Bool) (text : String) :
    statusLine color .red text = redLine color text := by
  cases color with
  | false => rfl
  | true => exact String.append_assoc ..

/-- The line for a name of one directory only. -/
def nameLine (colors : Colors) (label name : String) : String :=
  redLine colors.err ("❌ " ++ label ++ "  " ++ name)

theorem errText_nameEvents (label : String) (names : List String) :
    Event.errText (nameEvents colors label names) =
      String.join (names.map (nameLine colors label)) := by
  rw [nameEvents, Event.errText, List.map_map]
  simp only [statusLine_red]
  rfl

theorem outText_nameEvents (label : String) (names : List String) :
    Event.outText (nameEvents colors label names) = "" := by
  induction names with
  | nil => rfl
  | cons name rest ih => simpa [nameEvents, Event.outText] using ih

/-! A run over pairs is made of what it does for each of them. -/

variable [StandardHash]

/-- What is written for two paths. -/
def pairEvents (system : FileSystem) (options : RunOptions) (colors : Colors)
    (paths : String × String) : List Event :=
  let (log, verdict) := comparePair system options { color := colors.err } paths.1 paths.2
  log.map Event.log ++ outcomeEvents options colors paths.1 paths.2 verdict

def pairOutcome (system : FileSystem) (options : RunOptions) (colors : Colors)
    (paths : String × String) : Outcome :=
  (comparePair system options { color := colors.err } paths.1 paths.2).2.outcome

theorem snd_runPairs : (runPairs system options colors pairing).2 =
    summarize pairing (pairing.pairs.map (pairOutcome system options colors)) := by
  rw [runPairs, List.map_map]
  rfl

theorem fst_runPairs : (runPairs system options colors pairing).1 =
    nameEvents colors "[MISS]" pairing.missing ++ nameEvents colors "[NEW ]" pairing.extra ++
      pairing.pairs.flatMap (pairEvents system options colors) ++
        [.log (runPairs system options colors pairing).2.infoLine] := by
  rw [snd_runPairs, runPairs, List.map_map, List.flatMap_map]
  rfl

/-- The pair alone, as two paths of files have it. -/
def alone (paths : String × String) : Pairing := { pairs := [paths] }

theorem fst_runPairs_alone (paths : String × String) :
    (runPairs system options colors (alone paths)).1 =
      pairEvents system options colors paths ++
        [.log (runPairs system options colors (alone paths)).2.infoLine] := by
  simp [fst_runPairs, alone, nameEvents]

theorem outText_runPairs : Event.outText (runPairs system options colors pairing).1 =
    String.join (pairing.pairs.map fun paths =>
      Event.outText (runPairs system options colors (alone paths)).1) := by
  simp only [fst_runPairs_alone, Event.outText_append_log]
  rw [fst_runPairs, Event.outText_append_log, Event.outText_append, Event.outText_append,
    outText_nameEvents, outText_nameEvents, Event.outText_flatMap]
  simp only [String.empty_append]

theorem errText_runPairs : Event.errText (runPairs system options colors pairing).1 =
    String.join (pairing.missing.map (nameLine colors "[MISS]")) ++
      String.join (pairing.extra.map (nameLine colors "[NEW ]")) ++
        String.join (pairing.pairs.map fun paths =>
          Event.errText (runPairs system options colors (alone paths)).1) := by
  simp only [fst_runPairs_alone, Event.errText_append_log]
  rw [fst_runPairs, Event.errText_append_log, Event.errText_append, Event.errText_append,
    errText_nameEvents, errText_nameEvents, Event.errText_flatMap]

theorem identical_runPairs : (runPairs system options colors pairing).2.identical =
    (pairing.pairs.map fun paths =>
      (runPairs system options colors (alone paths)).2.identical).sum := by
  simp only [snd_runPairs, summarize]
  exact Outcome.count_map_eq_sum .identical (pairOutcome system options colors) pairing.pairs

theorem different_runPairs : (runPairs system options colors pairing).2.different =
    (pairing.pairs.map fun paths =>
      (runPairs system options colors (alone paths)).2.different).sum := by
  simp only [snd_runPairs, summarize]
  exact Outcome.count_map_eq_sum .different (pairOutcome system options colors) pairing.pairs

theorem errors_runPairs : (runPairs system options colors pairing).2.errors =
    (pairing.pairs.map fun paths =>
      (runPairs system options colors (alone paths)).2.errors).sum := by
  simp only [snd_runPairs, summarize]
  exact Outcome.count_map_eq_sum .unreadable (pairOutcome system options colors) pairing.pairs

theorem length_pairs (system : FileSystem) (options : RunOptions) (colors : Colors)
    (pairing : Pairing) : (runPairs system options colors pairing).2.identical +
    (runPairs system options colors pairing).2.different +
      (runPairs system options colors pairing).2.errors = pairing.pairs.length := by
  rw [snd_runPairs, summarize]
  simpa using Outcome.count_add_count_add_count
    (pairing.pairs.map (pairOutcome system options colors))

/-- The exit status, as long as the names can be counted in 64 bits. -/
theorem exitStatus_runPairs (hsize : pairing.missing.length + pairing.extra.length +
      pairing.pairs.length < UInt64.size) :
    (runPairs system options colors pairing).2.exitStatus = 0 ↔
      pairing.missing = [] ∧ pairing.extra = [] ∧
        (runPairs system options colors pairing).2.different = 0 ∧
          (runPairs system options colors pairing).2.errors = 0 := by
  have hpairs := length_pairs system options colors pairing
  have hmissing : (runPairs system options colors pairing).2.missing = pairing.missing.length := rfl
  have hextra : (runPairs system options colors pairing).2.extra = pairing.extra.length := rfl
  rw [Summary.exitStatus_eq_zero_iff rfl (by omega), hmissing, hextra, List.length_eq_zero_iff,
    List.length_eq_zero_iff]
  tauto

theorem exitStatus_runPairs_alone (paths : String × String) :
    (runPairs system options colors (alone paths)).2.exitStatus = 0 ↔
      (runPairs system options colors (alone paths)).2.different = 0 ∧
        (runPairs system options colors (alone paths)).2.errors = 0 := by
  have hsize : (alone paths).missing.length + (alone paths).extra.length +
      (alone paths).pairs.length < UInt64.size := by
    show 0 + 0 + 1 < UInt64.size
    decide
  rw [exitStatus_runPairs hsize]
  simp [alone]

theorem exitStatus_runPairs_iff_alone (hsize : pairing.missing.length + pairing.extra.length +
      pairing.pairs.length < UInt64.size) :
    (runPairs system options colors pairing).2.exitStatus = 0 ↔
      pairing.missing = [] ∧ pairing.extra = [] ∧ ∀ paths ∈ pairing.pairs,
        (runPairs system options colors (alone paths)).2.exitStatus = 0 := by
  rw [exitStatus_runPairs hsize, different_runPairs, errors_runPairs,
    List.sum_eq_zero_iff_forall_eq_nat, List.sum_eq_zero_iff_forall_eq_nat, List.forall_mem_map,
    List.forall_mem_map]
  simp only [exitStatus_runPairs_alone, forall_and]

end Run

/-! Runs over directories. -/

namespace RunOptions

/-- The two files of a document of both directories. -/
def documentPaths (options : RunOptions) (name : String) : String × String :=
  (Pairing.childPath options.path1 name, Pairing.childPath options.path2 name)

/-- With these two files in place of the directories. -/
def onlyDocument (options : RunOptions) (name : String) : RunOptions :=
  { options with
    path1 := (options.documentPaths name).1
    path2 := (options.documentPaths name).2 }

def colors (options : RunOptions) (console : Console) : Run.Colors where
  out := options.colorMode.isEnabled console.noColor console.outTerminal
  err := options.colorMode.isEnabled console.noColor console.errTerminal

end RunOptions

section Directories

variable {system : FileSystem} {options : RunOptions} {old new : List (String × FileTree)}

variable [StandardHash]

theorem run_of_pairing {log : List LogLine} {pairing : Pairing} (console : Console)
    (h : Pairing.ofPaths system options.recursive options.path1 options.path2 =
      .ok (log, pairing)) :
    run system console options =
      (log.map Event.log ++ (Run.runPairs system options (options.colors console) pairing).1,
        (Run.runPairs system options (options.colors console) pairing).2) := by
  rw [run, h]
  rfl

theorem runPairs_onlyDocument (name : String) (colors : Run.Colors) (pairing : Pairing) :
    Run.runPairs system (options.onlyDocument name) colors pairing =
      Run.runPairs system options colors pairing := by
  have hcompare : Run.comparePair system (options.onlyDocument name) =
      Run.comparePair system options := by
    funext render oldPath newPath
    simp only [Run.comparePair, RunOptions.onlyDocument]
  have houtcome : Run.outcomeEvents (options.onlyDocument name) = Run.outcomeEvents options := by
    funext colors oldPath newPath verdict
    simp only [Run.outcomeEvents, RunOptions.onlyDocument]
    rfl
  rw [Run.runPairs, Run.runPairs, hcompare, houtcome]

theorem run_onlyDocument {name : String} (console : Console)
    (hroot : system.root.WellNamed)
    (hnul1 : '\x00' ∉ options.path1.toList) (hnul2 : '\x00' ∉ options.path2.toList)
    (hold : system.find? options.path1 = some (.directory old))
    (hnew : system.find? options.path2 = some (.directory new))
    (holdName : HoldsDocument options.recursive old name)
    (hnewName : HoldsDocument options.recursive new name) :
    run system console (options.onlyDocument name) =
      Run.runPairs system options (options.colors console)
        (Run.alone (options.documentPaths name)) := by
  obtain ⟨oldContent, holdFile⟩ := Pairing.exists_find?_document hnul1 hroot hold holdName
  obtain ⟨newContent, hnewFile⟩ := Pairing.exists_find?_document hnul2 hroot hnew hnewName
  have hpairing : Pairing.ofPaths system (options.onlyDocument name).recursive
      (options.onlyDocument name).path1 (options.onlyDocument name).path2 =
        .ok ([], Run.alone (options.documentPaths name)) :=
    Pairing.ofPaths_files holdFile hnewFile
  have hcolors : (options.onlyDocument name).colors console = options.colors console := rfl
  rw [run_of_pairing console hpairing, runPairs_onlyDocument, hcolors, List.map_nil,
    List.nil_append]

/-- A run over two directories is made of the runs over the single pairs. A path text cannot hold a
NUL character, which would end it before the name of the document; the names are fewer than the
words of 64 bits that the exit status adds. -/
theorem run_directories (console : Console) (hroot : system.root.WellNamed)
    (hnul1 : '\x00' ∉ options.path1.toList) (hnul2 : '\x00' ∉ options.path2.toList)
    (hold : system.find? options.path1 = some (.directory old))
    (hnew : system.find? options.path2 = some (.directory new)) :
    let whole := run system console options
    let single name := run system console (options.onlyDocument name)
    let nameLine (label name : String) : String :=
      let text := "❌ " ++ label ++ "  " ++ name
      if (options.colors console).err then "\x1b[31m" ++ text ++ "\x1b[0m\n" else text ++ "\n"
    ∃ missing extra common : List String,
      ListsInOrder missing (fun name => HoldsDocument options.recursive old name ∧
        ¬HoldsDocument options.recursive new name) ∧
      ListsInOrder extra (fun name => HoldsDocument options.recursive new name ∧
        ¬HoldsDocument options.recursive old name) ∧
      ListsInOrder common (fun name => HoldsDocument options.recursive old name ∧
        HoldsDocument options.recursive new name) ∧
      Event.outText whole.1 = String.join (common.map fun name => Event.outText (single name).1) ∧
      Event.errText whole.1 = String.join (missing.map (nameLine "[MISS]")) ++
        String.join (extra.map (nameLine "[NEW ]")) ++
          String.join (common.map fun name => Event.errText (single name).1) ∧
      whole.2.identical = (common.map fun name => (single name).2.identical).sum ∧
      whole.2.different = (common.map fun name => (single name).2.different).sum ∧
      whole.2.errors = (common.map fun name => (single name).2.errors).sum ∧
      whole.2.identical + whole.2.different + whole.2.errors = common.length ∧
      whole.2.missing = missing.length ∧ whole.2.extra = extra.length ∧
      (missing.length + extra.length + common.length < UInt64.size →
        (whole.2.exitStatus = 0 ↔
          missing = [] ∧ extra = [] ∧ ∀ name ∈ common, (single name).2.exitStatus = 0)) := by
  obtain ⟨missing, extra, common, hmissing, hextra, hcommon, hpairing⟩ :=
    Pairing.exists_ofDirectories options.recursive options.path1 options.path2 old new
  have hpaths : Pairing.ofPaths system options.recursive options.path1 options.path2 = _ :=
    Pairing.ofPaths_directories hold hnew
  rw [hpairing] at hpaths
  have hsingle : ∀ name ∈ common, run system console (options.onlyDocument name) =
      Run.runPairs system options (options.colors console)
        (Run.alone (options.documentPaths name)) := by
    intro name hname
    obtain ⟨holdName, hnewName⟩ := (hcommon.mem_iff name).1 hname
    exact run_onlyDocument console hroot hnul1 hnul2 hold hnew holdName hnewName
  have hmap : ∀ {β : Type} (read : List Event × Summary → β),
      (common.map fun name => read (run system console (options.onlyDocument name))) =
        (common.map options.documentPaths).map fun paths =>
          read (Run.runPairs system options (options.colors console) (Run.alone paths)) := by
    intro β read
    rw [List.map_map]
    exact List.map_congr_left fun name hname => congrArg read (hsingle name hname)
  rw [run_of_pairing console hpaths]
  refine ⟨missing, extra, common, hmissing, hextra, hcommon, ?_, ?_, ?_, ?_, ?_, ?_, rfl, rfl, ?_⟩
  · rw [hmap fun result => Event.outText result.1, Event.outText_log_append]
    exact Run.outText_runPairs
  · rw [hmap fun result => Event.errText result.1, Event.errText_log_append]
    exact Run.errText_runPairs
  · rw [hmap fun result => result.2.identical]
    exact Run.identical_runPairs
  · rw [hmap fun result => result.2.different]
    exact Run.different_runPairs
  · rw [hmap fun result => result.2.errors]
    exact Run.errors_runPairs
  · rw [Run.length_pairs]
    exact List.length_map _
  · intro hsize
    rw [Run.exitStatus_runPairs_iff_alone (by simpa using hsize), List.forall_mem_map]
    refine and_congr_right fun _ => and_congr_right fun _ => forall₂_congr fun name hname => ?_
    show _ ↔ (run system console (options.onlyDocument name)).2.exitStatus = 0
    rw [hsingle name hname]
    rfl

end Directories

/-! Two directories: each has a document of its own, one of the others is broken, one lies below. -/

def oldEntries : List (String × FileTree) :=
  [("left.json", .file "1".toUTF8), ("notes.txt", .file "".toUTF8),
    ("broken.json", .file "[".toUTF8), ("part", .directory [("same.json", .file "[1]".toUTF8)])]

def newEntries : List (String × FileTree) :=
  [("part", .directory [("more.json", .file "2".toUTF8), ("same.json", .file "[1]".toUTF8)]),
    ("broken.json", .file "1".toUTF8)]

def twoDirectories : FileSystem where
  root := .directory [("old", .directory oldEntries), ("new", .directory newEntries)]

def compareThem : RunOptions :=
  { path1 := "old", path2 := "/new/", recursive := true, colorMode := .always }

theorem run_directories_nested :
    let whole := run twoDirectories {} compareThem
    let single name := run twoDirectories {} (compareThem.onlyDocument name)
    Event.outText whole.1 =
      Event.outText (single "broken.json").1 ++ Event.outText (single "part/same.json").1 ∧
    Event.errText whole.1 =
      "\x1b[31m❌ [MISS]  left.json\x1b[0m\n\x1b[31m❌ [NEW ]  part/more.json\x1b[0m\n" ++
        (Event.errText (single "broken.json").1 ++ Event.errText (single "part/same.json").1) ∧
    whole.2.identical + whole.2.different + whole.2.errors = 2 ∧ whole.2.exitStatus ≠ 0 := by
  have hroot : twoDirectories.root.WellNamed := by
    simp [twoDirectories, oldEntries, newEntries, FileTree.WellNamed, FileTree.EntriesWellNamed,
      isEntryName_iff]
  have hold : twoDirectories.find? compareThem.path1 = some (.directory oldEntries) := by
    have hchars : FileSystem.pathChars compareThem.path1 = ['o', 'l', 'd'] := by decide
    have hnames : FileSystem.pathNames compareThem.path1 = ["old"] := by decide
    simp [FileSystem.find?, hchars, hnames, twoDirectories, FileSystem.walk]
  have hnew : twoDirectories.find? compareThem.path2 = some (.directory newEntries) := by
    have hchars : FileSystem.pathChars compareThem.path2 = ['/', 'n', 'e', 'w', '/'] := by decide
    have hnames : FileSystem.pathNames compareThem.path2 = ["", "new", ""] := by decide
    simp [FileSystem.find?, hchars, hnames, twoDirectories, FileSystem.walk, List.lookup_cons]
  have holdNames : documentNames true oldEntries =
      ["left.json", "broken.json", "part/same.json"] := by
    simp [oldEntries, documentNames, isDocumentName]
    decide
  have hnewNames : documentNames true newEntries =
      ["part/more.json", "part/same.json", "broken.json"] := by
    simp [newEntries, documentNames, isDocumentName]
    decide
  have hmissing : ListsInOrder ["left.json"]
      (fun name => HoldsDocument true oldEntries name ∧ ¬HoldsDocument true newEntries name) := by
    refine ⟨by decide, fun text => ?_⟩
    simp only [← mem_documentNames_iff, holdNames, hnewNames]
    grind
  have hextra : ListsInOrder ["part/more.json"]
      (fun name => HoldsDocument true newEntries name ∧ ¬HoldsDocument true oldEntries name) := by
    refine ⟨by decide, fun text => ?_⟩
    simp only [← mem_documentNames_iff, holdNames, hnewNames]
    grind
  have hcommon : ListsInOrder ["broken.json", "part/same.json"]
      (fun name => HoldsDocument true oldEntries name ∧ HoldsDocument true newEntries name) := by
    refine ⟨by decide, fun text => ?_⟩
    simp only [← mem_documentNames_iff, holdNames, hnewNames]
    grind
  obtain ⟨missing, extra, common, hmissing', hextra', hcommon', hout, herr, -, -, -, hpairs, -, -,
    hexit⟩ := run_directories {} hroot (by decide) (by decide) hold hnew
  obtain rfl := hmissing'.unique hmissing
  obtain rfl := hextra'.unique hextra
  obtain rfl := hcommon'.unique hcommon
  have hjoin (first second : String) : String.join [first, second] = first ++ second := by simp
  refine ⟨hout.trans (hjoin _ _), herr.trans (congrArg₂ (· ++ ·) ?_ (hjoin _ _)), hpairs, ?_⟩
  · decide
  · simp [hexit (by decide)]

end JsonDelta
