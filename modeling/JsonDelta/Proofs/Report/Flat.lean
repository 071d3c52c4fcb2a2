import Mathlib.Algebra.GroupWithZero.Nat
import JsonDelta.Proofs.Document.Printable
import JsonDelta.Proofs.Report.Lines
/-!
Flat reports, line by line. Of all that is put in the line of an entry only the keys of its path can
break the line, because they are not escaped. Main statement: the lines of a flat report are those
of its entries, in order, and the note; there is one for each entry exactly if no key has a line
break.
-/

namespace JsonDelta

/-! The line breaks of a path. -/

/-- No key of the path has a line break. -/
def Path.OneLine (path : Path) : Prop := ∀ name, .key name ∈ path → '\n' ∉ name.toList

def Segment.lineBreaks : Segment → Nat
  | .key name => name.toList.count '\n'
  | .index _ => 0

def Path.lineBreaks (path : Path) : Nat := (path.map Segment.lineBreaks).sum

theorem Segment.count_accessor (s : Segment) : s.accessor.toList.count '\n' = s.lineBreaks := by
  cases s with
  | index n =>
      have hindex : '\n' ∉ (Decimal.intText n).toList :=
        Text.not_mem_of_printable (Decimal.printable_intText n)
      simp [accessor, lineBreaks, List.count_eq_zero.2 hindex]
  | key name =>
      by_cases h : '\'' ∈ name.toList
      · simp [accessor, lineBreaks, h]
      · simp [accessor, lineBreaks, h]

namespace Path

theorem count_accessor (path : Path) : path.accessor.toList.count '\n' = path.lineBreaks := by
  rw [accessor, String.toList_join, List.flatMap_map, List.count_flatMap, lineBreaks]
  congr 1
  exact List.map_congr_left fun s _ => s.count_accessor

theorem lineBreaks_eq_zero_iff {path : Path} : path.lineBreaks = 0 ↔ path.OneLine := by
  rw [lineBreaks, List.sum_eq_zero_iff_forall_eq_nat, List.forall_mem_map]
  constructor
  · intro h name hname
    exact List.count_eq_zero.1 (h _ hname)
  · intro h s hs
    cases s with
    | key name => exact List.count_eq_zero.2 (h name hs)
    | index n => rfl

end Path

theorem Color.count_paint (enabled : Bool) (color : Color) (text : String) :
    (color.paint enabled text).toList.count '\n' = text.toList.count '\n' := by
  cases enabled with
  | false => rfl
  | true => cases color <;> simp [paint, code?, reset]

theorem Color.paint_ne_empty (enabled : Bool) (color : Color) {text : String} (h : text ≠ "") :
    color.paint enabled text ≠ "" := by
  cases enabled with
  | false => exact h
  | true => cases color <;> simp [paint, code?, h]

namespace Report

variable {options : RenderOptions} {entry : Entry} {entries : List Entry} {note : String}

/-! The line of one entry. -/

theorem entryLine_ne_empty (options : RenderOptions) (entry : Entry) :
    entryLine options entry ≠ "" :=
  Color.paint_ne_empty _ _ (by simp)

theorem count_entryLine (options : RenderOptions) (entry : Entry) :
    (entryLine options entry).toList.count '\n' = entry.path.lineBreaks := by
  have hleader : entry.tag.leader.toList.count '\n' = 0 :=
    List.count_eq_zero.2 (not_mem_leader entry.tag)
  have hpreview : (entry.value.preview options.lengthLimit).toList.count '\n' = 0 :=
    List.count_eq_zero.2 (Text.not_mem_of_printable (entry.value.printable_preview _))
  rw [entryLine, Color.count_paint]
  simp [hleader, hpreview, Path.count_accessor]

/-- The entry has one line, and another one for each line break in a key. -/
theorem length_splitLines_entryLine (options : RenderOptions) (entry : Entry) :
    (splitLines (entryLine options entry)).length = entry.path.lineBreaks + 1 := by
  rw [length_splitLines (entryLine_ne_empty options entry), count_entryLine]

theorem splitLines_entryLine (h : entry.path.OneLine) :
    splitLines (entryLine options entry) = [entryLine options entry] := by
  apply splitLines_of_not_mem (entryLine_ne_empty options entry)
  apply List.count_eq_zero.1
  rw [count_entryLine]
  exact Path.lineBreaks_eq_zero_iff.2 h

/-! The lines of all entries. -/

theorem splitLines_renderFlat_eq (options : RenderOptions) (hnote : '\n' ∉ note.toList)
    (entries : List Entry) :
    splitLines (renderFlat options note entries) =
      entries.flatMap (fun entry => splitLines (entryLine options entry)) ++ noteLines note := by
  have hlines : ∀ line ∈ entries.map (entryLine options), line ≠ "" :=
    List.forall_mem_map.2 fun entry _ => entryLine_ne_empty options entry
  rw [renderFlat, splitLines_withNote hlines hnote, List.flatMap_map]

theorem length_flatMap_splitLines (options : RenderOptions) (entries : List Entry) :
    (entries.flatMap fun entry => splitLines (entryLine options entry)).length =
      (entries.map fun entry => entry.path.lineBreaks).sum + entries.length := by
  induction entries with
  | nil => rfl
  | cons entry entries ih =>
      rw [List.flatMap_cons, List.length_append, ih, length_splitLines_entryLine, List.map_cons,
        List.sum_cons, List.length_cons]
      omega

theorem length_splitLines_renderFlat_eq_iff (options : RenderOptions)
    (hnote : '\n' ∉ note.toList) (entries : List Entry) :
    (splitLines (renderFlat options note entries)).length =
        entries.length + (noteLines note).length ↔ ∀ entry ∈ entries, entry.path.OneLine := by
  have hsum : (entries.map fun entry => entry.path.lineBreaks).sum = 0 ↔
      ∀ entry ∈ entries, entry.path.OneLine := by
    rw [List.sum_eq_zero_iff_forall_eq_nat, List.forall_mem_map]
    exact forall₂_congr fun _ _ => Path.lineBreaks_eq_zero_iff
  rw [splitLines_renderFlat_eq options hnote, List.length_append, length_flatMap_splitLines,
    ← hsum]
  omega

/-- Only without entries and note is the report empty. -/
theorem renderFlat_eq_empty_iff (options : RenderOptions) (hnote : '\n' ∉ note.toList)
    (entries : List Entry) : renderFlat options note entries = "" ↔ entries = [] ∧ note = "" := by
  constructor
  · intro h
    have hlines := splitLines_renderFlat_eq options hnote entries
    rw [splitLines_eq_nil_iff.2 h, eq_comm, List.append_eq_nil_iff] at hlines
    obtain ⟨hentries, hnoteLines⟩ := hlines
    have hlength := length_flatMap_splitLines options entries
    rw [hentries, List.length_nil] at hlength
    refine ⟨List.eq_nil_of_length_eq_zero (by omega), ?_⟩
    by_contra hne
    rw [noteLines, if_neg hne] at hnoteLines
    cases hnoteLines
  · rintro ⟨rfl, rfl⟩
    rfl

/-- The lines of a flat report are those of its entries in order, then the note. An entry has one
line more than its keys have line breaks, so there is one line for each entry exactly if no key has
any, and then it is the line of the entry. Only the report of nothing is empty. -/
theorem splitLines_renderFlat (options : RenderOptions) (hnote : '\n' ∉ note.toList)
    (entries : List Entry) :
    let lines := splitLines (renderFlat options note entries)
    lines = entries.flatMap (fun entry => splitLines (entryLine options entry)) ++
        noteLines note ∧
      (∀ entry ∈ entries,
        (splitLines (entryLine options entry)).length = entry.path.lineBreaks + 1) ∧
      (lines.length = entries.length + (noteLines note).length ↔
        ∀ entry ∈ entries, entry.path.OneLine) ∧
      ((∀ entry ∈ entries, entry.path.OneLine) →
        lines = entries.map (entryLine options) ++ noteLines note) ∧
      (renderFlat options note entries = "" ↔ entries = [] ∧ note = "") := by
  intro lines
  refine ⟨splitLines_renderFlat_eq options hnote entries,
    fun entry _ => length_splitLines_entryLine options entry,
    length_splitLines_renderFlat_eq_iff options hnote entries, fun hentries => ?_,
    renderFlat_eq_empty_iff options hnote entries⟩
  have hsingle : entries.flatMap (fun entry => splitLines (entryLine options entry)) =
      entries.flatMap fun entry => [entryLine options entry] :=
    List.flatMap_congr fun entry hentry => splitLines_entryLine (hentries entry hentry)
  rw [List.map_eq_flatMap, ← hsingle]
  exact splitLines_renderFlat_eq options hnote entries

/-- Colored lines, one with a string that has a line break and is cut behind its escape. -/
theorem splitLines_renderFlat_colored :
    let options : RenderOptions := { color := true, lengthLimit := 4 }
    let entries : List Entry :=
      [⟨[.key "it's", .index 0], .removed, .string "a\nb"⟩, ⟨[], .added, .null⟩]
    let note := "...(3 more items)"
    '\n' ∉ note.toList ∧ (∀ entry ∈ entries, entry.path.OneLine) ∧
      splitLines (renderFlat options note entries) =
        ["\x1b[31m- [\"it's\"][0]: \"a\\n...(2 more chars)\x1b[0m", "\x1b[32m+ : null\x1b[0m",
          "...(3 more items)"] := by
  intro options entries note
  have hnote : '\n' ∉ note.toList := by decide
  have hentries : ∀ entry ∈ entries, entry.path.OneLine := by
    simp [entries, Path.OneLine]
  obtain ⟨-, -, -, hlines, -⟩ := splitLines_renderFlat options hnote entries
  refine ⟨hnote, hentries, ?_⟩
  rw [hlines hentries]
  decide

/-- A key with a line break: one entry, two lines. -/
theorem length_splitLines_renderFlat_broken_key :
    let entries : List Entry := [⟨[.key "a\nb"], .added, .null⟩]
    (splitLines (renderFlat {} "" entries)).length = 2 ∧ entries.length = 1 ∧
      splitLines (renderFlat {} "" entries) = ["+ ['a", "b']: null"] := by
  decide

end Report

end JsonDelta
