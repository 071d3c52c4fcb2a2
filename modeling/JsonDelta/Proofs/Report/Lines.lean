import Mathlib.Data.List.Basic
import Mathlib.Data.List.Induction
import JsonDelta.Report.Render
/-!
The lines of a report. Joining drops empty lines in front, and otherwise puts a break between any
two. Main statement: as long as no line is empty, the lines of the joined text are the lines of the
single ones, in order, and the note.
-/

namespace JsonDelta.Report

/-- The lines of a text. The empty text has none. -/
def splitLines (text : String) : List String :=
  if text = "" then [] else (text.toList.splitOn '\n').map String.ofList

/-- The line of a note, if there is one. -/
def noteLines (note : String) : List String := if note = "" then [] else [note]

variable {text line note : String} {lines : List String}

theorem splitLines_empty : splitLines "" = [] := rfl

theorem splitLines_of_ne (h : text ≠ "") :
    splitLines text = (text.toList.splitOn '\n').map String.ofList := if_neg h

theorem splitLines_eq_nil_iff : splitLines text = [] ↔ text = "" := by
  constructor
  · intro h
    by_contra hne
    rw [splitLines_of_ne hne, List.map_eq_nil_iff] at h
    exact List.splitOn_ne_nil '\n' text.toList h
  · rintro rfl
    exact splitLines_empty

theorem splitLines_of_not_mem (hne : line ≠ "") (h : '\n' ∉ line.toList) :
    splitLines line = [line] := by
  rw [splitLines_of_ne hne, List.splitOn_eq_singleton h, List.map_singleton, String.ofList_toList]

theorem splitLines_append (htext : text ≠ "") (hline : line ≠ "") :
    splitLines (text ++ "\n" ++ line) = splitLines text ++ splitLines line := by
  have hjoined : (text ++ "\n" ++ line).toList = text.toList ++ '\n' :: line.toList := by simp
  have hne : text ++ "\n" ++ line ≠ "" := by simp
  rw [splitLines_of_ne hne, splitLines_of_ne htext, splitLines_of_ne hline, hjoined,
    List.splitOn_append_cons_self, List.map_append]

/-- There is one line more than there are breaks. -/
theorem length_splitOn_newline (text : List Char) :
    (text.splitOn '\n').length = text.count '\n' + 1 := by
  induction text with
  | nil => rfl
  | cons c text ih =>
      rw [List.splitOn_cons_eq_if_modifyHead]
      by_cases hc : c = '\n'
      · rw [hc, if_pos (beq_self_eq_true _), List.length_cons, ih, List.count_cons_self]
      · rw [if_neg (by simpa using hc), List.length_modifyHead, ih, List.count_cons_of_ne hc]

theorem length_splitLines (h : text ≠ "") :
    (splitLines text).length = text.toList.count '\n' + 1 := by
  rw [splitLines_of_ne h, List.length_map, length_splitOn_newline]

theorem not_mem_of_mem_splitOn {text line : List Char} (h : line ∈ text.splitOn '\n') :
    '\n' ∉ line := by
  induction text generalizing line with
  | nil =>
      rw [List.splitOn_nil, List.mem_singleton] at h
      simp [h]
  | cons c text ih =>
      rw [List.splitOn_cons_eq_if_modifyHead] at h
      obtain ⟨first, rest, hsplit⟩ := List.exists_cons_of_ne_nil (List.splitOn_ne_nil '\n' text)
      obtain ⟨hfirst, hrest⟩ : '\n' ∉ first ∧ ∀ line ∈ rest, '\n' ∉ line :=
        ⟨ih (by simp [hsplit]), fun line hline => ih (by simp [hsplit, hline])⟩
      split at h
      · rcases List.mem_cons.1 h with rfl | h
        · simp
        · exact ih h
      · rename_i hc
        have hc : '\n' ≠ c := Ne.symm (by simpa using hc)
        rw [hsplit, List.modifyHead_cons] at h
        rcases List.mem_cons.1 h with rfl | h
        · simp [hc, hfirst]
        · exact hrest line h

/-- The last line is empty only behind a line break, or if there is nothing else. -/
theorem eq_newline_of_getLast?_splitOn {text : List Char}
    (h : (text.splitOn '\n').getLast? = some []) : text = [] ∨ text.getLast? = some '\n' := by
  induction text with
  | nil => exact .inl rfl
  | cons c text ih =>
      refine .inr ?_
      obtain ⟨first, rest, hsplit⟩ := List.exists_cons_of_ne_nil (List.splitOn_ne_nil '\n' text)
      rw [List.splitOn_cons_eq_if_modifyHead] at h
      split at h
      · rename_i hc
        rw [hsplit, List.getLast?_cons_cons, ← hsplit] at h
        rcases ih h with rfl | hlast
        · simpa using hc
        · rw [List.getLast?_cons, hlast, Option.getD_some]
      · rw [hsplit, List.modifyHead_cons] at h
        cases rest with
        | nil => cases h
        | cons second rest =>
            rw [List.getLast?_cons_cons] at h
            rw [hsplit, List.getLast?_cons_cons] at ih
            rcases ih h with rfl | hlast
            · cases hsplit
            · rw [List.getLast?_cons, hlast, Option.getD_some]

theorem not_mem_of_mem_splitLines (h : line ∈ splitLines text) : '\n' ∉ line.toList := by
  by_cases hempty : text = ""
  · rw [hempty, splitLines_empty] at h
    cases h
  · rw [splitLines_of_ne hempty] at h
    obtain ⟨chars, hchars, rfl⟩ := List.mem_map.1 h
    rw [String.toList_ofList]
    exact not_mem_of_mem_splitOn hchars

/-- With breaks between them again, the lines are the text. -/
theorem intercalate_splitLines (text : String) : "\n".intercalate (splitLines text) = text := by
  by_cases hempty : text = ""
  · rw [hempty, splitLines_empty, String.intercalate_nil]
  · apply String.toList_inj.1
    rw [splitLines_of_ne hempty, String.toList_intercalate, List.map_map]
    simp

theorem not_mem_leader (tag : ChangeTag) : '\n' ∉ tag.leader.toList := by
  cases tag <;> decide

/-! Joining. -/

theorem joinLines_concat (lines : List String) (line : String) :
    joinLines (lines ++ [line]) =
      if joinLines lines = "" then line else joinLines lines ++ "\n" ++ line := by
  rw [joinLines, List.foldl_append]
  rfl

theorem joinLines_ne_empty (hmem : line ∈ lines) (h : line ≠ "") :
    joinLines lines ≠ "" := by
  induction lines using List.reverseRecOn with
  | nil => cases hmem
  | append_singleton lines last ih =>
      rw [joinLines_concat]
      split
      · rename_i hempty
        rcases List.mem_append.1 hmem with hbefore | hlast
        · exact absurd hempty (ih hbefore)
        · rwa [← List.mem_singleton.1 hlast]
      · simp

theorem splitLines_joinLines (h : ∀ line ∈ lines, line ≠ "") :
    splitLines (joinLines lines) = lines.flatMap splitLines := by
  induction lines using List.reverseRecOn with
  | nil => rfl
  | append_singleton lines line ih =>
      obtain ⟨hlines, hline⟩ := List.forall_mem_append.1 h
      have hline : line ≠ "" := hline line List.mem_cons_self
      rw [joinLines_concat, List.flatMap_append, List.flatMap_singleton, ← ih hlines]
      by_cases hempty : joinLines lines = ""
      · rw [if_pos hempty, hempty, splitLines_empty, List.nil_append]
      · rw [if_neg hempty, splitLines_append hempty hline]

theorem withNote_eq (lines : List String) (note : String) :
    withNote lines note = joinLines (lines ++ noteLines note) := by
  unfold withNote noteLines
  split
  · rw [List.append_nil]
  · rfl

theorem flatMap_splitLines_noteLines (h : '\n' ∉ note.toList) :
    (noteLines note).flatMap splitLines = noteLines note := by
  unfold noteLines
  split
  · rfl
  · rw [List.flatMap_singleton, splitLines_of_not_mem ‹_› h]

/-- The lines of a text with a note: those of its parts, in order. -/
theorem splitLines_withNote (h : ∀ line ∈ lines, line ≠ "") (hnote : '\n' ∉ note.toList) :
    splitLines (withNote lines note) = lines.flatMap splitLines ++ noteLines note := by
  have hnoteLines : ∀ line ∈ noteLines note, line ≠ "" := by
    unfold noteLines
    split <;> simp [*]
  rw [withNote_eq, splitLines_joinLines (List.forall_mem_append.2 ⟨h, hnoteLines⟩),
    List.flatMap_append, flatMap_splitLines_noteLines hnote]

/-- Lines without breaks are the lines of the text. -/
theorem splitLines_withNote_of_not_mem (h : ∀ line ∈ lines, line ≠ "" ∧ '\n' ∉ line.toList)
    (hnote : '\n' ∉ note.toList) :
    splitLines (withNote lines note) = lines ++ noteLines note := by
  have hsingle : lines.flatMap splitLines = lines.flatMap fun line => [line] :=
    List.flatMap_congr fun line hline => splitLines_of_not_mem (h line hline).1 (h line hline).2
  rw [splitLines_withNote (fun line hline => (h line hline).1) hnote, hsingle,
    List.flatMap_singleton']

end JsonDelta.Report
