import Mathlib.Data.List.DropRight
import JsonDelta.Proofs.Decimal
import JsonDelta.Proofs.Path.Accessor
/-!
Which contents of a group are indices. Main statement: a group is an index exactly when its content,
without the blanks at its ends, is a decimal integer of 64 bits behind at most one sign, or behind a
plus and a minus sign; else it is the key that is left when one pair of equal quotes is taken off.
-/

namespace JsonDelta

namespace Text

/-- The second text is the first one without the blanks at both ends. -/
structure TrimmedTo (text core : List Char) : Prop where
  exists_blanks : ∃ before after, text = before ++ (core ++ after) ∧
    (∀ c ∈ before, isBlank c = true) ∧ ∀ c ∈ after, isBlank c = true
  head : ∀ c ∈ core.head?, isBlank c = false
  last : ∀ c ∈ core.getLast?, isBlank c = false

variable {text core : List Char}

theorem trim_eq_rdropWhile (text : List Char) :
    trim text = (text.dropWhile isBlank).rdropWhile isBlank := rfl

theorem trimmedTo_trim (text : List Char) : TrimmedTo text (trim text) := by
  rw [trim_eq_rdropWhile]
  refine ⟨⟨text.takeWhile isBlank, (text.dropWhile isBlank).rtakeWhile isBlank, ?_, ?_, ?_⟩, ?_, ?_⟩
  · rw [List.rdropWhile_append_rtakeWhile, List.takeWhile_append_dropWhile]
  · exact fun c => List.mem_takeWhile_imp
  · exact fun c => List.mem_rtakeWhile_imp
  · intro c hc
    have hhead := List.head?_dropWhile_not isBlank text
    obtain ⟨rest, hrest⟩ := List.rdropWhile_prefix isBlank (l := text.dropWhile isBlank)
    rw [← hrest, List.head?_append_of_ne_nil _ (by rintro h; simp [h] at hc), hc] at hhead
    exact hhead
  · intro c hc
    obtain ⟨hne, rfl⟩ := List.mem_getLast?_eq_getLast hc
    exact Bool.eq_false_iff.2 (List.rdropWhile_last_not _ _ hne)

theorem TrimmedTo.trim_eq (h : TrimmedTo text core) : trim text = core := by
  obtain ⟨⟨before, after, rfl, hbefore, hafter⟩, hhead, hlast⟩ := h
  rw [trim, List.dropWhile_append_of_pos hbefore]
  cases core with
  | nil =>
      rw [List.nil_append, List.dropWhile_eq_nil_iff.2 hafter]
      rfl
  | cons c core =>
      rw [List.cons_append, dropWhile_isBlank_cons (hhead c rfl), ← List.cons_append,
        List.reverse_append, List.dropWhile_append_of_pos (by simpa using hafter),
        dropWhile_isBlank_eq_self (by rwa [List.head?_reverse]), List.reverse_reverse]

theorem trimmedTo_iff : TrimmedTo text core ↔ trim text = core := by
  constructor
  · exact TrimmedTo.trim_eq
  · rintro rfl
    exact trimmedTo_trim text

end Text

namespace Accessor

open Decimal

/-- Digits behind a plus and a minus sign, which denote what they denote behind the minus sign. -/
def TwoSigns (text : List Char) (z : Int) : Prop :=
  ∃ digits n, Digits digits n ∧ text = '+' :: '-' :: digits ∧ z = -(n : Int)

/-- The second text is the first one without one pair of equal quotes around it, if there is one. -/
inductive Unquoted : List Char → List Char → Prop
  | quoted {c : Char} (text : List Char) (h : isQuote c = true) : Unquoted (c :: (text ++ [c])) text
  | bare {text : List Char} (h : ∀ c inner, isQuote c = true → text ≠ c :: (inner ++ [c])) :
      Unquoted text text

variable {content key : List Char} {n : Int}

theorem unquoted_unquote (content : List Char) : Unquoted content (unquote content) := by
  unfold unquote
  split
  · exact .bare (by simp)
  · rename_i c rest
    split
    · rename_i h
      obtain ⟨inner, hinner⟩ := List.getLast?_eq_some_iff.1 h.2
      rw [hinner, List.dropLast_concat]
      exact .quoted inner h.1
    · rename_i h
      refine .bare fun c' inner hquote heq => h ?_
      obtain ⟨rfl, rfl⟩ := List.cons.inj heq
      exact ⟨hquote, List.getLast?_concat⟩

theorem Unquoted.unquote_eq (h : Unquoted content key) : unquote content = key := by
  cases h with
  | quoted _ hquote => exact unquote_quote hquote key
  | bare hbare =>
      unfold unquote
      split
      · rfl
      · rename_i c rest
        rw [if_neg]
        rintro ⟨hquote, hlast⟩
        obtain ⟨inner, rfl⟩ := List.getLast?_eq_some_iff.1 hlast
        exact hbare c inner hquote rfl

theorem unquoted_iff : Unquoted content key ↔ unquote content = key := by
  constructor
  · exact Unquoted.unquote_eq
  · rintro rfl
    exact unquoted_unquote content

/-! Signs. -/

/-- What is left behind a plus sign may have a minus sign of its own. -/
theorem readInt?_dropPlus_eq_some_iff :
    readInt? (dropPlus content) = some n ↔ SignedDigits content n ∨ TwoSigns content n := by
  constructor
  · intro h
    by_cases hplus : ∃ rest, content = '+' :: rest
    · obtain ⟨rest, rfl⟩ := hplus
      rcases readInt?_eq_some_iff.1 h with ⟨k, hdigits, rfl⟩ | ⟨digits, k, rfl, hdigits, rfl⟩
      · exact .inl (.plus hdigits)
      · exact .inr ⟨digits, k, hdigits, rfl, rfl⟩
    · rw [dropPlus_of_ne_plus fun rest heq => hplus ⟨rest, heq⟩] at h
      rcases readInt?_eq_some_iff.1 h with ⟨k, hdigits, rfl⟩ | ⟨digits, k, rfl, hdigits, rfl⟩
      · exact .inl (.unsigned hdigits)
      · exact .inl (.minus hdigits)
  · rintro (hsigned | ⟨digits, k, hdigits, rfl, rfl⟩)
    · cases hsigned with
      | unsigned hdigits =>
          rw [dropPlus_of_ne_plus (hdigits.ne_cons (by decide))]
          exact readInt?_eq_some_iff.2 (.inl ⟨_, hdigits, rfl⟩)
      | plus hdigits => exact readInt?_eq_some_iff.2 (.inl ⟨_, hdigits, rfl⟩)
      | minus hdigits => exact readInt?_eq_some_iff.2 (.inr ⟨_, _, rfl, hdigits, rfl⟩)
    · exact readInt?_eq_some_iff.2 (.inr ⟨digits, k, rfl, hdigits, rfl⟩)

theorem index?_eq_some_iff :
    index? content = some n ↔ (Int64.minValue.toInt ≤ n ∧ n ≤ Int64.maxValue.toInt) ∧
      ∃ core, Text.TrimmedTo content core ∧ (SignedDigits core n ∨ TwoSigns core n) := by
  rw [index?, Option.filter_eq_some_iff, readInt?_dropPlus_eq_some_iff, decide_eq_true_eq, and_comm]
  simp only [Text.trimmedTo_iff, exists_eq_left']

/-! One group. -/

theorem parse_group {content : String} (hne : content ≠ "") (hnot : ']' ∉ content.toList) :
    parse ("[" ++ content ++ "]") = [segment content.toList] := by
  have hlist : ("[" ++ content ++ "]").toList = '[' :: (content.toList ++ ']' :: []) := by simp
  have hcontent : content.toList ≠ [] := by simpa using hne
  rw [parse, hlist]
  exact congrArg (List.map segment) (groups_bracket hnot hcontent [])

theorem segment_eq_index_iff : segment content = .index n ↔ index? content = some n := by
  unfold segment
  split <;> simp [*]

theorem segment_eq_key (h : index? content = none) :
    segment content = .key (String.ofList (unquote content)) := by
  rw [segment, h]

/-- A group is an index exactly when its content, trimmed, is a decimal integer of 64 bits behind at
most one sign, or behind a plus and a minus sign. Every other group is the key that its content is
without one pair of equal quotes around it. -/
theorem parse_group_eq_index_iff (content : String) (hne : content ≠ "")
    (hnot : ']' ∉ content.toList) :
    (∀ n, parse ("[" ++ content ++ "]") = [.index n] ↔
        (Int64.minValue.toInt ≤ n ∧ n ≤ Int64.maxValue.toInt) ∧
          ∃ core, Text.TrimmedTo content.toList core ∧ (SignedDigits core n ∨ TwoSigns core n)) ∧
      ((∀ n, parse ("[" ++ content ++ "]") ≠ [.index n]) →
        ∃ key, parse ("[" ++ content ++ "]") = [.key (String.ofList key)] ∧
          ∀ text, Unquoted content.toList text ↔ text = key) := by
  rw [parse_group hne hnot]
  constructor
  · intro n
    rw [List.cons.injEq, and_iff_left rfl, segment_eq_index_iff, index?_eq_some_iff]
  · intro hindex
    have hnone : index? content.toList = none := by
      rw [Option.eq_none_iff_forall_not_mem]
      exact fun n hn => hindex n (congrArg (· :: []) (segment_eq_index_iff.2 hn))
    refine ⟨unquote content.toList, congrArg (· :: []) (segment_eq_key hnone), fun text => ?_⟩
    rw [unquoted_iff, eq_comm]

/-- Blanks, a sign and leading zeros around an index, and an integer that is too large for one. -/
theorem parse_group_eq_index_iff_padded :
    let padded := "\t +007 "
    let large := " 9223372036854775808"
    padded ≠ "" ∧ ']' ∉ padded.toList ∧ parse ("[" ++ padded ++ "]") = [.index 7] ∧
      (∃ core, Text.TrimmedTo padded.toList core ∧ (SignedDigits core 7 ∨ TwoSigns core 7)) ∧
      large ≠ "" ∧ ']' ∉ large.toList ∧ (∀ n, parse ("[" ++ large ++ "]") ≠ [.index n]) ∧
      ∃ key, parse ("[" ++ large ++ "]") = [.key (String.ofList key)] ∧
        ∀ text, Unquoted large.toList text ↔ text = key := by
  intro padded large
  have hpadded : padded ≠ "" ∧ ']' ∉ padded.toList := by decide
  have hlarge : large ≠ "" ∧ ']' ∉ large.toList := by decide
  have hseven : parse ("[" ++ padded ++ "]") = [.index 7] := by decide
  have hkey : parse ("[" ++ large ++ "]") = [.key large] := by decide
  have hnone : ∀ n, parse ("[" ++ large ++ "]") ≠ [.index n] := by
    intro n
    rw [hkey]
    simp
  obtain ⟨hindex, -⟩ := parse_group_eq_index_iff padded hpadded.1 hpadded.2
  obtain ⟨-, helse⟩ := parse_group_eq_index_iff large hlarge.1 hlarge.2
  exact ⟨hpadded.1, hpadded.2, hseven, ((hindex 7).1 hseven).2, hlarge.1, hlarge.2, hnone,
    helse hnone⟩

/-- A plus sign in front of a minus sign makes an index of what is no decimal integer. -/
theorem parse_group_two_signs :
    parse "[+-5]" = [.index (-5)] ∧
      ¬ ∃ core, Text.TrimmedTo "+-5".toList core ∧ SignedDigits core (-5) := by
  refine ⟨by decide, ?_⟩
  rintro ⟨core, hcore, hsigned⟩
  obtain ⟨digits, hdigits⟩ := hsigned.exists_minus (by decide)
  have htrim := hcore.trim_eq.trans hdigits
  exact absurd (List.cons.inj htrim).1 (by decide)

end Accessor

end JsonDelta
