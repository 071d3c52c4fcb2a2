import Mathlib.Data.List.Basic
import JsonDelta.Report.Preview
/-!
Printable text. Strings are escaped and numbers are digits, signs and marks, so what is written of a
document is printable ASCII. Main statement: so is every preview, wherever it is cut; in particular
it has no line break.
-/

namespace JsonDelta

namespace Text

/-- A character from space to tilde. -/
def IsPrintable (c : Char) : Prop := 0x20 ≤ c.toNat ∧ c.toNat ≤ 0x7e

instance (c : Char) : Decidable (IsPrintable c) := inferInstanceAs (Decidable (_ ∧ _))

def Printable (text : List Char) : Prop := ∀ c ∈ text, IsPrintable c

instance (text : List Char) : Decidable (Printable text) := List.decidableBAll IsPrintable text

variable {c : Char} {text other : List Char}

theorem printable_nil : Printable [] := nofun

theorem printable_cons : Printable (c :: text) ↔ IsPrintable c ∧ Printable text :=
  List.forall_mem_cons

theorem printable_append : Printable (text ++ other) ↔ Printable text ∧ Printable other :=
  List.forall_mem_append

theorem Printable.subset (h : Printable text) (hsub : other ⊆ text) : Printable other :=
  fun c hc => h c (hsub hc)

theorem printable_replicate (h : IsPrintable c) (n : Nat) : Printable (List.replicate n c) := by
  intro d hd
  rwa [List.eq_of_mem_replicate hd]

theorem printable_flatMap {α : Type} {items : List α} {f : α → List Char}
    (h : ∀ item ∈ items, Printable (f item)) : Printable (items.flatMap f) := by
  intro c hc
  obtain ⟨item, hitem, hmem⟩ := List.mem_flatMap.1 hc
  exact h item hitem c hmem

theorem printable_intercalate {mark : String} {texts : List String} (hmark : Printable mark.toList)
    (h : ∀ text ∈ texts, Printable text.toList) : Printable (mark.intercalate texts).toList := by
  induction texts with
  | nil => exact printable_nil
  | cons text texts ih =>
      obtain ⟨htext, htexts⟩ := List.forall_mem_cons.1 h
      cases texts with
      | nil => rwa [String.intercalate_singleton]
      | cons next texts =>
          rw [String.intercalate_cons_cons, String.toList_append, String.toList_append,
            printable_append, printable_append]
          exact ⟨⟨htext, hmark⟩, ih htexts⟩

theorem not_mem_of_printable (h : Printable text) : '\n' ∉ text :=
  fun hmem => absurd (h '\n' hmem) (by decide)

/-! Strings. -/

theorem isPrintable_digitChar {n : Nat} (h : n < 16) : IsPrintable n.digitChar := by
  have hall : ∀ n < 16, IsPrintable n.digitChar := by decide
  exact hall n h

theorem printable_unitEscape (unit : Nat) : Printable (unitEscape unit) := by
  have hdigit (n : Nat) : IsPrintable (n % 16).digitChar :=
    isPrintable_digitChar (Nat.mod_lt _ (by decide))
  simp only [unitEscape, hexDigits, List.map_cons, List.map_nil, printable_cons, hdigit, true_and]
  exact ⟨by decide, by decide, printable_nil⟩

theorem printable_escape (c : Char) : Printable (escape c) := by
  unfold escape
  split
  case h_8 =>
    split
    · rename_i h
      exact printable_cons.2 ⟨⟨h.1, by omega⟩, printable_nil⟩
    · split
      · exact printable_unitEscape _
      · exact printable_append.2 ⟨printable_unitEscape _, printable_unitEscape _⟩
  all_goals decide

theorem printable_quoted (s : String) : Printable (quoted s).toList := by
  rw [quoted, String.toList_ofList, List.cons_append, printable_cons, printable_append]
  exact ⟨by decide, printable_flatMap fun c _ => printable_escape c, by decide⟩

end Text

open Text

/-! Numbers. -/

theorem Text.isPrintable_of_isDigit {c : Char} (h : c.isDigit = true) : IsPrintable c := by
  have hbounds : 48 ≤ c.val ∧ c.val ≤ 57 := by simpa [Char.isDigit] using h
  have hlow : 48 ≤ c.toNat := hbounds.1
  have hhigh : c.toNat ≤ 57 := hbounds.2
  exact ⟨by omega, by omega⟩

namespace Decimal

theorem printable_digits (n : Nat) : Printable (digits n) :=
  fun _ hc => isPrintable_of_isDigit (isDigit_of_mem_digits hc)

theorem printable_natText (n : Nat) : Printable (natText n).toList := by
  rw [natText, String.toList_ofList]
  exact printable_digits n

theorem printable_intText (z : Int) : Printable (intText z).toList := by
  intro c hc
  rcases mem_intText hc with rfl | hdigit
  · decide
  · exact isPrintable_of_isDigit hdigit

end Decimal

namespace Number

theorem printable_layout {digits : List Char} (h : Printable digits) (point : Int) :
    Printable (layout digits point) := by
  have hzeros (n : Nat) : Printable (List.replicate n '0') := printable_replicate (by decide) n
  have htake (n : Nat) : Printable (digits.take n) := h.subset (List.take_subset n digits)
  have hdrop (n : Nat) : Printable (digits.drop n) := h.subset (List.drop_subset n digits)
  have htail : Printable digits.tail := List.drop_one ▸ hdrop 1
  unfold layout
  simp only [List.append_assoc, List.cons_append]
  split
  · exact printable_append.2 ⟨h, printable_append.2 ⟨hzeros _, by decide⟩⟩
  · split
    · exact printable_append.2 ⟨htake _, printable_cons.2 ⟨by decide, hdrop _⟩⟩
    · split
      · exact printable_cons.2
          ⟨by decide, printable_cons.2 ⟨by decide, printable_append.2 ⟨hzeros _, h⟩⟩⟩
      · -- With an exponent: a first digit, a fraction, the sign and two or more digits.
        refine printable_append.2 ⟨htake 1, printable_append.2 ⟨?_, printable_cons.2
          ⟨by decide, printable_cons.2 ⟨?_, printable_append.2
            ⟨hzeros _, Decimal.printable_digits _⟩⟩⟩⟩⟩
        · split
          · exact printable_nil
          · exact printable_cons.2 ⟨by decide, htail⟩
        · split <;> decide

theorem printable_realText (x : Binary64) : Printable (realText x).toList := by
  have hsign : Printable (if x.negative then ['-'] else []) := by
    split <;> decide
  unfold realText
  simp only
  split
  · rw [String.toList_ofList]
    exact printable_append.2 ⟨hsign, by decide⟩
  · rw [String.toList_ofList]
    exact printable_append.2 ⟨hsign, printable_layout (Decimal.printable_digits _) _⟩

theorem printable_text (n : Number) : Printable n.text.toList := by
  cases n with
  | unsigned n => exact Decimal.printable_natText _
  | signed n => exact Decimal.printable_intText _
  | real x => exact printable_realText x

end Number

/-! Documents. -/

namespace Document

theorem itemTexts_eq_map (items : List Document) : itemTexts items = items.map text := by
  induction items with
  | nil => rfl
  | cons item items ih => rw [itemTexts, ih, List.map_cons]

theorem memberTexts_eq_map (members : List (String × Document)) :
    memberTexts members = members.map fun m => Text.quoted m.1 ++ ":" ++ m.2.text := by
  induction members with
  | nil => rfl
  | cons m members ih =>
      obtain ⟨key, value⟩ := m
      rw [memberTexts, ih, List.map_cons]

theorem printable_text (d : Document) : Printable d.text.toList := by
  induction d using Document.induction with
  | scalar d h =>
      cases d with
      | null => decide
      | bool b => cases b <;> decide
      | number n => exact n.printable_text
      | string s => exact printable_quoted s
      | array => cases h
      | object => cases h
  | array items ih =>
      rw [text, itemTexts_eq_map]
      simp only [String.toList_append, printable_append]
      refine ⟨⟨by decide, printable_intercalate (by decide) fun t ht => ?_⟩, by decide⟩
      obtain ⟨item, hitem, rfl⟩ := List.mem_map.1 ht
      exact ih item hitem
  | object members ih =>
      rw [text, memberTexts_eq_map]
      simp only [String.toList_append, printable_append]
      refine ⟨⟨by decide, printable_intercalate (by decide) fun t ht => ?_⟩, by decide⟩
      obtain ⟨m, hm, rfl⟩ := List.mem_map.1 ht
      simp only [String.toList_append, printable_append]
      exact ⟨⟨printable_quoted m.1, by decide⟩, ih m hm⟩

theorem printable_summary (d : Document) : Printable d.summary.toList := by
  unfold summary
  split
  · simp only [String.toList_append, printable_append]
    refine ⟨⟨by decide, printable_intercalate (by decide) fun t ht => ?_⟩, by decide⟩
    obtain ⟨m, -, rfl⟩ := List.mem_map.1 ht
    rw [String.toList_append, printable_append]
    exact ⟨printable_quoted m.1, by decide⟩
  · simp only [String.toList_append, printable_append]
    exact ⟨⟨by decide, Decimal.printable_natText _⟩, by decide⟩
  · exact d.printable_text

theorem printable_cut {text : String} (h : Printable text.toList) (limit : Nat) :
    Printable (cut limit text).toList := by
  simp only [cut, String.toList_append, String.toList_ofList, printable_append]
  exact ⟨⟨⟨h.subset (List.take_subset _ _), by decide⟩, Decimal.printable_natText _⟩, by decide⟩

/-- A cut may go through an escape, but what is left is printable all the same. -/
theorem printable_preview (limit : Nat) (d : Document) : Printable (d.preview limit).toList := by
  unfold preview
  split
  · exact d.printable_text
  · split
    · exact d.printable_summary
    · exact printable_cut d.printable_summary limit

end Document

end JsonDelta
