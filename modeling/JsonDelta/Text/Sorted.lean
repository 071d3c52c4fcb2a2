/-!
Lists of texts in the order of their code points, which is the order of their UTF-8 bytes.
-/

namespace JsonDelta.Text

def insertSorted (s : String) : List String → List String
  | [] => [s]
  | t :: rest => if s ≤ t then s :: t :: rest else t :: insertSorted s rest

/-- The same texts in order, repetitions kept. -/
def sort (texts : List String) : List String := texts.foldr insertSorted []

def insertNew (s : String) : List String → List String
  | [] => [s]
  | t :: rest =>
    if s < t then s :: t :: rest else if s = t then t :: rest else t :: insertNew s rest

/-- The same texts in order, each once. -/
def sortedSet (texts : List String) : List String := texts.foldr insertNew []

theorem insertSorted_perm (s : String) (texts : List String) :
    (insertSorted s texts).Perm (s :: texts) := by
  induction texts with
  | nil => exact .refl _
  | cons t rest ih =>
    rw [insertSorted]
    split
    · exact .refl _
    · exact (ih.cons t).trans (.swap s t rest)

theorem sort_perm (texts : List String) : (sort texts).Perm texts := by
  induction texts with
  | nil => exact .refl _
  | cons s rest ih => exact (insertSorted_perm s _).trans (ih.cons s)

theorem pairwise_insertSorted {s : String} {texts : List String} (h : texts.Pairwise (· ≤ ·)) :
    (insertSorted s texts).Pairwise (· ≤ ·) := by
  induction texts with
  | nil => simp [insertSorted]
  | cons t rest ih =>
    rw [insertSorted]
    have ⟨ht, hr⟩ := List.pairwise_cons.1 h
    split
    · rename_i hst
      refine List.pairwise_cons.2 ⟨fun u hu => ?_, h⟩
      rcases List.mem_cons.1 hu with rfl | hu
      · exact hst
      · exact String.le_trans hst (ht u hu)
    · rename_i hst
      refine List.pairwise_cons.2 ⟨fun u hu => ?_, ih hr⟩
      rcases List.mem_cons.1 ((insertSorted_perm s rest).subset hu) with rfl | hu
      · exact (String.le_total t u).resolve_right hst
      · exact ht u hu

theorem pairwise_sort (texts : List String) : (sort texts).Pairwise (· ≤ ·) := by
  induction texts with
  | nil => exact .nil
  | cons s rest ih => exact pairwise_insertSorted ih

/-- Sorting forgets the order. -/
theorem sort_eq_of_perm {texts others : List String} (h : texts.Perm others) :
    sort texts = sort others :=
  (((sort_perm texts).trans h).trans (sort_perm others).symm).eq_of_pairwise
    (fun _ _ _ _ => String.le_antisymm) (pairwise_sort texts) (pairwise_sort others)

theorem mem_insertNew {s t : String} {texts : List String} :
    t ∈ insertNew s texts ↔ t = s ∨ t ∈ texts := by
  induction texts with
  | nil => simp [insertNew]
  | cons u rest ih =>
    rw [insertNew]
    split
    · simp
    · split
      · subst u
        simp
      · simp only [List.mem_cons, ih]
        exact or_left_comm

@[simp] theorem mem_sortedSet {t : String} {texts : List String} :
    t ∈ sortedSet texts ↔ t ∈ texts := by
  induction texts with
  | nil => simp [sortedSet]
  | cons s rest ih =>
    rw [List.mem_cons, ← ih]
    exact mem_insertNew

theorem pairwise_insertNew {s : String} {texts : List String} (h : texts.Pairwise (· < ·)) :
    (insertNew s texts).Pairwise (· < ·) := by
  induction texts with
  | nil => simp [insertNew]
  | cons t rest ih =>
    rw [insertNew]
    have ⟨ht, hr⟩ := List.pairwise_cons.1 h
    split
    · rename_i hst
      refine List.pairwise_cons.2 ⟨fun u hu => ?_, h⟩
      rcases List.mem_cons.1 hu with rfl | hu
      · exact hst
      · exact String.lt_trans hst (ht u hu)
    · split
      · exact h
      · rename_i hst hne
        refine List.pairwise_cons.2 ⟨fun u hu => ?_, ih hr⟩
        rcases mem_insertNew.1 hu with rfl | hu
        · exact Std.lt_of_le_of_ne (String.not_lt.1 hst) (Ne.symm hne)
        · exact ht u hu

theorem pairwise_sortedSet (texts : List String) : (sortedSet texts).Pairwise (· < ·) := by
  induction texts with
  | nil => exact .nil
  | cons s rest ih => exact pairwise_insertNew ih

end JsonDelta.Text
