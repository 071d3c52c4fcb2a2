import Mathlib.Data.List.Basic
import JsonDelta.Text.Blank
/-!
The words of a text. Main statements: a text has given words exactly if it is made of them, with
blanks between any two, and a word is in a text exactly if it is a maximal run of characters that
are no blanks.
-/

namespace JsonDelta.Text

structure IsWord (word : String) : Prop where
  ne_empty : word ≠ ""
  not_blank : ∀ c ∈ word.toList, isBlank c = false

/-- The text is made of the words, in order, and of blanks; at least one blank comes between two
words. -/
inductive Spaced : List String → List Char → Prop
  | nil : Spaced [] []
  | blank {words : List String} {text : List Char} {c : Char} (hc : isBlank c = true)
      (h : Spaced words text) : Spaced words (c :: text)
  | word {words : List String} {rest : List Char} {word : String} (hword : IsWord word)
      (hrest : ∀ c ∈ rest.head?, isBlank c = true) (h : Spaced words rest) :
      Spaced (word :: words) (word.toList ++ rest)

/-- Behind `front` there is a maximal run of characters that are no blanks, and `back` follows. -/
structure WordAt (text front word back : List Char) : Prop where
  text_eq : text = front ++ (word ++ back)
  ne_nil : word ≠ []
  not_blank : ∀ c ∈ word, isBlank c = false
  before : ∀ c ∈ front.getLast?, isBlank c = true
  behind : ∀ c ∈ back.head?, isBlank c = true

def IsWordOf (word text : String) : Prop :=
  ∃ front back, WordAt text.toList front word.toList back

variable {text front rest pending run back : List Char} {word : String} {parts : List String}
  {c : Char}

theorem IsWord.toList_ne_nil (h : IsWord word) : word.toList ≠ [] :=
  mt String.toList_eq_nil_iff.1 h.ne_empty

/-! Reading characters. -/

theorem wordsFrom_nil_cons (hc : isBlank c = true) (text : List Char) :
    wordsFrom [] (c :: text) = wordsFrom [] text := by
  rw [wordsFrom, if_neg (not_not.2 hc), if_pos rfl]

theorem wordsFrom_cons_of_not_blank (hc : isBlank c = false) (pending text : List Char) :
    wordsFrom pending (c :: text) = wordsFrom (c :: pending) text := by
  rw [wordsFrom, if_pos (by simp [hc])]

/-- The end of the text, or a blank, ends the current word. -/
theorem wordsFrom_end (hpending : pending ≠ []) (hrest : ∀ c ∈ rest.head?, isBlank c = true) :
    wordsFrom pending rest = pending.reverse :: wordsFrom [] rest := by
  cases rest with
  | nil => rw [wordsFrom, if_neg hpending, wordsFrom, if_pos rfl]
  | cons c rest =>
      have hc : isBlank c = true := hrest c rfl
      rw [wordsFrom_nil_cons hc, wordsFrom, if_neg (not_not.2 hc), if_neg hpending]

theorem wordsFrom_append (hfront : ∀ c ∈ front, isBlank c = false) (pending rest : List Char) :
    wordsFrom pending (front ++ rest) = wordsFrom (front.reverse ++ pending) rest := by
  induction front generalizing pending with
  | nil => rfl
  | cons c front ih =>
      obtain ⟨hc, hfront⟩ := List.forall_mem_cons.1 hfront
      rw [List.cons_append, wordsFrom_cons_of_not_blank hc, ih hfront, List.reverse_cons,
        List.append_assoc, List.singleton_append]

theorem wordsFrom_word (hne : run ≠ []) (hrun : ∀ c ∈ run, isBlank c = false)
    (hrest : ∀ c ∈ rest.head?, isBlank c = true) :
    wordsFrom [] (run ++ rest) = run :: wordsFrom [] rest := by
  have hpending : run.reverse ≠ [] := mt List.reverse_eq_nil_iff.1 hne
  rw [wordsFrom_append hrun, List.append_nil, wordsFrom_end hpending hrest, List.reverse_reverse]

/-- A blank parts the words in front of it from those behind it. -/
theorem wordsFrom_append_blank (hc : isBlank c = true) (pending front back : List Char) :
    wordsFrom pending (front ++ c :: back) = wordsFrom pending front ++ wordsFrom [] back := by
  induction front generalizing pending with
  | nil =>
      have hhead : ∀ d ∈ (c :: back).head?, isBlank d = true := by simpa using hc
      rw [List.nil_append, wordsFrom.eq_1]
      by_cases hpending : pending = []
      · rw [hpending, wordsFrom_nil_cons hc, if_pos rfl, List.nil_append]
      · rw [wordsFrom_end hpending hhead, wordsFrom_nil_cons hc, if_neg hpending,
          List.singleton_append]
  | cons d front ih =>
      rw [List.cons_append, wordsFrom.eq_2, wordsFrom.eq_2]
      split
      · exact ih _
      · split
        · exact ih []
        · rw [ih [], List.cons_append]

/-! The words of a text. -/

theorem spaced_wordsFrom (pending : List Char) (hpending : ∀ c ∈ pending, isBlank c = false)
    (text : List Char) :
    Spaced ((wordsFrom pending text).map String.ofList) (pending.reverse ++ text) := by
  have hword (hne : pending ≠ []) : IsWord (String.ofList pending.reverse) :=
    ⟨by simpa using hne, by simpa using hpending⟩
  induction text generalizing pending with
  | nil =>
      rw [wordsFrom]
      split
      · subst pending
        exact .nil
      · have hend : ∀ c ∈ ([] : List Char).head?, isBlank c = true := by simp
        simpa using Spaced.word (hword ‹_›) hend .nil
  | cons c text ih =>
      rw [wordsFrom]
      split
      · rename_i hc
        have hc : isBlank c = false := by simpa using hc
        simpa using ih (c :: pending) (List.forall_mem_cons.2 ⟨hc, hpending⟩)
          fun _ => ⟨by simp, by simpa [or_imp, forall_and, hc] using hpending⟩
      · rename_i hc
        have hc : isBlank c = true := not_not.1 hc
        have hrest : Spaced ((wordsFrom [] text).map String.ofList) text :=
          ih [] (by simp) (by simp)
        split
        · subst pending
          exact .blank hc hrest
        · have hbehind : ∀ d ∈ (c :: text).head?, isBlank d = true := by simpa using hc
          simpa using Spaced.word (hword ‹_›) hbehind (.blank hc hrest)

theorem spaced_words (text : String) : Spaced (words text) text.toList :=
  spaced_wordsFrom [] (by simp) text.toList

theorem Spaced.wordsFrom_eq (h : Spaced parts text) :
    (wordsFrom [] text).map String.ofList = parts := by
  induction h with
  | nil => rfl
  | blank hc _ ih => rw [wordsFrom_nil_cons hc, ih]
  | word hword hrest _ ih =>
      rw [wordsFrom_word hword.toList_ne_nil hword.not_blank hrest, List.map_cons, ih,
        String.ofList_toList]

/-- What a text is made of decides its words, and the other way round. -/
theorem words_eq_iff {text : String} : words text = parts ↔ Spaced parts text.toList :=
  ⟨fun h => h ▸ spaced_words text, Spaced.wordsFrom_eq⟩

theorem Spaced.isWord (h : Spaced parts text) : ∀ word ∈ parts, IsWord word := by
  induction h with
  | nil => nofun
  | blank _ _ ih => exact ih
  | word hword _ _ ih => exact List.forall_mem_cons.2 ⟨hword, ih⟩

/-- Single spaces are enough. -/
theorem exists_spaced (h : ∀ word ∈ parts, IsWord word) :
    ∃ text : String, Spaced parts text.toList := by
  induction parts with
  | nil => exact ⟨"", .nil⟩
  | cons word parts ih =>
      obtain ⟨hword, hparts⟩ := List.forall_mem_cons.1 h
      obtain ⟨text, htext⟩ := ih hparts
      have hspace : isBlank ' ' = true := by decide
      have hbehind : ∀ c ∈ (' ' :: text.toList).head?, isBlank c = true := by simpa using hspace
      refine ⟨word ++ " " ++ text, ?_⟩
      simpa using Spaced.word hword hbehind (.blank hspace htext)

/-! Words as maximal runs. -/

theorem WordAt.cons (h : WordAt text front run back) (hc : isBlank c = true) :
    WordAt (c :: text) (c :: front) run back where
  text_eq := congrArg (c :: ·) h.text_eq
  ne_nil := h.ne_nil
  not_blank := h.not_blank
  before := by
    cases front with
    | nil => simpa using hc
    | cons d front => simpa [List.getLast?_cons_cons] using h.before
  behind := h.behind

/-- Another word in front of the text belongs to what is before the run, which therefore is not at
the very start of the text. -/
theorem WordAt.append {first : List Char} (h : WordAt rest front run back)
    (hrest : ∀ c ∈ rest.head?, isBlank c = true) :
    WordAt (first ++ rest) (first ++ front) run back where
  text_eq := by rw [h.text_eq, List.append_assoc]
  ne_nil := h.ne_nil
  not_blank := h.not_blank
  before := by
    cases front with
    | cons d front => simpa [List.getLast?_append] using h.before
    | nil =>
        obtain ⟨d, tail, hrun⟩ := List.exists_cons_of_ne_nil h.ne_nil
        have hblank : isBlank d = true := hrest d (by rw [h.text_eq, hrun]; rfl)
        have hnot : isBlank d = false := h.not_blank d (by rw [hrun]; exact List.mem_cons_self)
        rw [hblank] at hnot
        cases hnot
  behind := h.behind

theorem Spaced.exists_wordAt (h : Spaced parts text) (hmem : word ∈ parts) :
    ∃ front back, WordAt text front word.toList back := by
  induction h with
  | nil => cases hmem
  | blank hc _ ih =>
      obtain ⟨front, back, hat⟩ := ih hmem
      exact ⟨_, back, hat.cons hc⟩
  | word hword hrest _ ih =>
      rcases List.mem_cons.1 hmem with rfl | hmem
      · exact ⟨[], _, rfl, hword.toList_ne_nil, hword.not_blank, by simp, hrest⟩
      · obtain ⟨front, back, hat⟩ := ih hmem
        exact ⟨_, back, hat.append hrest⟩

theorem WordAt.mem_wordsFrom (h : WordAt text front run back) :
    run ∈ wordsFrom [] text := by
  have hrun : run ∈ wordsFrom [] (run ++ back) := by
    rw [wordsFrom_word h.ne_nil h.not_blank h.behind]
    exact List.mem_cons_self
  rcases List.eq_nil_or_concat front with rfl | ⟨before, c, rfl⟩
  · rwa [h.text_eq]
  · have hc : isBlank c = true := h.before c (by simp)
    rw [h.text_eq, List.concat_append, wordsFrom_append_blank hc]
    exact List.mem_append_right _ hrun

theorem mem_words_iff {text : String} : word ∈ words text ↔ IsWordOf word text := by
  constructor
  · exact (spaced_words text).exists_wordAt
  · rintro ⟨front, back, h⟩
    exact List.mem_map.2 ⟨_, h.mem_wordsFrom, String.ofList_toList⟩

end JsonDelta.Text
