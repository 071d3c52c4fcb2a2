import JsonDelta.IgnoreList
import JsonDelta.Proofs.Pairing.Listing
import JsonDelta.Proofs.Text.Words
/-!
The accessors to ignore. Main statement: merging lists by bytes exactly the given fields and the
words of the environment text, so neither the order and number of the fields nor the blanks of the
text matter, and a field that could be a word may be given as one.
-/

namespace JsonDelta.IgnoreList

variable {fields others : List String} {environment other field : String}
  {before behind parts : List String}

theorem listsInOrder_merge (fields : List String) (environment : String) :
    ListsInOrder (merge fields environment)
      fun text => text ∈ fields ∨ text ∈ Text.words environment where
  sorted := Text.pairwise_sortedSet _
  mem_iff text := by rw [merge, Text.mem_sortedSet, List.mem_append]

theorem listsByBytes_merge (fields : List String) (environment : String) :
    ListsByBytes (merge fields environment)
      fun text => text ∈ fields ∨ Text.IsWordOf text environment := by
  simp only [← Text.mem_words_iff]
  exact (listsInOrder_merge fields environment).byBytes

/-- Two sources with the same texts between them are merged alike. -/
theorem merge_eq_of_mem_iff (h : ∀ text, (text ∈ others ∨ text ∈ Text.words other) ↔
      (text ∈ fields ∨ text ∈ Text.words environment)) :
    merge others other = merge fields environment := by
  have hlists := listsInOrder_merge others other
  simp only [h] at hlists
  exact hlists.unique (listsInOrder_merge fields environment)

/-- Of the fields it matters which there are. -/
theorem merge_eq_of_mem_fields_iff (h : ∀ text, text ∈ others ↔ text ∈ fields) :
    merge others environment = merge fields environment :=
  merge_eq_of_mem_iff fun text => by rw [h]

theorem merge_eq_of_spaced (h : Text.Spaced parts environment.toList)
    (hother : Text.Spaced parts other.toList) : merge fields other = merge fields environment := by
  have hwords : Text.words other = Text.words environment :=
    (Text.words_eq_iff.2 hother).trans (Text.words_eq_iff.2 h).symm
  rw [merge, merge, hwords]

/-- A field that became a word of the text is found there. -/
theorem merge_eq_of_moved (hfields : fields.Perm (field :: others))
    (h : Text.Spaced (before ++ behind) environment.toList)
    (hother : Text.Spaced (before ++ field :: behind) other.toList) :
    merge others other = merge fields environment := by
  refine merge_eq_of_mem_iff fun text => ?_
  rw [Text.words_eq_iff.2 h, Text.words_eq_iff.2 hother, hfields.mem_iff]
  simp only [List.mem_append, List.mem_cons]
  tauto

/-- The merged list goes by bytes and has each field and each word of the environment text once, and
nothing else. It is the same for fields in another order or number, for the same words with other
blanks, and when a field that can be a word is moved to any place between the words. -/
theorem merge_lists_fields_and_words (fields : List String) (environment : String) :
    ListsByBytes (merge fields environment)
        (fun text => text ∈ fields ∨ Text.IsWordOf text environment) ∧
      (∀ others, (∀ text, text ∈ others ↔ text ∈ fields) →
        merge others environment = merge fields environment) ∧
      (∀ (parts : List String) (other : String), Text.Spaced parts environment.toList →
        Text.Spaced parts other.toList → merge fields other = merge fields environment) ∧
      ∀ field others, fields.Perm (field :: others) → Text.IsWord field →
        ∀ before behind, Text.Spaced (before ++ behind) environment.toList →
          (∃ other : String, Text.Spaced (before ++ field :: behind) other.toList) ∧
          ∀ other : String, Text.Spaced (before ++ field :: behind) other.toList →
            merge others other = merge fields environment := by
  refine ⟨listsByBytes_merge fields environment, fun others => merge_eq_of_mem_fields_iff,
    fun parts other => merge_eq_of_spaced, ?_⟩
  intro field others hfields hfield before behind henvironment
  refine ⟨Text.exists_spaced ?_, fun other => merge_eq_of_moved hfields henvironment⟩
  obtain ⟨hbefore, hbehind⟩ := List.forall_mem_append.1 henvironment.isWord
  exact List.forall_mem_append.2 ⟨hbefore, List.forall_mem_cons.2 ⟨hfield, hbehind⟩⟩

/-- A field with a blank stays one field; one that is given twice moves into the text. -/
theorem merge_lists_fields_and_words_moved :
    let fields := ["['b']", "a b", "['b']"]
    let environment := "  ['c'] \n\t['a']  "
    Text.Spaced ["['c']", "['a']"] environment.toList ∧
      merge fields environment = ["['a']", "['b']", "['c']", "a b"] ∧
      merge ["a b", "['b']"] environment = merge fields environment ∧
      merge fields "['c']\x0b['a']\r" = merge fields environment ∧
      merge ["a b"] "['c'] ['b'] ['a']" = merge fields environment := by
  intro fields environment
  have hspaced : Text.Spaced ["['c']", "['a']"] environment.toList :=
    Text.words_eq_iff.1 (by decide)
  have htight : Text.Spaced ["['c']", "['a']"] "['c']\x0b['a']\r".toList :=
    Text.words_eq_iff.1 (by decide)
  have hmoved : Text.Spaced (["['c']"] ++ "['b']" :: ["['a']"]) "['c'] ['b'] ['a']".toList :=
    Text.words_eq_iff.1 (by decide)
  have honce : ∀ text, text ∈ ["a b", "['b']"] ↔ text ∈ fields := by simp [fields]
  have hfield : Text.IsWord "['b']" := ⟨by decide, by simp [Text.isBlank]⟩
  obtain ⟨-, hsame, hblanks, -⟩ := merge_lists_fields_and_words fields environment
  obtain ⟨-, -, -, hmove⟩ := merge_lists_fields_and_words ["a b", "['b']"] environment
  obtain ⟨-, hmerge⟩ := hmove "['b']" ["a b"] (.swap _ _ _) hfield ["['c']"] ["['a']"] hspaced
  have hsame := hsame ["a b", "['b']"] honce
  exact ⟨hspaced, by decide, hsame, hblanks _ _ hspaced htight, (hmerge _ hmoved).trans hsame⟩

end JsonDelta.IgnoreList
