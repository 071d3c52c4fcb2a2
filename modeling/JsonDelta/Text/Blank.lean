/-!
Blanks of ASCII, and the words between them.
-/

namespace JsonDelta.Text

/-- Space, tab, line feed, carriage return, vertical tab and form feed. -/
def isBlank (c : Char) : Bool :=
  c = ' ' || c = '\t' || c = '\n' || c = '\r' || c = '\x0b' || c = '\x0c'

def trim (text : List Char) : List Char :=
  ((text.dropWhile isBlank).reverse.dropWhile isBlank).reverse

theorem dropWhile_isBlank_cons {c : Char} (h : isBlank c = false) (text : List Char) :
    (c :: text).dropWhile isBlank = c :: text := by
  rw [List.dropWhile_cons, h, if_neg Bool.false_ne_true]

theorem dropWhile_isBlank_eq_self {text : List Char} (h : ∀ c ∈ text.head?, isBlank c = false) :
    text.dropWhile isBlank = text := by
  cases text with
  | nil => rfl
  | cons c text => exact dropWhile_isBlank_cons (h c rfl) text

theorem trim_eq_self {text : List Char} (h : ∀ c ∈ text, isBlank c = false) : trim text = text := by
  have hreverse : ∀ c ∈ text.reverse, isBlank c = false := fun c hc => h c (List.mem_reverse.1 hc)
  rw [trim, dropWhile_isBlank_eq_self fun c hc => h c (List.mem_of_head? hc),
    dropWhile_isBlank_eq_self fun c hc => hreverse c (List.mem_of_head? hc), List.reverse_reverse]

/-- A first character that is no blank stays first. -/
theorem exists_trim_cons {c : Char} (h : isBlank c = false) (text : List Char) :
    ∃ rest, trim (c :: text) = c :: rest := by
  rw [trim, dropWhile_isBlank_cons h, List.reverse_cons, List.dropWhile_append]
  split
  · rw [dropWhile_isBlank_cons h]
    exact ⟨[], rfl⟩
  · rw [List.reverse_append]
    exact ⟨_, rfl⟩

/-- The words of a text; `pending` holds the characters of the current one, last one first. -/
def wordsFrom (pending : List Char) : List Char → List (List Char)
  | [] => if pending = [] then [] else [pending.reverse]
  | c :: rest =>
    if ¬ isBlank c then wordsFrom (c :: pending) rest
    else if pending = [] then wordsFrom [] rest
    else pending.reverse :: wordsFrom [] rest

def words (text : String) : List String := (wordsFrom [] text.toList).map String.ofList

end JsonDelta.Text
