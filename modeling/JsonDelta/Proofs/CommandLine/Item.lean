import Mathlib.Data.List.TakeDrop
import Mathlib.Data.List.TakeWhile
import JsonDelta.CommandLine
/-!
Arguments one item at a time. An item is a path, a flag or a parameter with its value, and each of
them has several spellings. Main statements: in whatever spelling an item is written, reading takes
it and goes on behind it, and arguments that can be read at all are such spellings.
-/

namespace JsonDelta.CommandLine

def Flag.names : Flag → List String
  | .verbose => ["-v", "--verbose"]
  | .recursive => ["-r", "--recursive"]
  | .flat => ["--flat"]
  | .moves => ["--moves"]

def Parameter.names : Parameter → List String
  | .ignore => ["-i", "--ignore"]
  | .limit => ["-t", "--truncate_items", "--truncate-items"]
  | .color => ["--color"]
  | .logLevel => ["--log-level"]

def IsLong (text : String) : Prop := "--".toList <+: text.toList

/-- A dash and something behind it. -/
def LooksLikeOption (text : String) : Prop := ∃ c rest, text.toList = '-' :: c :: rest

inductive Item where
  | positional (text : String)
  | flag (f : Flag)
  | parameter (p : Parameter) (value : String)
  deriving DecidableEq

/-- An item in one of its spellings. A value may be anything, because nobody looks at it for a
dash or an equals sign. -/
inductive Item.Written : Item → List String → Prop
  | positional {text : String} (h : ¬ LooksLikeOption text) : Written (.positional text) [text]
  | flag {f : Flag} {name : String} (h : name ∈ f.names) : Written (.flag f) [name]
  | flagWithValue {f : Flag} {name : String} (h : name ∈ f.names) (hlong : IsLong name)
      (dropped : String) : Written (.flag f) [name ++ "=" ++ dropped]
  | apart {p : Parameter} {name : String} (h : name ∈ p.names) (value : String) :
      Written (.parameter p value) [name, value]
  | joined {p : Parameter} {name : String} (h : name ∈ p.names) (hlong : IsLong name)
      (value : String) : Written (.parameter p value) [name ++ "=" ++ value]

/-- The arguments spell the items, one after the other. -/
inductive Spells : List String → List Item → Prop
  | nil : Spells [] []
  | cons {item : Item} {words arguments : List String} {items : List Item} (h : item.Written words)
      (hrest : Spells arguments items) : Spells (words ++ arguments) (item :: items)

variable {argument name value text : String} {f : Flag} {p : Parameter} {item : Item}
  {items : List Item} {words arguments : List String} {settings settings' : Settings}

/-! Names and roles. -/

theorem role_eq_flag_iff : role name = .flag f ↔ name ∈ f.names := by
  constructor
  · intro h
    unfold role at h
    split at h
    case h_16 => split at h <;> cases h
    all_goals cases h <;> decide
  · cases f <;> simp only [Flag.names, List.mem_cons, List.not_mem_nil, or_false]
    case flat | moves => rintro rfl; rfl
    all_goals rintro (rfl | rfl) <;> rfl

theorem role_eq_parameter_iff : role name = .parameter p ↔ name ∈ p.names := by
  constructor
  · intro h
    unfold role at h
    split at h
    case h_16 => split at h <;> cases h
    all_goals cases h <;> decide
  · cases p <;> simp only [Parameter.names, List.mem_cons, List.not_mem_nil, or_false]
    case color | logLevel => rintro rfl; rfl
    case ignore => rintro (rfl | rfl) <;> rfl
    case limit => rintro (rfl | rfl | rfl) <;> rfl

theorem role_eq_positional_iff : role name = .positional ↔ ¬ LooksLikeOption name := by
  unfold role
  split
  case h_16 =>
    split
    · rename_i h
      exact iff_of_false (by simp) (not_not.2 ⟨_, _, h⟩)
    · rename_i h
      exact iff_of_true rfl fun ⟨c, rest, hname⟩ => h c rest hname
  all_goals exact iff_of_false (by simp) (not_not.2 ⟨_, _, rfl⟩)

theorem eq_not_mem_of_flag (h : name ∈ f.names) : '=' ∉ name.toList := by
  have hall : ∀ f : Flag, ∀ name ∈ f.names, '=' ∉ name.toList := by
    intro f
    cases f <;> decide
  exact hall f name h

theorem eq_not_mem_of_parameter (h : name ∈ p.names) : '=' ∉ name.toList := by
  have hall : ∀ p : Parameter, ∀ name ∈ p.names, '=' ∉ name.toList := by
    intro p
    cases p <;> decide
  exact hall p name h

/-! The value behind an equals sign. -/

theorem IsLong.exists_cons (h : IsLong text) : ∃ rest, text.toList = '-' :: '-' :: rest := by
  obtain ⟨rest, hrest⟩ := h
  exact ⟨rest, hrest.symm⟩

theorem splitValue_of_not_mem (h : '=' ∉ argument.toList) :
    splitValue argument = (argument, none) := by
  have hspan : argument.toList.span (· ≠ '=') = (argument.toList, []) := by
    rw [List.span_eq_takeWhile_dropWhile, List.takeWhile_eq_self_iff.2, List.dropWhile_eq_nil_iff.2]
    all_goals
      intro c hc
      exact decide_eq_true fun heq => h (heq ▸ hc)
  rw [splitValue]
  split
  · rw [hspan]
  · rfl

theorem splitValue_joined (hlong : IsLong name) (hname : '=' ∉ name.toList) (value : String) :
    splitValue (name ++ "=" ++ value) = (name, some value) := by
  obtain ⟨rest, hrest⟩ := hlong.exists_cons
  have htext : (name ++ "=" ++ value).toList = name.toList ++ '=' :: value.toList := by simp
  have hspan : (name ++ "=" ++ value).toList.span (· ≠ '=') =
      (name.toList, '=' :: value.toList) := by
    have hbefore : ∀ c ∈ name.toList, decide (c ≠ '=') = true := fun c hc =>
      decide_eq_true fun heq => hname (heq ▸ hc)
    rw [htext, List.span_eq_takeWhile_dropWhile, List.takeWhile_append_of_pos hbefore,
      List.dropWhile_append_of_pos hbefore]
    simp
  rw [splitValue]
  split
  · rw [hspan]
    simp
  · rename_i hnot
    rw [htext, hrest] at hnot
    exact absurd rfl (hnot _)

/-- Without a value the argument is its own name; with one it has two dashes and is split. -/
theorem splitValue_cases (argument : String) :
    splitValue argument = (argument, none) ∨ ∃ name value, IsLong name ∧
      splitValue argument = (name, some value) ∧ argument = name ++ "=" ++ value := by
  by_cases hlong : IsLong argument
  · by_cases hmem : '=' ∈ argument.toList
    · obtain ⟨front, back, htext, hfront⟩ := List.eq_append_cons_of_mem hmem
      have hargument : argument = String.ofList front ++ "=" ++ String.ofList back := by
        apply String.toList_inj.1
        simpa using htext
      have hname : IsLong (String.ofList front) := by
        obtain ⟨rest, hrest⟩ := hlong.exists_cons
        rw [htext] at hrest
        rcases front with _ | ⟨c, _ | ⟨d, front⟩⟩
        · cases hrest
        · cases hrest
        · cases hrest
          exact ⟨front, by simp⟩
      refine .inr ⟨_, _, hname, ?_, hargument⟩
      rw [hargument]
      exact splitValue_joined hname (by simpa using hfront) _
    · exact .inl (splitValue_of_not_mem hmem)
  · refine .inl ?_
    rw [splitValue]
    split
    · rename_i rest hrest
      exact absurd ⟨rest, hrest.symm⟩ hlong
    · rfl

theorem splitValue_of_not_looksLikeOption (h : ¬ LooksLikeOption text) :
    splitValue text = (text, none) := by
  rcases splitValue_cases text with hsplit | ⟨name, value, hlong, -, rfl⟩
  · exact hsplit
  · obtain ⟨rest, hrest⟩ := hlong.exists_cons
    exact absurd ⟨'-', rest ++ '=' :: value.toList, by simp [hrest]⟩ h

/-! Reading one item. -/

theorem exists_of_bind_eq_ok {α β : Type} {first : Except Stop α} {next : α → Except Stop β}
    {result : β} (h : first.bind next = .ok result) : ∃ a, first = .ok a ∧ next a = .ok result := by
  cases first with
  | error stop => cases h
  | ok a => exact ⟨a, rfl, h⟩

/-- What an item does to the settings. -/
def Settings.take (settings : Settings) : Item → Except Stop Settings
  | .positional text => .ok { settings with positional := settings.positional ++ [text] }
  | .flag f => .ok (settings.setFlag f)
  | .parameter p value => settings.setParameter p (some value)

/-- Whatever comes behind an item, it is read as that item. -/
theorem read_append (h : item.Written words) (settings : Settings) (arguments : List String) :
    settings.read (words ++ arguments) =
      (settings.take item).bind fun settings => settings.read arguments := by
  cases h with
  | positional h =>
      rw [List.singleton_append, Settings.read, splitValue_of_not_looksLikeOption h]
      simp only [role_eq_positional_iff.2 h]
      rfl
  | flag h =>
      rw [List.singleton_append, Settings.read, splitValue_of_not_mem (eq_not_mem_of_flag h)]
      simp only [role_eq_flag_iff.2 h]
      rfl
  | flagWithValue h hlong dropped =>
      rw [List.singleton_append, Settings.read,
        splitValue_joined hlong (eq_not_mem_of_flag h) dropped]
      simp only [role_eq_flag_iff.2 h]
      rfl
  | apart h value =>
      rw [List.cons_append, List.singleton_append, Settings.read,
        splitValue_of_not_mem (eq_not_mem_of_parameter h)]
      simp only [role_eq_parameter_iff.2 h]
      rfl
  | joined h hlong value =>
      rw [List.singleton_append, Settings.read,
        splitValue_joined hlong (eq_not_mem_of_parameter h) value]
      simp only [role_eq_parameter_iff.2 h]
      rfl

/-- Arguments that can be read begin with an item in one of its spellings. -/
theorem exists_written_of_read (h : settings.read (argument :: arguments) = .ok settings') :
    ∃ (item : Item) (words rest : List String), item.Written words ∧
      argument :: arguments = words ++ rest := by
  rcases splitValue_cases argument with hsplit | ⟨name, value, hlong, hsplit, rfl⟩
  · rw [Settings.read, hsplit] at h
    cases hrole : role argument with
    | help => simp [hrole] at h
    | unknown => simp [hrole] at h
    | positional => exact ⟨_, _, _, .positional (role_eq_positional_iff.1 hrole), rfl⟩
    | flag f => exact ⟨_, _, _, .flag (role_eq_flag_iff.1 hrole), rfl⟩
    | parameter p =>
        cases arguments with
        | nil => cases p <;> simp [hrole, Settings.setParameter] at h
        | cons value arguments =>
            exact ⟨_, _, _, .apart (role_eq_parameter_iff.1 hrole) value, rfl⟩
  · rw [Settings.read, hsplit] at h
    cases hrole : role name with
    | help => simp [hrole] at h
    | unknown => simp [hrole] at h
    | positional =>
        obtain ⟨rest, hrest⟩ := hlong.exists_cons
        exact absurd ⟨_, _, hrest⟩ (role_eq_positional_iff.1 hrole)
    | flag f => exact ⟨_, _, _, .flagWithValue (role_eq_flag_iff.1 hrole) hlong value, rfl⟩
    | parameter p => exact ⟨_, _, _, .joined (role_eq_parameter_iff.1 hrole) hlong value, rfl⟩

/-! Reading all items. -/

theorem read_append_of_spells (h : Spells words items) (settings : Settings)
    (arguments : List String) : settings.read (words ++ arguments) =
      (items.foldlM Settings.take settings).bind fun settings => settings.read arguments := by
  induction h generalizing settings with
  | nil => rfl
  | cons hword _ ih =>
      rw [List.append_assoc, read_append hword, List.foldlM_cons]
      cases settings.take _ with
      | error stop => rfl
      | ok settings => exact ih settings

theorem read_of_spells (h : Spells arguments items) (settings : Settings) :
    settings.read arguments = items.foldlM Settings.take settings := by
  have hread := read_append_of_spells h settings []
  rw [List.append_nil] at hread
  rw [hread]
  cases items.foldlM Settings.take settings <;> rfl

theorem Item.Written.length_pos (h : item.Written words) : 0 < words.length := by
  cases h <;> exact Nat.succ_pos _

/-- Arguments that can be read spell some items. -/
theorem exists_spells_of_read (h : settings.read arguments = .ok settings') :
    ∃ items, Spells arguments items := by
  induction hlength : arguments.length using Nat.strongRecOn generalizing settings arguments with
  | ind n ih =>
      cases arguments with
      | nil => exact ⟨[], .nil⟩
      | cons argument arguments =>
          obtain ⟨item, words, rest, hitem, heq⟩ := exists_written_of_read h
          have hshorter : rest.length < n := by
            have hwords := hitem.length_pos
            rw [← hlength, heq, List.length_append]
            omega
          rw [heq, read_append hitem] at h
          obtain ⟨next, -, hrest⟩ := exists_of_bind_eq_ok h
          obtain ⟨items, hitems⟩ := ih rest.length hshorter hrest rfl
          exact ⟨item :: items, heq ▸ .cons hitem hitems⟩

end JsonDelta.CommandLine
