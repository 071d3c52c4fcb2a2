import Mathlib.Data.List.Induction
import JsonDelta.Proofs.CommandLine.Item
import JsonDelta.Proofs.IgnoreList
/-!
What arguments ask for. Main statement: a run depends on the two paths in their order, on the last
value of each parameter, on which accessors are to be ignored and on which flags there are, and on
nothing else of how the arguments are written and arranged.
-/

namespace JsonDelta.CommandLine

/-! What a list of items says. -/

def positionals (items : List Item) : List String :=
  items.filterMap fun
    | .positional text => some text
    | _ => none

def values (p : Parameter) (items : List Item) : List String :=
  items.filterMap fun
    | .parameter q value => if q = p then some value else none
    | _ => none

def lastValue? (p : Parameter) (items : List Item) : Option String := (values p items).getLast?

/-- The value says something to the parameter. -/
def Parameter.Accepts : Parameter → String → Prop
  | .ignore, _ => True
  | .limit, text => (limit? text).isSome = true
  | .color, text => (ColorMode.ofName? text).isSome = true
  | .logLevel, text => (LogLevel.ofName? text).isSome = true

def Accepted (items : List Item) : Prop := ∀ p value, .parameter p value ∈ items → p.Accepts value

/-- Each parameter accepts its values, and there are two paths. -/
structure Complete (items : List Item) : Prop where
  accepted : Accepted items
  length_positionals : (positionals items).length = 2

/-- Two lists of items ask for the same. -/
structure SameRequest (items others : List Item) : Prop where
  positionals_eq : positionals others = positionals items
  lastValue?_eq : ∀ p, p ≠ .ignore → lastValue? p others = lastValue? p items
  mem_ignore_iff : ∀ value, .parameter .ignore value ∈ others ↔ .parameter .ignore value ∈ items
  mem_flag_iff : ∀ f, .flag f ∈ others ↔ .flag f ∈ items

namespace Settings

/-- The settings that items lead to, whatever stands between those that matter. -/
def withItems (settings : Settings) (items : List Item) : Settings :=
  { settings with
    positional := settings.positional ++ positionals items
    ignore := settings.ignore ++ values .ignore items
    limit := ((lastValue? .limit items).bind limit?).getD settings.limit
    colorMode := ((lastValue? .color items).bind ColorMode.ofName?).getD settings.colorMode
    logLevel := ((lastValue? .logLevel items).bind LogLevel.ofName?).getD settings.logLevel
    verbose := settings.verbose || decide (.flag .verbose ∈ items)
    recursive := settings.recursive || decide (.flag .recursive ∈ items)
    reportMoves := settings.reportMoves || decide (.flag .moves ∈ items)
    layout := if .flag .flat ∈ items then .flat else settings.layout }

end Settings

variable {environment : Environment} {arguments others : List String} {items items' : List Item}
  {item : Item} {p : Parameter} {value : String} {settings settings' : Settings}

theorem mem_values_iff : value ∈ values p items ↔ .parameter p value ∈ items := by
  rw [values, List.mem_filterMap]
  constructor
  · rintro ⟨item, hitem, heq⟩
    cases item with
    | parameter q v =>
        simp only [Option.ite_none_right_eq_some, Option.some.injEq] at heq
        obtain ⟨rfl, rfl⟩ := heq
        exact hitem
    | positional | flag => cases heq
  · intro h
    exact ⟨_, h, if_pos rfl⟩

/-! Taking items in turn. -/

theorem Settings.take_withItems (h : Accepted [item]) (settings : Settings) (items : List Item) :
    (settings.withItems items).take item = .ok (settings.withItems (items ++ [item])) := by
  cases item with
  | positional text => simp [take, withItems, positionals, values, lastValue?]
  | flag f => cases f <;> simp [take, setFlag, withItems, positionals, values, lastValue?]
  | parameter p value =>
      have hvalue : p.Accepts value := h p value List.mem_cons_self
      cases p with
      | ignore => simp [take, setParameter, withItems, positionals, values, lastValue?]
      | limit =>
          obtain ⟨limit, hlimit⟩ := Option.isSome_iff_exists.1 hvalue
          simp [take, setParameter, withItems, positionals, values, lastValue?, hlimit]
      | color =>
          obtain ⟨mode, hmode⟩ := Option.isSome_iff_exists.1 hvalue
          simp [take, setParameter, withItems, positionals, values, lastValue?, hmode]
      | logLevel =>
          obtain ⟨level, hlevel⟩ := Option.isSome_iff_exists.1 hvalue
          simp [take, setParameter, withItems, positionals, values, lastValue?, hlevel]

theorem Settings.withItems_nil (settings : Settings) : settings.withItems [] = settings := by
  simp [withItems, positionals, values, lastValue?]

/-- The items before the last one count for what they leave behind. -/
theorem foldlM_take (h : Accepted items) (settings : Settings) :
    items.foldlM Settings.take settings = .ok (settings.withItems items) := by
  induction items using List.reverseRecOn with
  | nil => rw [settings.withItems_nil]; rfl
  | append_singleton items item ih =>
      have hitems : Accepted items := fun p value hmem => h p value (List.mem_append_left _ hmem)
      have hitem : Accepted [item] := fun p value hmem => h p value (List.mem_append_right _ hmem)
      rw [List.foldlM_append, ih hitems]
      show [item].foldlM Settings.take (settings.withItems items) = _
      rw [List.foldlM_cons, Settings.take_withItems hitem]
      rfl

theorem accepts_of_take (h : settings.take (.parameter p value) = .ok settings') :
    p.Accepts value := by
  cases p with
  | ignore => trivial
  | limit =>
      cases hlimit : limit? value with
      | none => simp [Settings.take, Settings.setParameter, hlimit] at h
      | some limit => simp [Parameter.Accepts, hlimit]
  | color =>
      cases hmode : ColorMode.ofName? value with
      | none => simp [Settings.take, Settings.setParameter, hmode] at h
      | some mode => simp [Parameter.Accepts, hmode]
  | logLevel =>
      cases hlevel : LogLevel.ofName? value with
      | none => simp [Settings.take, Settings.setParameter, hlevel] at h
      | some level => simp [Parameter.Accepts, hlevel]

theorem accepted_of_foldlM_take (h : items.foldlM Settings.take settings = .ok settings') :
    Accepted items := by
  induction items generalizing settings with
  | nil => nofun
  | cons item items ih =>
      rw [List.foldlM_cons] at h
      obtain ⟨next, htake, hrest⟩ := exists_of_bind_eq_ok h
      intro p value hmem
      rcases List.mem_cons.1 hmem with rfl | hmem
      · exact accepts_of_take htake
      · exact ih hrest p value hmem

/-! Settings of a run. -/

/-- The settings before any argument is read. -/
def start (environment : Environment) : Settings :=
  { logLevel := ((environment logLevelVariable).bind LogLevel.ofName?).getD .warning }

theorem settings?_eq (environment : Environment) (arguments : List String) :
    settings? environment arguments = ((start environment).read arguments).bind fun settings =>
      settings.complete ((environment ignoreVariable).getD "") := rfl

theorem settings?_of_spells (h : Spells arguments items) (haccepted : Accepted items) :
    settings? environment arguments =
      ((start environment).withItems items).complete ((environment ignoreVariable).getD "") := by
  rw [settings?_eq, read_of_spells h, foldlM_take haccepted]
  rfl

theorem exists_complete_iff {ignored : String} :
    (∃ settings', settings.complete ignored = .ok settings') ↔ settings.positional.length = 2 := by
  rw [Settings.complete]
  split
  · rename_i h
    exact iff_of_true ⟨_, rfl⟩ (by rw [h]; rfl)
  · rename_i h
    refine iff_of_false (by rintro ⟨_, ⟨⟩⟩) fun hlength => ?_
    obtain ⟨path1, path2, heq⟩ := List.length_eq_two.1 hlength
    exact h path1 path2 heq

/-- Settings that differ in the order and number of the ignored fields are completed alike. -/
theorem complete_eq_of_ignore {ignored : String} {fields : List String}
    (h : ∀ text, text ∈ fields ↔ text ∈ settings.ignore) :
    ({ settings with ignore := fields } : Settings).complete ignored =
      settings.complete ignored := by
  rw [Settings.complete, Settings.complete, IgnoreList.merge_eq_of_mem_fields_iff h]

/-- Items that ask for the same lead to settings that are completed alike. -/
theorem complete_withItems_eq (h : SameRequest items items') (settings : Settings)
    (ignored : String) : (settings.withItems items').complete ignored =
      (settings.withItems items).complete ignored := by
  have hfields : ∀ text, text ∈ settings.ignore ++ values .ignore items' ↔
      text ∈ (settings.withItems items).ignore := by
    intro text
    rw [Settings.withItems, List.mem_append, List.mem_append, mem_values_iff, mem_values_iff,
      h.mem_ignore_iff]
  rw [← complete_eq_of_ignore hfields]
  simp only [Settings.withItems, h.positionals_eq, h.mem_flag_iff,
    h.lastValue?_eq .limit (by decide), h.lastValue?_eq .color (by decide),
    h.lastValue?_eq .logLevel (by decide)]

theorem accepted_of_settings? (hspells : Spells arguments items)
    (h : settings? environment arguments = .ok settings) : Accepted items := by
  rw [settings?_eq, read_of_spells hspells] at h
  obtain ⟨next, hread, -⟩ := exists_of_bind_eq_ok h
  exact accepted_of_foldlM_take hread

theorem exists_spells_of_settings? (h : settings? environment arguments = .ok settings) :
    ∃ items, Spells arguments items := by
  rw [settings?_eq] at h
  obtain ⟨next, hread, -⟩ := exists_of_bind_eq_ok h
  exact exists_spells_of_read hread

/-- A run starts exactly if the arguments spell two paths, flags and parameters with values that
these accept. -/
theorem exists_settings?_iff : (∃ settings, settings? environment arguments = .ok settings) ↔
    ∃ items, Spells arguments items ∧ Complete items := by
  have hcomplete {items : List Item} (hspells : Spells arguments items)
      (haccepted : Accepted items) : (∃ settings, settings? environment arguments = .ok settings) ↔
        (positionals items).length = 2 := by
    rw [settings?_of_spells hspells haccepted, exists_complete_iff]
    rfl
  constructor
  · rintro ⟨settings, h⟩
    obtain ⟨items, hspells⟩ := exists_spells_of_settings? h
    have haccepted := accepted_of_settings? hspells h
    exact ⟨items, hspells, haccepted, (hcomplete hspells haccepted).1 ⟨settings, h⟩⟩
  · rintro ⟨items, hspells, haccepted, hlength⟩
    exact (hcomplete hspells haccepted).2 hlength

theorem settings?_eq_of_sameRequest (hspells : Spells arguments items)
    (hothers : Spells others items') (hsame : SameRequest items items')
    (haccepted : Accepted items) (haccepted' : Accepted items') :
    settings? environment others = settings? environment arguments := by
  rw [settings?_of_spells hothers haccepted', settings?_of_spells hspells haccepted,
    complete_withItems_eq hsame]

/-- A value behind an equals sign is the same as one that is the next argument, whatever it is. -/
theorem settings?_joined {before behind : List String} {items : List Item} {name : String}
    (hbefore : Spells before items) (hname : name ∈ p.names) (hlong : IsLong name)
    (value : String) : settings? environment (before ++ (name ++ "=" ++ value) :: behind) =
      settings? environment (before ++ name :: value :: behind) := by
  have hread (settings : Settings) : settings.read ((name ++ "=" ++ value) :: behind) =
      settings.read (name :: value :: behind) :=
    (read_append (.joined hname hlong value) settings behind).trans
      (read_append (.apart hname value) settings behind).symm
  simp only [settings?_eq, read_append_of_spells hbefore, hread]

section AnyHash

variable [StandardHash]

/-- Arguments start a run exactly if they spell two paths, flags and accepted values of parameters.
Others that ask for the same, and start a run as well or use no further items, have the same result.
A value may stand behind an equals sign or alone, whatever it is and whatever follows. -/
theorem execute_eq_of_sameRequest (system : FileSystem) (console : Console)
    (environment : Environment) :
    let starts arguments := ∃ settings, settings? environment arguments = .ok settings
    let result := execute system console environment
    (∀ arguments, starts arguments ↔ ∃ items, Spells arguments items ∧ Complete items) ∧
      (∀ arguments items others items', starts arguments → Spells arguments items →
        Spells others items' → SameRequest items items' → starts others ∨ items' ⊆ items →
          result others = result arguments) ∧
      ∀ before items, Spells before items → ∀ (p : Parameter) (name : String), name ∈ p.names →
        IsLong name → ∀ (value : String) (behind : List String),
          result (before ++ (name ++ "=" ++ value) :: behind) =
            result (before ++ name :: value :: behind) := by
  intro starts result
  refine ⟨fun arguments => exists_settings?_iff, ?_, ?_⟩
  · rintro arguments items others items' ⟨settings, hstarts⟩ hspells hothers hsame hitems'
    have haccepted : Accepted items := accepted_of_settings? hspells hstarts
    have haccepted' : Accepted items' := by
      rcases hitems' with ⟨settings', hstarts'⟩ | hsubset
      · exact accepted_of_settings? hothers hstarts'
      · exact fun p value hmem => haccepted p value (hsubset hmem)
    have hsettings : settings? environment others = settings? environment arguments :=
      settings?_eq_of_sameRequest hspells hothers hsame haccepted haccepted'
    simp only [result, execute, hsettings]
  · intro before items hbefore p name hname hlong value behind
    simp only [result, execute, settings?_joined hbefore hname hlong]

end AnyHash

/-- Values with dashes and equals signs, a flag with a value that is dropped, and a limit that is
given twice. -/
theorem execute_eq_of_sameRequest_shuffled :
    let system : FileSystem :=
      { root := .directory [("old", .file "[1]".toUTF8), ("new", .file "[2]".toUTF8)] }
    let result := execute system {} fun _ => none
    let arguments := ["--ignore=['a=b']", "old", "-t", "3", "-v", "new", "-i", "-v", "-t", "7"]
    let others := ["--verbose=no", "-i", "-v", "-v", "old", "--ignore", "['a=b']",
      "--truncate-items=7", "new"]
    let items : List Item := [.parameter .ignore "['a=b']", .positional "old",
      .parameter .limit "3", .flag .verbose, .positional "new", .parameter .ignore "-v",
      .parameter .limit "7"]
    let items' : List Item := [.flag .verbose, .parameter .ignore "-v", .flag .verbose,
      .positional "old", .parameter .ignore "['a=b']", .parameter .limit "7", .positional "new"]
    Spells arguments items ∧ Complete items ∧ Spells others items' ∧ SameRequest items items' ∧
      items' ⊆ items ∧ result others = result arguments ∧
      result ["-v", "--color=-v=", "old"] = result ["-v", "--color", "-v=", "old"] := by
  intro system result arguments others items items'
  have hignore : "--ignore" ∈ Parameter.ignore.names := by decide
  have hlimit : "--truncate-items" ∈ Parameter.limit.names := by decide
  have hcolor : "--color" ∈ Parameter.color.names := by decide
  have hlong : IsLong "--ignore" ∧ IsLong "--truncate-items" ∧ IsLong "--verbose" ∧
      IsLong "--color" := ⟨⟨_, rfl⟩, ⟨_, rfl⟩, ⟨_, rfl⟩, ⟨_, rfl⟩⟩
  have hpath : ¬ LooksLikeOption "old" ∧ ¬ LooksLikeOption "new" := by
    simp [LooksLikeOption]
  have hspells : Spells arguments items :=
    .cons (.joined hignore hlong.1 "['a=b']") <| .cons (.positional hpath.1) <|
      .cons (.apart (by decide) "3") <| .cons (.flag (by decide)) <| .cons (.positional hpath.2) <|
        .cons (.apart (by decide) "-v") <| .cons (.apart (by decide) "7") .nil
  have hothers : Spells others items' :=
    .cons (.flagWithValue (by decide) hlong.2.2.1 "no") <| .cons (.apart (by decide) "-v") <|
      .cons (.flag (by decide)) <| .cons (.positional hpath.1) <|
        .cons (.apart (by decide) "['a=b']") <| .cons (.joined hlimit hlong.2.1 "7") <|
          .cons (.positional hpath.2) .nil
  have hcomplete : Complete items := by
    refine ⟨fun p value hmem => ?_, rfl⟩
    simp only [items, List.mem_cons, List.not_mem_nil, or_false, Item.parameter.injEq,
      reduceCtorEq, false_or] at hmem
    rcases hmem with ⟨rfl, rfl⟩ | ⟨rfl, rfl⟩ | ⟨rfl, rfl⟩ | ⟨rfl, rfl⟩
    · trivial
    · rfl
    · trivial
    · rfl
  have hsame : SameRequest items items' := by
    refine ⟨rfl, fun p hp => ?_, fun value => ?_, fun f => ?_⟩
    · cases p with
      | ignore => exact absurd rfl hp
      | limit | color | logLevel => rfl
    · have hvalues : values .ignore items' = (values .ignore items).reverse := rfl
      rw [← mem_values_iff, ← mem_values_iff, hvalues, List.mem_reverse]
    · simp [items, items']
  have hsubset : items' ⊆ items := by decide
  obtain ⟨hstarts, hresult, hjoined⟩ := execute_eq_of_sameRequest system {} fun _ => none
  exact ⟨hspells, hcomplete, hothers, hsame, hsubset,
    hresult _ _ _ _ ((hstarts arguments).2 ⟨items, hspells, hcomplete⟩) hspells hothers hsame
      (.inr hsubset),
    hjoined ["-v"] [.flag .verbose] (.cons (.flag (by decide)) .nil) .color "--color" hcolor
      hlong.2.2.2 "-v=" ["old"]⟩

end JsonDelta.CommandLine
