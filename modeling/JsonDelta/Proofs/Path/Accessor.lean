import JsonDelta.Path.Accessor
/-!
Reading accessors back. A group ends at its first closing bracket, so no key that was read holds
one. Main statement: the accessor of a path is read as that path exactly when its keys hold no
closing bracket, and what has been read once is read again unchanged.
-/

namespace JsonDelta

namespace Segment

/-- What a group can say: a key without closing bracket, or an index of 64 bits. -/
def Readable : Segment → Prop
  | .key name => ']' ∉ name.toList
  | .index n => Int64.minValue.toInt ≤ n ∧ n ≤ Int64.maxValue.toInt

def quote (name : String) : Char := if '\'' ∈ name.toList then '"' else '\''

/-- What stands between the brackets of an accessor. -/
def content : Segment → List Char
  | .index n => (Decimal.intText n).toList
  | .key name => quote name :: (name.toList ++ [quote name])

theorem toList_accessor (s : Segment) : s.accessor.toList = '[' :: (s.content ++ [']']) := by
  cases s with
  | index n => simp [accessor, content]
  | key name =>
      by_cases h : '\'' ∈ name.toList
      · simp [accessor, content, quote, h]
      · simp [accessor, content, quote, h]

theorem content_ne_nil (s : Segment) : s.content ≠ [] := by
  cases s with
  | index n => exact Decimal.intText_ne_nil n
  | key name => simp [content]

theorem isQuote_quote (name : String) : Accessor.isQuote (quote name) = true := by
  unfold quote
  split <;> decide

theorem not_mem_content_index (n : Int) : ']' ∉ (index n).content := by
  intro hmem
  rcases Decimal.mem_intText hmem with hminus | hdigit
  · simp at hminus
  · simp at hdigit

theorem Readable.not_mem_content {s : Segment} (h : s.Readable) : ']' ∉ s.content := by
  cases s with
  | index n => exact not_mem_content_index n
  | key name =>
      have hname : ']' ∉ name.toList := h
      have hquote : ']' ≠ quote name := by
        unfold quote
        split <;> decide
      simp [content, hname, hquote]

end Segment

namespace Accessor

/-! Groups. -/

theorem groupsFrom_append {pending content rest : List Char} (h : ']' ∉ content)
    (hne : pending ≠ [] ∨ content ≠ []) :
    groupsFrom (some pending) (content ++ ']' :: rest) =
      (pending.reverse ++ content) :: groups rest := by
  induction content generalizing pending with
  | nil =>
      have hpending : pending ≠ [] := by simpa using hne
      simp [groupsFrom, hpending, groups]
  | cons c content ih =>
      rw [List.mem_cons, not_or] at h
      rw [List.cons_append, groupsFrom, if_pos (Ne.symm h.1), ih h.2 (.inl (by simp))]
      simp

theorem groups_bracket {content : List Char} (h : ']' ∉ content) (hne : content ≠ [])
    (rest : List Char) : groups ('[' :: (content ++ ']' :: rest)) = content :: groups rest := by
  rw [groups, groupsFrom, if_pos rfl, groupsFrom_append h (.inr hne)]
  rfl

/-- A group ends at the first closing bracket. -/
theorem not_mem_of_mem_groupsFrom {pending : Option (List Char)} {text group : List Char}
    (hpending : ∀ p, pending = some p → ']' ∉ p) (h : group ∈ groupsFrom pending text) :
    ']' ∉ group := by
  fun_induction groupsFrom pending text with
  | case1 => cases h
  | case2 c rest ih =>
      refine ih (fun p hp => ?_) h
      split at hp <;> cases hp
      simp
  | case3 pending c rest hc ih =>
      refine ih (fun p hp => ?_) h
      cases hp
      simpa [Ne.symm hc] using hpending pending rfl
  | case4 c rest _ ih => exact ih (by simp) h
  | case5 pending c rest _ _ ih =>
      rcases List.mem_cons.1 h with rfl | h
      · simpa using hpending pending rfl
      · exact ih (by simp) h

/-! What one group says. -/

theorem isBlank_eq_false_of_mem_intText {n : Int} {c : Char}
    (h : c ∈ (Decimal.intText n).toList) : Text.isBlank c = false := by
  rcases Decimal.mem_intText h with rfl | hdigit
  · decide
  · refine Bool.eq_false_iff.2 fun hblank => ?_
    simp only [Text.isBlank, Bool.or_eq_true, decide_eq_true_eq] at hblank
    rcases hblank with ((((rfl | rfl) | rfl) | rfl) | rfl) | rfl <;> simp at hdigit

theorem dropPlus_of_ne_plus {content : List Char} (h : ∀ rest, content ≠ '+' :: rest) :
    dropPlus content = content := by
  unfold dropPlus
  split
  · exact absurd rfl (h _)
  · rfl

theorem index?_intText {n : Int}
    (h : Int64.minValue.toInt ≤ n ∧ n ≤ Int64.maxValue.toInt) :
    index? (Decimal.intText n).toList = some n := by
  have hplus : ∀ rest, (Decimal.intText n).toList ≠ '+' :: rest := by
    intro rest heq
    have hmem : '+' ∈ (Decimal.intText n).toList := by simp [heq]
    rcases Decimal.mem_intText hmem with hminus | hdigit
    · simp at hminus
    · simp at hdigit
  rw [index?, Text.trim_eq_self fun c => isBlank_eq_false_of_mem_intText,
    dropPlus_of_ne_plus hplus, Decimal.readInt?_intText, Option.filter_some,
    if_pos (by simpa using h)]

/-- What starts with a quote is no index. -/
theorem index?_quote {c : Char} (h : isQuote c = true) (text : List Char) :
    index? (c :: text) = none := by
  have hc : c = '\'' ∨ c = '"' := by simpa [isQuote] using h
  have hblank : Text.isBlank c = false := by
    rcases hc with rfl | rfl <;> decide
  obtain ⟨rest, htrim⟩ := Text.exists_trim_cons hblank text
  rw [index?, htrim]
  rcases hc with rfl | rfl <;> simp [dropPlus, Decimal.readInt?, Decimal.readNat?]

theorem unquote_quote {c : Char} (h : isQuote c = true) (text : List Char) :
    unquote (c :: (text ++ [c])) = text := by
  simp [unquote, h]

theorem segment_content {s : Segment} (h : s.Readable) : segment s.content = s := by
  cases s with
  | index n =>
      rw [segment, Segment.content, index?_intText h]
  | key name =>
      have hquote := Segment.isQuote_quote name
      rw [segment, Segment.content, index?_quote hquote, unquote_quote hquote, String.ofList_toList]

theorem mem_of_mem_unquote {c : Char} {text : List Char} (h : c ∈ unquote text) : c ∈ text := by
  unfold unquote at h
  split at h
  · exact h
  · split at h
    · exact List.mem_cons_of_mem _ ((List.dropLast_subset _) h)
    · exact h

theorem readable_segment {content : List Char} (h : ']' ∉ content) :
    (segment content).Readable := by
  unfold segment
  split
  · rename_i n hindex
    show Int64.minValue.toInt ≤ n ∧ n ≤ Int64.maxValue.toInt
    exact of_decide_eq_true (Option.filter_eq_some_iff.1 hindex).2
  · change ']' ∉ (String.ofList (unquote content)).toList
    rw [String.toList_ofList]
    exact fun hmem => h (mem_of_mem_unquote hmem)

/-! Whole paths. -/

variable {path : Path}

theorem toList_pathAccessor (path : Path) :
    path.accessor.toList = path.flatMap fun s => '[' :: (s.content ++ [']']) := by
  simp [Path.accessor, List.flatMap_map, Segment.toList_accessor]

theorem groups_accessor (h : ∀ s ∈ path, s.Readable) :
    groups path.accessor.toList = path.map Segment.content := by
  rw [toList_pathAccessor]
  induction path with
  | nil => rfl
  | cons s path ih =>
      obtain ⟨hs, hpath⟩ := List.forall_mem_cons.1 h
      rw [List.flatMap_cons, List.cons_append, List.append_assoc, List.singleton_append,
        groups_bracket hs.not_mem_content s.content_ne_nil, ih hpath, List.map_cons]

theorem stripRootChars_accessor (path : Path) :
    stripRootChars path.accessor.toList = path.accessor.toList := by
  rw [toList_pathAccessor]
  cases path <;> rfl

theorem parse_rootedAccessor (path : Path) :
    parse path.rootedAccessor = parse path.accessor := by
  rw [parse, parse, stripRootChars_accessor, Path.rootedAccessor, String.toList_append]
  rfl

theorem readable_of_mem_parse {text : String} {s : Segment} (h : s ∈ parse text) : s.Readable := by
  obtain ⟨group, hgroup, rfl⟩ := List.mem_map.1 h
  exact readable_segment (not_mem_of_mem_groupsFrom (by simp) hgroup)

/-- A path can be read back when each of its segments can be read. -/
theorem parse_accessor_eq_self_iff : parse path.accessor = path ↔ ∀ s ∈ path, s.Readable := by
  constructor
  · intro h s hs
    rw [← h] at hs
    exact readable_of_mem_parse hs
  · intro h
    rw [parse, stripRootChars_accessor, groups_accessor h, List.map_map]
    exact (List.map_congr_left fun s hs => segment_content (h s hs)).trans (List.map_id' path)

/-- With or without the marker in front, a path of 64-bit indices can be read back exactly when its
keys hold no closing bracket, and what was read from any text is read again unchanged. -/
theorem parse_accessor_iff_and_parse_accessor_parse :
    (∀ path : Path,
      (∀ n, .index n ∈ path → Int64.minValue.toInt ≤ n ∧ n ≤ Int64.maxValue.toInt) →
      (parse path.accessor = path ↔ ∀ name, .key name ∈ path → ']' ∉ name.toList) ∧
        (parse path.rootedAccessor = path ↔ ∀ name, .key name ∈ path → ']' ∉ name.toList)) ∧
      ∀ text, parse (parse text).accessor = parse text ∧
        parse (parse text).rootedAccessor = parse text := by
  refine ⟨fun path hfits => ?_, fun text => ?_⟩
  · have hreadable : (∀ s ∈ path, s.Readable) ↔ ∀ name, .key name ∈ path → ']' ∉ name.toList := by
      constructor
      · exact fun h name hname => h _ hname
      · intro h s hs
        cases s with
        | key name => exact h name hs
        | index n => exact hfits n hs
    rw [parse_rootedAccessor, parse_accessor_eq_self_iff, hreadable]
    exact ⟨.rfl, .rfl⟩
  · have hparsed : parse (parse text).accessor = parse text :=
      parse_accessor_eq_self_iff.2 fun _ => readable_of_mem_parse
    rw [parse_rootedAccessor]
    exact ⟨hparsed, hparsed⟩

/-- Quotes of both kinds, an opening bracket, a key of digits and one without characters can be read
back; a closing bracket cuts its key. -/
theorem parse_accessor_quotes_and_brackets :
    let path : Path :=
      [.key "", .key "it's \"x\"[0", .key " -1", .index Int64.minValue.toInt, .key "root"]
    let cut : Path := [.index 7, .key "a]b"]
    (∀ n, .index n ∈ path → Int64.minValue.toInt ≤ n ∧ n ≤ Int64.maxValue.toInt) ∧
      parse path.rootedAccessor = path ∧ parse cut.accessor ≠ cut ∧
      cut.accessor = "[7]['a]b']" ∧ parse cut.accessor = [.index 7, .key "'a"] := by
  intro path cut
  have hpath : ∀ n, .index n ∈ path → Int64.minValue.toInt ≤ n ∧ n ≤ Int64.maxValue.toInt := by
    intro n hn
    obtain rfl : n = Int64.minValue.toInt := by simpa [path] using hn
    decide
  have hcut : ∀ n, .index n ∈ cut → Int64.minValue.toInt ≤ n ∧ n ≤ Int64.maxValue.toInt := by
    intro n hn
    obtain rfl : n = 7 := by simpa [cut] using hn
    decide
  obtain ⟨hread, -⟩ := parse_accessor_iff_and_parse_accessor_parse
  refine ⟨hpath, (hread path hpath).2.2 (by simp [path]), fun heq => ?_, by decide, by decide⟩
  have hclosing := (hread cut hcut).1.1 heq "a]b" (by simp [cut])
  simp at hclosing

end Accessor

end JsonDelta
