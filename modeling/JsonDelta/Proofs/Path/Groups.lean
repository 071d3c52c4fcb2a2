import Mathlib.Data.Nat.Find
import JsonDelta.Proofs.Path.Accessor
/-!
Where the groups of an accessor are. A group is an opening bracket, one or more characters other
than a closing bracket, and a closing bracket. Main statement: reading takes the leftmost groups
that do not overlap, behind a leading `root`, and one segment from each; empty brackets, brackets
that are not closed, stray closing brackets and the text between groups add nothing.
-/

namespace JsonDelta.Accessor

/-- Behind `front` there is a group with the content, and `rest` follows it. The content may hold
opening brackets. -/
structure GroupAt (text front content rest : List Char) : Prop where
  text_eq : text = front ++ '[' :: (content ++ ']' :: rest)
  ne_nil : content ≠ []
  not_mem : ']' ∉ content

/-- The contents of the leftmost groups that do not overlap: those of the first group, and of the
leftmost groups behind it. -/
inductive LeftmostGroups : List Char → List (List Char) → Prop
  | none {text : List Char} (h : ∀ front content rest, ¬ GroupAt text front content rest) :
      LeftmostGroups text []
  | next {text front content rest : List Char} {contents : List (List Char)}
      (group : GroupAt text front content rest)
      (leftmost : ∀ front' content' rest', GroupAt text front' content' rest' →
        front.length ≤ front'.length)
      (others : LeftmostGroups rest contents) : LeftmostGroups text (content :: contents)

/-- The second text is the first one without a leading `root`. -/
inductive WithoutRoot : List Char → List Char → Prop
  | marked (body : List Char) : WithoutRoot (rootMarker.toList ++ body) body
  | bare {text : List Char} (h : ¬ rootMarker.toList <+: text) : WithoutRoot text text

variable {text front content rest body : List Char} {contents : List (List Char)} {c : Char}

theorem withoutRoot_iff : WithoutRoot text body ↔ stripRootChars text = body := by
  constructor
  · intro h
    cases h with
    | marked => rfl
    | bare h =>
        unfold stripRootChars
        split
        · exact absurd (List.prefix_append _ _) h
        · rfl
  · rintro rfl
    unfold stripRootChars
    split
    · exact .marked _
    · rename_i hne
      refine .bare ?_
      rintro ⟨rest, rfl⟩
      exact hne rest rfl

/-! What adds no group. -/

/-- Without a closing bracket there is no group. -/
theorem groupsFrom_eq_nil {pending : Option (List Char)} (h : ']' ∉ text) :
    groupsFrom pending text = [] := by
  fun_induction groupsFrom pending text with
  | case1 => rfl
  | case2 c rest ih => exact ih (List.not_mem_of_not_mem_cons h)
  | case3 pending c rest _ ih => exact ih (List.not_mem_of_not_mem_cons h)
  | case4 c rest hc _ => exact absurd (not_not.1 hc).symm (List.ne_of_not_mem_cons h)
  | case5 pending c rest hc _ _ => exact absurd (not_not.1 hc).symm (List.ne_of_not_mem_cons h)

theorem groups_cons_of_ne (h : c ≠ '[') (text : List Char) : groups (c :: text) = groups text := by
  rw [groups, groupsFrom, if_neg h, groups]

theorem groups_append_of_not_mem (h : '[' ∉ front) (text : List Char) :
    groups (front ++ text) = groups text := by
  induction front with
  | nil => rfl
  | cons c front ih =>
      rw [List.mem_cons, not_or] at h
      rw [List.cons_append, groups_cons_of_ne (Ne.symm h.1), ih h.2]

theorem groups_empty_brackets (text : List Char) : groups ('[' :: ']' :: text) = groups text := rfl

theorem groups_unclosed (h : ']' ∉ text) : groups ('[' :: text) = [] :=
  groupsFrom_eq_nil (by simpa using h)

/-- A character at which no group starts is skipped. An opening bracket is one of these if a closing
one follows at once, or none at all. -/
theorem groups_cons_of_not_groupAt (h : ∀ content rest, ¬ GroupAt (c :: text) [] content rest) :
    groups (c :: text) = groups text := by
  by_cases hopen : c = '['
  · subst hopen
    by_cases hclose : ']' ∈ text
    · obtain ⟨content, rest, rfl, hnot⟩ := List.eq_append_cons_of_mem hclose
      have hempty : content = [] := by
        by_contra hne
        exact h content rest ⟨rfl, hne, hnot⟩
      subst hempty
      rw [List.nil_append, groups_empty_brackets, groups_cons_of_ne (by decide)]
    · rw [groups_unclosed hclose, groups, groupsFrom_eq_nil hclose]
  · exact groups_cons_of_ne hopen text

/-! The leftmost groups. -/

theorem GroupAt.cons (h : GroupAt text front content rest) (c : Char) :
    GroupAt (c :: text) (c :: front) content rest :=
  ⟨congrArg (c :: ·) h.text_eq, h.ne_nil, h.not_mem⟩

theorem GroupAt.length_rest_lt (h : GroupAt text front content rest) :
    rest.length < text.length := by
  rw [h.text_eq]
  simp only [List.length_append, List.length_cons]
  omega

theorem groups_eq_nil_of_forall_not (h : ∀ front content rest, ¬ GroupAt text front content rest) :
    groups text = [] := by
  induction text with
  | nil => rfl
  | cons c text ih =>
      rw [groups_cons_of_not_groupAt (h [])]
      exact ih fun front content rest hgroup => h _ content rest (hgroup.cons c)

theorem groups_eq_cons_of_leftmost (group : GroupAt text front content rest)
    (leftmost : ∀ front' content' rest', GroupAt text front' content' rest' →
      front.length ≤ front'.length) : groups text = content :: groups rest := by
  induction front generalizing text with
  | nil =>
      rw [group.text_eq, List.nil_append, groups_bracket group.not_mem group.ne_nil]
  | cons c front ih =>
      obtain ⟨rfl, hne, hnot⟩ := group
      rw [List.cons_append] at leftmost ⊢
      have hskip := groups_cons_of_not_groupAt fun content' rest' hgroup =>
        Nat.not_succ_le_zero _ (leftmost [] content' rest' hgroup)
      rw [hskip]
      refine ih ⟨rfl, hne, hnot⟩ fun front' content' rest' hgroup => ?_
      exact Nat.le_of_succ_le_succ (leftmost _ content' rest' (hgroup.cons c))

theorem LeftmostGroups.groups_eq (h : LeftmostGroups text contents) : groups text = contents := by
  induction h with
  | none h => exact groups_eq_nil_of_forall_not h
  | next group leftmost _ ih => rw [groups_eq_cons_of_leftmost group leftmost, ih]

/-- Where there is a group, there is a leftmost one. -/
theorem exists_leftmost_groupAt (h : ∃ front content rest, GroupAt text front content rest) :
    ∃ front content rest, GroupAt text front content rest ∧
      ∀ front' content' rest', GroupAt text front' content' rest' →
        front.length ≤ front'.length := by
  classical
  have hlength : ∃ n front content rest, GroupAt text front content rest ∧ front.length = n := by
    obtain ⟨front, content, rest, hgroup⟩ := h
    exact ⟨front.length, front, content, rest, hgroup, rfl⟩
  obtain ⟨front, content, rest, hgroup, hfront⟩ := Nat.find_spec hlength
  refine ⟨front, content, rest, hgroup, fun front' content' rest' hgroup' => ?_⟩
  rw [hfront]
  exact Nat.find_min' hlength ⟨front', content', rest', hgroup', rfl⟩

/-- The groups that are read are the leftmost ones. -/
theorem leftmostGroups_groups (text : List Char) : LeftmostGroups text (groups text) := by
  by_cases h : ∃ front content rest, GroupAt text front content rest
  · obtain ⟨front, content, rest, hgroup, hleftmost⟩ := exists_leftmost_groupAt h
    have hlt := hgroup.length_rest_lt
    rw [groups_eq_cons_of_leftmost hgroup hleftmost]
    exact .next hgroup hleftmost (leftmostGroups_groups rest)
  · simp only [not_exists] at h
    rw [groups_eq_nil_of_forall_not h]
    exact .none h
termination_by text.length

theorem leftmostGroups_iff : LeftmostGroups text contents ↔ groups text = contents := by
  constructor
  · exact LeftmostGroups.groups_eq
  · rintro rfl
    exact leftmostGroups_groups text

/-- An accessor is read as the segments of its leftmost groups that do not overlap, behind a leading
`root`. Text without an opening bracket, empty brackets and a bracket that is not closed add
nothing, and a bracket that is opened inside a group belongs to its content. -/
theorem parse_eq_iff_leftmostGroups :
    (∀ accessor path, parse accessor = path ↔ ∃ body contents,
        WithoutRoot accessor.toList body ∧ LeftmostGroups body contents ∧
          path = contents.map segment) ∧
      (∀ text contents, LeftmostGroups text contents ↔ groups text = contents) ∧
      (∀ gap text, '[' ∉ gap → groups (gap ++ text) = groups text) ∧
      (∀ text, groups ('[' :: ']' :: text) = groups text) ∧
      (∀ text, ']' ∉ text → groups ('[' :: text) = []) ∧
      ∀ content rest, content ≠ [] → ']' ∉ content →
        groups ('[' :: (content ++ ']' :: rest)) = content :: groups rest := by
  refine ⟨fun accessor path => ?_, fun _ _ => leftmostGroups_iff,
    fun _ text hgap => groups_append_of_not_mem hgap text, groups_empty_brackets,
    fun _ => groups_unclosed, fun _ rest hne hnot => groups_bracket hnot hne rest⟩
  constructor
  · rintro rfl
    exact ⟨_, _, withoutRoot_iff.2 rfl, leftmostGroups_groups _, rfl⟩
  · rintro ⟨body, contents, hbody, hcontents, rfl⟩
    rw [parse, withoutRoot_iff.1 hbody, hcontents.groups_eq]

/-- A stray closing bracket, empty brackets, an opening bracket inside a group and one that is not
closed. -/
theorem parse_eq_iff_leftmostGroups_malformed :
    (∃ body contents, WithoutRoot "root x]['a'][][[b]] [c".toList body ∧
        LeftmostGroups body contents ∧ [.key "a", .key "[b"] = contents.map segment) ∧
      '[' ∉ " x]".toList ∧ groups " x]['a']".toList = groups "['a']".toList ∧
      groups "[]['a']".toList = groups "['a']".toList ∧
      ']' ∉ "c".toList ∧ groups "[c".toList = [] ∧
      "[b".toList ≠ [] ∧ ']' ∉ "[b".toList ∧
      groups "[[b]] [c".toList = "[b".toList :: groups "] [c".toList := by
  obtain ⟨hparse, -, hgap, hempty, hunclosed, hgroup⟩ := parse_eq_iff_leftmostGroups
  have hspace : '[' ∉ " x]".toList := by decide
  have hopen : ']' ∉ "c".toList := by decide
  have hne : "[b".toList ≠ [] := by decide
  have hinner : ']' ∉ "[b".toList := by decide
  exact ⟨(hparse "root x]['a'][][[b]] [c" _).1 (by decide), hspace,
    hgap " x]".toList "['a']".toList hspace, hempty "['a']".toList, hopen, hunclosed _ hopen, hne,
    hinner, hgroup "[b".toList "] [c".toList hne hinner⟩

end JsonDelta.Accessor
