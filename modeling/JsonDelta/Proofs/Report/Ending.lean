import JsonDelta.Proofs.Report.Flat
import JsonDelta.Proofs.Report.Outline
import JsonDelta.Proofs.Report.Render
/-!
Where a report ends. Its last line is the note or the line of an entry, because every node of a
report tree has a record at it or below it, and neither of them ends with a line break. Main
statement: a report of some entries is not empty and does not end with a line break, whatever line
breaks its keys have.
-/

namespace JsonDelta.Report

/-- The text is not empty, and its last character is no line break. -/
def EndsInLine (text : String) : Prop := ∃ c, text.toList.getLast? = some c ∧ c ≠ '\n'

namespace EndsInLine

variable {text line note : String} {lines : List String}

theorem ne_empty (h : EndsInLine text) : text ≠ "" := by
  obtain ⟨c, hc, -⟩ := h
  rintro rfl
  cases hc

theorem of_not_mem (hne : text ≠ "") (h : '\n' ∉ text.toList) : EndsInLine text := by
  have hlist : text.toList ≠ [] := mt String.toList_eq_nil_iff.1 hne
  refine ⟨_, List.getLast?_eq_some_getLast hlist, fun heq => h ?_⟩
  rw [← heq]
  exact List.getLast_mem hlist

theorem append (h : EndsInLine text) (front : String) : EndsInLine (front ++ text) := by
  obtain ⟨c, hc, hne⟩ := h
  exact ⟨c, by simp [List.getLast?_append, hc], hne⟩

theorem paint (h : EndsInLine text) (enabled : Bool) (color : Color) :
    EndsInLine (color.paint enabled text) := by
  have hreset : EndsInLine Color.reset := .of_not_mem (by decide) (by decide)
  cases enabled with
  | false => exact h
  | true =>
      cases color with
      | plain => exact h
      | red | green | yellow => exact hreset.append _

theorem joinLines_concat (h : EndsInLine line) (lines : List String) :
    EndsInLine (joinLines (lines ++ [line])) := by
  rw [Report.joinLines_concat]
  split
  · exact h
  · exact h.append _

theorem withNote (h : EndsInLine line) (lines : List String) (hnote : '\n' ∉ note.toList) :
    EndsInLine (withNote (lines ++ [line]) note) := by
  rw [withNote_eq, noteLines]
  split
  · rw [List.append_nil]
    exact h.joinLines_concat lines
  · exact joinLines_concat (.of_not_mem ‹_› hnote) _

end EndsInLine

/-! Entries. -/

theorem endsInLine_entryLine (options : RenderOptions) (entry : Entry) :
    EndsInLine (entryLine options entry) := by
  have hpreview : '\n' ∉ (": " ++ entry.value.preview options.lengthLimit).toList := by
    simp [Text.not_mem_of_printable (entry.value.printable_preview _)]
  have hend := EndsInLine.of_not_mem (by simp) hpreview
  rw [entryLine, String.append_assoc]
  exact (hend.append _).paint _ _

/-! Trees. -/

namespace Tree

/-- Every node has a record at it or below it. -/
inductive Bearing : Tree → Prop
  | node {leaves : List Leaf} {children : List (String × Tree)}
      (hne : leaves ≠ [] ∨ children ≠ []) (hchildren : ∀ child ∈ children, Bearing child.2) :
      Bearing (.node leaves children)

variable {tree : Tree} {change : Tree → Tree} {children : List (String × Tree)}

theorem Bearing.of_mem_children (h : tree.Bearing) : ∀ child ∈ tree.children, child.2.Bearing := by
  cases h with
  | node hne hchildren => exact hchildren

theorem bearing_below_empty : ∀ child ∈ Tree.empty.children, child.2.Bearing := by
  simp [Tree.empty, Tree.children]

theorem bearing_updateChild
    (hchange : ∀ tree, (∀ child ∈ tree.children, child.2.Bearing) → (change tree).Bearing)
    (key : String) (h : ∀ child ∈ children, child.2.Bearing) :
    ∀ child ∈ updateChild key change children, child.2.Bearing := by
  induction children with
  | nil => exact List.forall_mem_singleton.2 (hchange _ bearing_below_empty)
  | cons c rest ih =>
      obtain ⟨hc, hrest⟩ := List.forall_mem_cons.1 h
      rw [updateChild]
      split
      · exact List.forall_mem_cons.2 ⟨hchange _ hc.of_mem_children, hrest⟩
      · exact List.forall_mem_cons.2 ⟨hc, ih hrest⟩

theorem updateChild_ne_nil (key : String) (change : Tree → Tree) (children : List (String × Tree)) :
    updateChild key change children ≠ [] := by
  cases children with
  | nil => simp [updateChild]
  | cons c rest =>
      rw [updateChild]
      split <;> simp

/-- Only the root may have been empty before a record was added. -/
theorem bearing_addLeaf (h : ∀ child ∈ tree.children, child.2.Bearing) (keys : List String)
    (leaf : Leaf) : (tree.addLeaf keys leaf).Bearing := by
  induction keys generalizing tree with
  | nil => exact .node (.inl (by simp)) h
  | cons key keys ih =>
      obtain ⟨leaves, children⟩ := tree
      have hbelow := bearing_updateChild (fun _ => ih) key h
      exact .node (.inr (updateChild_ne_nil _ _ _)) hbelow

theorem bearing_nest {limit : Nat} {entries : List Entry} (h : entries ≠ []) :
    (nest limit entries).Bearing := by
  have hgrow (entries : List Entry) (tree : Tree) (htree : tree.Bearing) :
      (entries.foldl (fun tree entry => tree.addLeaf entry.walk (entry.leaf limit))
        tree).Bearing := by
    induction entries generalizing tree with
    | nil => exact htree
    | cons entry entries ih => exact ih _ (bearing_addLeaf htree.of_mem_children _ _)
  obtain ⟨entry, entries, rfl⟩ := List.exists_cons_of_ne_nil h
  exact hgrow entries _ (bearing_addLeaf bearing_below_empty _ _)

/-- The last one of the lines is that of a record. -/
def EndsInRecord (color : Bool) (records : List Leaf) (lines : List String) : Prop :=
  ∃ front level, ∃ leaf ∈ records, lines = front ++ [leafLine color level leaf]

section Lines

variable {color : Bool} {records : List Leaf} {lines : List String} {leaves : List Leaf}

theorem EndsInRecord.append (h : EndsInRecord color records lines) (before : List Leaf)
    (front : List String) : EndsInRecord color (before ++ records) (front ++ lines) := by
  obtain ⟨front', level, leaf, hleaf, rfl⟩ := h
  exact ⟨front ++ front', level, leaf, List.mem_append_right _ hleaf,
    (List.append_assoc ..).symm⟩

/-- A node ends with its last child, and without children with its own last record. -/
theorem endsInRecord_node (level : Nat) (hne : leaves ≠ [] ∨ children ≠ [])
    (hbelow : children ≠ [] →
      EndsInRecord color (childRecords children) (childLines color level children)) :
    EndsInRecord color (leaves ++ childRecords children)
      (leaves.map (leafLine color level) ++ childLines color level children) := by
  by_cases hchildren : children = []
  · obtain ⟨front, leaf, rfl⟩ := List.eq_nil_or_concat leaves |>.resolve_left
      (hne.resolve_right (not_not.2 hchildren))
    subst hchildren
    refine ⟨front.map (leafLine color level), level, leaf, by simp, ?_⟩
    simp [childLines]
  · exact (hbelow hchildren).append _ _

mutual

theorem endsInRecord_lines (level : Nat) : ∀ tree : Tree, tree.Bearing →
    EndsInRecord color tree.records (tree.lines color level)
  | .node leaves children, .node hne hchildren => by
      rw [records, Tree.lines]
      exact endsInRecord_node level hne (endsInRecord_childLines level children hchildren)

theorem endsInRecord_childLines (level : Nat) : ∀ children : List (String × Tree),
    (∀ child ∈ children, child.2.Bearing) → children ≠ [] →
      EndsInRecord color (childRecords children) (childLines color level children)
  | [], _, hne => absurd rfl hne
  | [(key, child)], hchildren, _ => by
      rw [childRecords, childRecords, childLines, childLines, List.append_nil, List.append_nil]
      exact endsInRecord_chainLines level _ child (hchildren _ List.mem_cons_self)
  | (key, child) :: next :: rest, hchildren, _ => by
      obtain ⟨-, hrest⟩ := List.forall_mem_cons.1 hchildren
      rw [childRecords, childLines]
      exact (endsInRecord_childLines level (next :: rest) hrest (by simp)).append _ _

theorem endsInRecord_chainLines (level : Nat) (line : String) : ∀ tree : Tree, tree.Bearing →
    EndsInRecord color tree.records (chainLines color level line tree)
  | .node [] [(key, child)], .node _ hchildren => by
      rw [records, childRecords, childRecords, chainLines, List.nil_append, List.append_nil]
      exact endsInRecord_chainLines level _ child (hchildren _ List.mem_cons_self)
  | .node [] [], .node hne hchildren => by
      exact (endsInRecord_node (level + 1) hne nofun).append [] [_]
  | .node [] (c :: c' :: rest), .node hne hchildren =>
      (endsInRecord_node (level + 1) hne
        (endsInRecord_childLines (level + 1) (c :: c' :: rest) hchildren)).append [] [_]
  | .node (leaf :: leaves) children, .node hne hchildren =>
      (endsInRecord_node (level + 1) hne
        (endsInRecord_childLines (level + 1) children hchildren)).append [] [_]

end

end Lines

end Tree

theorem endsInLine_leafLine (color : Bool) (level : Nat) {leaf : Leaf}
    (h : '\n' ∉ leaf.text.toList) : EndsInLine (Tree.leafLine color level leaf) := by
  refine EndsInLine.paint (.of_not_mem (by simp [leader_ne_empty]) ?_) color _
  simp [not_mem_leader, not_mem_indentation, h]

/-- A report of some entries ends in the line of an entry or in the note. -/
theorem endsInLine_render (layout : Layout) (options : RenderOptions) {listing : Listing}
    (h : listing.entries ≠ []) (hnote : '\n' ∉ listing.note.toList) :
    EndsInLine (render layout options listing) := by
  cases layout with
  | flat =>
      obtain ⟨entries, entry, hentries⟩ := (List.eq_nil_or_concat _).resolve_left h
      rw [render, renderFlat, hentries, List.concat_eq_append, List.map_append, List.map_singleton]
      exact (endsInLine_entryLine options entry).withNote _ hnote
  | nested =>
      have hbearing : (nest options.lengthLimit listing.entries).Bearing := Tree.bearing_nest h
      obtain ⟨front, level, leaf, hleaf, hlines⟩ : Tree.EndsInRecord options.color _ _ :=
        Tree.endsInRecord_lines 0 _ hbearing
      obtain ⟨entry, -, rfl⟩ := List.mem_map.1
        ((records_nest_perm options.lengthLimit listing.entries).mem_iff.1 hleaf)
      have htext : '\n' ∉ (entry.leaf options.lengthLimit).text.toList :=
        Text.not_mem_of_printable (entry.value.printable_preview _)
      rw [render, renderNested, hlines]
      exact (endsInLine_leafLine options.color level htext).withNote _ hnote

end JsonDelta.Report
