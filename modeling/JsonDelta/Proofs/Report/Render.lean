import JsonDelta.Report.Render
import Mathlib.Data.List.Perm.Basic
/-!
Report trees and the lines of a report. The tree of some entries holds one record for each of them,
and each record has a line of its own. Main statement: in either layout the lines of a report are
those of its entries, one for each, and headings.
-/

namespace JsonDelta.Report

/-- Each of some things has a line of its own, and all other lines are headings. -/
def Shown {α : Type} (isLine : α → String → Prop) (isHeading : String → Prop) (things : List α)
    (lines : List String) : Prop :=
  ∃ own headings, lines.Perm (own ++ headings) ∧ List.Forall₂ isLine things own ∧
    ∀ line ∈ headings, isHeading line

namespace Shown

variable {α : Type} {isLine : α → String → Prop} {isHeading : String → Prop}
  {things things' : List α} {lines lines' : List String}

theorem append (h : Shown isLine isHeading things lines)
    (h' : Shown isLine isHeading things' lines') :
    Shown isLine isHeading (things ++ things') (lines ++ lines') := by
  obtain ⟨own, headings, hperm, hown, hheadings⟩ := h
  obtain ⟨own', headings', hperm', hown', hheadings'⟩ := h'
  refine ⟨own ++ own', headings ++ headings', ?_, List.rel_append hown hown', ?_⟩
  · refine (hperm.append hperm').trans ?_
    rw [List.append_assoc, List.append_assoc]
    exact (List.perm_append_comm_assoc headings own' headings').append_left own
  · exact fun line hmem => (List.mem_append.1 hmem).elim (hheadings line) (hheadings' line)

theorem heading {line : String} (hline : isHeading line)
    (h : Shown isLine isHeading things lines) : Shown isLine isHeading things (line :: lines) := by
  obtain ⟨own, headings, hperm, hown, hheadings⟩ := h
  refine ⟨own, line :: headings, (hperm.cons line).trans List.perm_middle.symm, hown, ?_⟩
  exact List.forall_mem_cons.2 ⟨hline, hheadings⟩

theorem perm (h : Shown isLine isHeading things lines) (hperm : things'.Perm things) :
    Shown isLine isHeading things' lines := by
  obtain ⟨own, headings, hlines, hown, hheadings⟩ := h
  obtain ⟨own', hown', hperm'⟩ := List.perm_comp_forall₂ hperm hown
  exact ⟨own', headings, hlines.trans (hperm'.symm.append_right headings), hown', hheadings⟩

theorem map {line : α → String} (h : ∀ thing, isLine thing (line thing)) (things : List α) :
    Shown isLine isHeading things (things.map line) := by
  refine ⟨things.map line, [], by rw [List.append_nil], ?_, nofun⟩
  rw [List.forall₂_map_right_iff, List.forall₂_same]
  exact fun thing _ => h thing

theorem nil : Shown isLine isHeading [] [] := ⟨[], [], .refl _, .nil, nofun⟩

end Shown

namespace Tree

mutual

/-- The records of all nodes, in the order of the tree. -/
def records : Tree → List Leaf
  | .node leaves children => leaves ++ childRecords children

def childRecords : List (String × Tree) → List Leaf
  | [] => []
  | (_, child) :: rest => child.records ++ childRecords rest

end

section Update

variable {change : Tree → Tree} {leaf : Leaf}

theorem childRecords_updateChild_perm
    (h : ∀ tree, (change tree).records.Perm (leaf :: tree.records)) (key : String)
    (children : List (String × Tree)) :
    (childRecords (updateChild key change children)).Perm (leaf :: childRecords children) := by
  induction children with
  | nil =>
      rw [updateChild, childRecords, childRecords, childRecords, List.append_nil]
      exact h empty
  | cons c rest ih =>
      obtain ⟨k, child⟩ := c
      rw [updateChild]
      split
      · exact (h child).append_right _
      · exact (ih.append_left _).trans List.perm_middle

/-- A change that adds a record to any node adds it to the whole tree. -/
theorem records_update_perm (h : ∀ tree, (change tree).records.Perm (leaf :: tree.records))
    (keys : List String) (tree : Tree) :
    (update keys change tree).records.Perm (leaf :: tree.records) := by
  induction keys generalizing tree with
  | nil => exact h tree
  | cons key keys ih =>
      obtain ⟨leaves, children⟩ := tree
      rw [update, records, records]
      exact ((childRecords_updateChild_perm ih key children).append_left _).trans List.perm_middle

theorem records_addLeaf_perm (tree : Tree) (keys : List String) (leaf : Leaf) :
    (tree.addLeaf keys leaf).records.Perm (leaf :: tree.records) := by
  refine records_update_perm (fun tree => ?_) keys tree
  obtain ⟨leaves, children⟩ := tree
  rw [Tree.leaves, Tree.children, records, records, List.append_assoc]
  exact List.perm_middle

end Update

/-- The line of a record stands at the depth of its node. -/
def IsLine (color : Bool) (leaf : Leaf) (line : String) : Prop :=
  ∃ level, line = leafLine color level leaf

/-- The bracketed keys of a chain of nodes, at the depth of the first one. -/
inductive IsChain : String → Prop
  | first (level : Nat) (key : String) : IsChain ("  " ++ indentation level ++ keyText key)
  | next {line : String} (h : IsChain line) (key : String) : IsChain (line ++ keyText key)

/-- A line of keys, which may have taken the color of a record. -/
def IsHeading (color : Bool) (line : String) : Prop :=
  ∃ keys, IsChain keys ∧ (line = keys ∨ ∃ tag : ChangeTag, line = tag.color.paint color keys)

section Lines

variable (color : Bool)

theorem isHeading_keyLine {line : String} (h : IsChain line) (tree : Tree) :
    IsHeading color (keyLine color line tree) := by
  refine ⟨line, h, ?_⟩
  rw [keyLine.eq_def]
  split
  · exact .inr ⟨_, rfl⟩
  · exact .inl rfl

theorem shown_leaves (level : Nat) (leaves : List Leaf) :
    Shown (IsLine color) (IsHeading color) leaves (leaves.map (leafLine color level)) :=
  .map (fun _ => ⟨level, rfl⟩) leaves

mutual

theorem shown_lines (level : Nat) :
    ∀ tree : Tree, Shown (IsLine color) (IsHeading color) tree.records (tree.lines color level)
  | .node leaves children => by
      rw [records, Tree.lines]
      exact (shown_leaves color level leaves).append (shown_childLines level children)

theorem shown_childLines (level : Nat) :
    ∀ children, Shown (IsLine color) (IsHeading color) (childRecords children)
      (childLines color level children)
  | [] => by
      rw [childRecords, childLines]
      exact .nil
  | (key, child) :: rest => by
      rw [childRecords, childLines]
      exact (shown_chainLines level (.first level key) child).append (shown_childLines level rest)

/-- The chain goes on as long as a node has one child and no record. -/
theorem shown_chainLines (level : Nat) {line : String} (h : IsChain line) :
    ∀ tree : Tree, Shown (IsLine color) (IsHeading color) tree.records
      (chainLines color level line tree)
  | .node [] [(key, child)] => by
      rw [records, childRecords, childRecords, chainLines, List.nil_append, List.append_nil]
      exact shown_chainLines level (h.next key) child
  | .node [] [] =>
      ((shown_leaves color _ []).append (shown_childLines _ [])).heading
        (isHeading_keyLine color h _)
  | .node [] (c :: c' :: rest) =>
      ((shown_leaves color _ []).append (shown_childLines _ (c :: c' :: rest))).heading
        (isHeading_keyLine color h _)
  | .node (leaf :: leaves) children =>
      ((shown_leaves color _ (leaf :: leaves)).append (shown_childLines _ children)).heading
        (isHeading_keyLine color h _)

end

end Lines

end Tree

/-- The record of an entry. -/
def Entry.leaf (limit : Nat) (entry : Entry) : Leaf := ⟨entry.tag, entry.value.preview limit⟩

theorem records_nest_perm (limit : Nat) (entries : List Entry) :
    (nest limit entries).records.Perm (entries.map (Entry.leaf limit)) := by
  -- The entries that are left come on top of what the tree already holds.
  have hgrow (tree : Tree) :
      (entries.foldl (fun tree entry => tree.addLeaf entry.walk (entry.leaf limit))
          tree).records.Perm (tree.records ++ entries.map (Entry.leaf limit)) := by
    induction entries generalizing tree with
    | nil => rw [List.foldl_nil, List.map_nil, List.append_nil]
    | cons entry entries ih =>
        rw [List.foldl_cons, List.map_cons]
        exact ((ih _).trans ((tree.records_addLeaf_perm _ _).append_right _)).trans
          List.perm_middle.symm
  exact hgrow .empty

/-- The line of an entry: that of its record, or of its own accessor in the flat layout. -/
def Entry.IsLine (layout : Layout) (options : RenderOptions) (entry : Entry) (line : String) :
    Prop :=
  match layout with
  | .nested => Tree.IsLine options.color (entry.leaf options.lengthLimit) line
  | .flat => line = entryLine options entry

/-- Only the nested layout has lines that belong to no entry. -/
def IsHeading (layout : Layout) (options : RenderOptions) (line : String) : Prop :=
  match layout with
  | .nested => Tree.IsHeading options.color line
  | .flat => False

/-- A rendered listing is some lines and its note, and the lines show exactly its entries. -/
theorem exists_render_eq (layout : Layout) (options : RenderOptions) (listing : Listing) :
    ∃ lines, render layout options listing = withNote lines listing.note ∧
      Shown (Entry.IsLine layout options) (IsHeading layout options) listing.entries lines := by
  cases layout with
  | nested =>
      refine ⟨_, rfl, ?_⟩
      obtain ⟨own, headings, hperm, hown, hheadings⟩ := (Tree.shown_lines options.color 0 _).perm
        (records_nest_perm options.lengthLimit listing.entries).symm
      rw [List.forall₂_map_left_iff] at hown
      exact ⟨own, headings, hperm, hown, hheadings⟩
  | flat =>
      have hline (entry : Entry) : entry.IsLine .flat options (entryLine options entry) := rfl
      exact ⟨_, rfl, .map hline listing.entries⟩

end JsonDelta.Report
