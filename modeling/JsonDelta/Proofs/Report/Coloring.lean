import Mathlib.Data.List.Forall2
import JsonDelta.Proofs.Color
import JsonDelta.Proofs.Report.Flat
import JsonDelta.Proofs.Report.Locations
import JsonDelta.Proofs.Report.Outline
/-!
Reports in color. The lines of a report are compared in pairs, in color and without it: each pair
differs by the codes around a line at most, and nothing else of a line is an escape character as
long as no key holds one. Main statement: a report in color without its codes is the report without
color, in either layout and at every limit.
-/

namespace JsonDelta

open Color

namespace Report

/-! Lines. -/

/-- The line without color and the line in color, which may have been left plain. -/
structure Painted (colored plain : String) : Prop where
  ne_empty : plain ≠ ""
  bare : Bare plain
  paint : ∃ color : Color, colored = color.paint true plain

variable {colored plain : String} {lines others : List String}

theorem Painted.fadesTo (h : Painted colored plain) : FadesTo colored plain := by
  obtain ⟨color, rfl⟩ := h.paint
  exact .paint color h.bare

theorem Painted.colored_ne_empty (h : Painted colored plain) : colored ≠ "" := by
  obtain ⟨color, rfl⟩ := h.paint
  exact Color.paint_ne_empty true color h.ne_empty

/-- As no line is empty, a break comes before a line in one run if it does in the other. -/
theorem fadesTo_joinLines_reverse (h : List.Forall₂ Painted lines others) :
    FadesTo (joinLines lines.reverse) (joinLines others.reverse) ∧
      (joinLines lines.reverse = "" ↔ joinLines others.reverse = "") := by
  induction h with
  | nil => exact ⟨.of_bare (by decide), Iff.rfl⟩
  | @cons line other before before' hline _ ih =>
      obtain ⟨hfades, hempty⟩ := ih
      rw [List.reverse_cons, List.reverse_cons, joinLines_concat, joinLines_concat]
      by_cases hfirst : joinLines before.reverse = ""
      · rw [if_pos hfirst, if_pos (hempty.1 hfirst)]
        exact ⟨hline.fadesTo, iff_of_false hline.colored_ne_empty hline.ne_empty⟩
      · have hbreak : Bare "\n" := by decide
        rw [if_neg hfirst, if_neg (mt hempty.2 hfirst)]
        exact ⟨(hfades.append (.of_bare hbreak)).append hline.fadesTo, by simp⟩

theorem fadesTo_joinLines (h : List.Forall₂ Painted lines others) :
    FadesTo (joinLines lines) (joinLines others) := by
  simpa using (fadesTo_joinLines_reverse (List.forall₂_reverse_iff.2 h)).1

theorem fadesTo_withNote {note : String} (h : List.Forall₂ Painted lines others)
    (hnote : Bare note) : FadesTo (withNote lines note) (withNote others note) := by
  rw [withNote_eq, withNote_eq]
  refine fadesTo_joinLines (List.rel_append h ?_)
  unfold noteLines
  split
  · exact .nil
  · exact .cons ⟨‹_›, hnote, .plain, rfl⟩ .nil

/-! Trees. -/

namespace Tree

/-- A property of all keys and of the texts of all records. -/
inductive EveryText (p : String → Prop) : Tree → Prop
  | node {leaves : List Leaf} {children : List (String × Tree)}
      (hleaves : ∀ leaf ∈ leaves, p leaf.text) (hkeys : ∀ child ∈ children, p child.1)
      (hchildren : ∀ child ∈ children, EveryText p child.2) : EveryText p (.node leaves children)

namespace EveryText

variable {p : String → Prop} {tree : Tree} {change : Tree → Tree} {key : String}
  {keys : List String} {leaf : Leaf} {children : List (String × Tree)}

theorem empty : EveryText p Tree.empty := by
  refine .node ?_ ?_ ?_ <;> simp

theorem updateChild (hkey : p key) (hchange : ∀ tree, EveryText p tree → EveryText p (change tree))
    (h : ∀ child ∈ children, p child.1 ∧ EveryText p child.2) :
    ∀ child ∈ Tree.updateChild key change children, p child.1 ∧ EveryText p child.2 := by
  induction children with
  | nil => exact List.forall_mem_singleton.2 ⟨hkey, hchange _ empty⟩
  | cons c rest ih =>
      obtain ⟨hc, hrest⟩ := List.forall_mem_cons.1 h
      rw [Tree.updateChild]
      split
      · exact List.forall_mem_cons.2 ⟨⟨hc.1, hchange _ hc.2⟩, hrest⟩
      · exact List.forall_mem_cons.2 ⟨hc, ih hrest⟩

theorem update (hkeys : ∀ key ∈ keys, p key)
    (hchange : ∀ tree, EveryText p tree → EveryText p (change tree)) (h : EveryText p tree) :
    EveryText p (Tree.update keys change tree) := by
  induction keys generalizing tree with
  | nil => exact hchange tree h
  | cons key keys ih =>
      obtain ⟨hkey, hkeys⟩ := List.forall_mem_cons.1 hkeys
      obtain ⟨hleaves, hnames, hchildren⟩ := h
      have hupdated := updateChild hkey (fun _ => ih hkeys) fun child hchild =>
        ⟨hnames child hchild, hchildren child hchild⟩
      exact .node hleaves (fun child hchild => (hupdated child hchild).1)
        fun child hchild => (hupdated child hchild).2

theorem addLeaf (hkeys : ∀ key ∈ keys, p key) (hleaf : p leaf.text) (h : EveryText p tree) :
    EveryText p (tree.addLeaf keys leaf) := by
  refine update hkeys (fun node hnode => ?_) h
  obtain ⟨hleaves, hnames, hchildren⟩ := hnode
  have hall := List.forall_mem_append.2 ⟨hleaves, List.forall_mem_singleton.2 hleaf⟩
  exact .node hall hnames hchildren

theorem nest {limit : Nat} {entries : List Entry}
    (hkeys : ∀ entry ∈ entries, ∀ key ∈ entry.walk, p key)
    (hpreviews : ∀ entry ∈ entries, p (entry.value.preview limit)) :
    EveryText p (Report.nest limit entries) := by
  have hgrow (tree : Tree) (h : EveryText p tree) : EveryText p
      (entries.foldl (fun tree entry => tree.addLeaf entry.walk (entry.leaf limit)) tree) := by
    induction entries generalizing tree with
    | nil => exact h
    | cons entry entries ih =>
        obtain ⟨hkey, hkeys⟩ := List.forall_mem_cons.1 hkeys
        obtain ⟨hpreview, hpreviews⟩ := List.forall_mem_cons.1 hpreviews
        exact ih hkeys hpreviews _ (h.addLeaf hkey hpreview)
  exact hgrow _ empty

end EveryText

end Tree

@[simp] theorem bare_leader (tag : ChangeTag) : Bare tag.leader := by
  cases tag <;> decide

@[simp] theorem bare_indentation (level : Nat) : Bare (indentation level) := by
  simp [Bare, indentation, String.toList_join]

theorem bare_keyText {key : String} (h : Bare key) : Bare (keyText key) := by
  simpa [Bare, keyText] using h

namespace Tree

theorem painted_leaves (level : Nat) {leaves : List Leaf} (h : ∀ leaf ∈ leaves, Bare leaf.text) :
    List.Forall₂ Painted (leaves.map (leafLine true level))
      (leaves.map (leafLine false level)) := by
  rw [List.forall₂_map_left_iff, List.forall₂_map_right_iff, List.forall₂_same]
  intro leaf hleaf
  refine ⟨?_, ?_, leaf.tag.color, rfl⟩
  · show leaf.tag.leader ++ indentation level ++ leaf.text ≠ ""
    simp [leader_ne_empty]
  · show Bare (leaf.tag.leader ++ indentation level ++ leaf.text)
    simp [h leaf hleaf]

theorem painted_keyLine {line : String} (hne : line ≠ "") (h : Bare line) (tree : Tree) :
    Painted (keyLine true line tree) (keyLine false line tree) := by
  rw [keyLine.eq_def, keyLine.eq_def]
  split
  · exact ⟨hne, h, _, rfl⟩
  · exact ⟨hne, h, .plain, rfl⟩

/-- Where a chain of keys ends, its line may take a color, and what the node holds comes below. -/
theorem painted_end {level : Nat} {line : String} (hne : line ≠ "") (hline : Bare line)
    {leaves : List Leaf} {children : List (String × Tree)}
    (hleaves : ∀ leaf ∈ leaves, Bare leaf.text)
    (hbelow : List.Forall₂ Painted (childLines true level children)
      (childLines false level children)) :
    List.Forall₂ Painted
      (keyLine true line (.node leaves children) ::
        (leaves.map (leafLine true level) ++ childLines true level children))
      (keyLine false line (.node leaves children) ::
        (leaves.map (leafLine false level) ++ childLines false level children)) :=
  .cons (painted_keyLine hne hline _) (List.rel_append (painted_leaves level hleaves) hbelow)

mutual

theorem painted_lines (level : Nat) : ∀ tree : Tree, EveryText Bare tree →
    List.Forall₂ Painted (tree.lines true level) (tree.lines false level)
  | .node leaves children, .node hleaves hkeys hchildren => by
      rw [Tree.lines, Tree.lines]
      exact List.rel_append (painted_leaves level hleaves)
        (painted_childLines level children hkeys hchildren)

theorem painted_childLines (level : Nat) : ∀ children : List (String × Tree),
    (∀ child ∈ children, Bare child.1) → (∀ child ∈ children, EveryText Bare child.2) →
      List.Forall₂ Painted (childLines true level children) (childLines false level children)
  | [], _, _ => by
      rw [childLines, childLines]
      exact .nil
  | (key, child) :: rest, hkeys, hchildren => by
      obtain ⟨hkey, hkeys⟩ := List.forall_mem_cons.1 hkeys
      obtain ⟨hchild, hchildren⟩ := List.forall_mem_cons.1 hchildren
      have hline : Bare ("  " ++ indentation level ++ keyText key) :=
        bare_append.2 ⟨bare_append.2 ⟨by decide, bare_indentation level⟩, bare_keyText hkey⟩
      rw [childLines, childLines]
      exact List.rel_append (painted_chainLines level (by simp) hline child hchild)
        (painted_childLines level rest hkeys hchildren)

/-- The keys so far are the same in both runs: a line takes its color when its chain is complete. -/
theorem painted_chainLines (level : Nat) {line : String} (hne : line ≠ "") (hline : Bare line) :
    ∀ tree : Tree, EveryText Bare tree →
      List.Forall₂ Painted (chainLines true level line tree) (chainLines false level line tree)
  | .node [] [(key, child)], .node _ hkeys hchildren => by
      obtain ⟨hkey, -⟩ := List.forall_mem_cons.1 hkeys
      obtain ⟨hchild, -⟩ := List.forall_mem_cons.1 hchildren
      have hlonger : Bare (line ++ keyText key) := bare_append.2 ⟨hline, bare_keyText hkey⟩
      rw [chainLines, chainLines]
      exact painted_chainLines level (by simp [hne]) hlonger child hchild
  | .node [] [], .node hleaves hkeys hchildren =>
      painted_end hne hline hleaves (painted_childLines (level + 1) [] hkeys hchildren)
  | .node [] (c :: c' :: rest), .node hleaves hkeys hchildren =>
      painted_end hne hline hleaves
        (painted_childLines (level + 1) (c :: c' :: rest) hkeys hchildren)
  | .node (leaf :: leaves) children, .node hleaves hkeys hchildren =>
      painted_end hne hline hleaves (painted_childLines (level + 1) children hkeys hchildren)

end

end Tree

/-! Entries. Of all that a record shows only the keys of its path are not escaped. -/

/-- No key of the path holds an escape character. -/
def BareKeys (path : Path) : Prop := ∀ name, .key name ∈ path → Bare name

section Entries

variable {path : Path} {s : Segment} {entry : Entry}

theorem bare_text (h : BareKeys path) (hs : s ∈ path) : Bare s.text := by
  cases s with
  | key name => exact h name hs
  | index n => exact bare_of_printable (Decimal.printable_intText n)

theorem bare_segmentAccessor (h : BareKeys path) (hs : s ∈ path) : Bare s.accessor := by
  cases s with
  | key name =>
      have hname : Bare name := h name hs
      rw [Bare] at hname ⊢
      by_cases hquote : '\'' ∈ name.toList
      · simp [Segment.accessor, hquote, hname]
      · simp [Segment.accessor, hquote, hname]
  | index n =>
      have hindex : Bare (Decimal.intText n) := bare_of_printable (Decimal.printable_intText n)
      rw [Bare] at hindex ⊢
      simp [Segment.accessor, hindex]

theorem bare_accessor (h : BareKeys path) : Bare path.accessor := by
  rw [Bare, Path.accessor, String.toList_join, List.mem_flatMap]
  rintro ⟨text, htext, hmem⟩
  obtain ⟨s, hs, rfl⟩ := List.mem_map.1 htext
  exact bare_segmentAccessor h hs hmem

theorem bare_walk (h : BareKeys entry.path) : ∀ key ∈ entry.walk, Bare key := by
  unfold Entry.walk
  split
  · exact List.forall_mem_singleton.2 (by decide)
  · exact List.forall_mem_map.2 fun s hs => bare_text h hs

theorem bare_preview (limit : Nat) (d : Document) : Bare (d.preview limit) :=
  bare_of_printable (d.printable_preview limit)

theorem painted_entryLine (options : RenderOptions) (h : BareKeys entry.path) :
    Painted (entryLine { options with color := true } entry)
      (entryLine { options with color := false } entry) where
  ne_empty := entryLine_ne_empty _ entry
  bare := by
    show Bare (entry.tag.leader ++ entry.path.accessor ++ ": " ++
      entry.value.preview options.lengthLimit)
    have hcolon : Bare ": " := by decide
    simp [bare_accessor h, bare_preview, hcolon]
  paint := ⟨entry.tag.color, rfl⟩

end Entries

/-! Reports. -/

/-- The code of a tag's color: green, red or yellow. -/
def tagCode : ChangeTag → String
  | .added => "\x1b[32m"
  | .removed => "\x1b[31m"
  | .moved => "\x1b[33m"

theorem entryLine_colored (options : RenderOptions) (entry : Entry) :
    entryLine { options with color := true } entry =
      tagCode entry.tag ++ entryLine { options with color := false } entry ++ "\x1b[0m" := by
  rw [entryLine, entryLine]
  cases entry.tag <;> rfl

theorem bare_leftOutNote (k : Nat) : Bare (Listing.leftOutNote k) := by
  unfold Listing.leftOutNote
  split
  · decide
  · have hcount : Bare (Decimal.natText k) := bare_of_printable (Decimal.printable_natText k)
    have hfront : Bare "...(" := by decide
    have hback : Bare " more items)" := by decide
    simp [hcount, hfront, hback]

theorem fadesTo_render (layout : Layout) (options : RenderOptions) {listing : Listing}
    (hkeys : ∀ entry ∈ listing.entries, BareKeys entry.path) (hnote : Bare listing.note) :
    FadesTo (render layout { options with color := true } listing)
      (render layout { options with color := false } listing) := by
  cases layout with
  | nested =>
      have htree : (nest options.lengthLimit listing.entries).EveryText Bare :=
        .nest (fun entry hentry => bare_walk (hkeys entry hentry))
          fun entry _ => bare_preview _ entry.value
      exact fadesTo_withNote (Tree.painted_lines 0 _ htree) hnote
  | flat =>
      refine fadesTo_withNote ?_ hnote
      rw [List.forall₂_map_left_iff, List.forall₂_map_right_iff, List.forall₂_same]
      exact fun entry hentry => painted_entryLine options (hkeys entry hentry)

/-- Color adds codes to a report and nothing else. In the flat layout the text of each record in
color is its text without color, between the code of its tag and the reset. -/
theorem uncolored_format (set : ChangeSet)
    (hkeys : ∀ place ∈ set.places, ∀ name, .key name ∈ place.path → '\x1b' ∉ name.toList)
    (limit : Nat) (options : RenderOptions) :
    let shown := Listing.flatten set limit
    let colored := { options with color := true }
    let plain := { options with color := false }
    (∀ layout, uncolored (format set limit colored layout) = format set limit plain layout) ∧
      format set limit plain .flat =
        withNote (shown.entries.map fun entry => entryLine plain entry) shown.note ∧
      format set limit colored .flat =
        withNote (shown.entries.map fun entry =>
          tagCode entry.tag ++ entryLine plain entry ++ "\x1b[0m") shown.note := by
  intro shown colored plain
  have hshown : ∀ entry ∈ shown.entries, BareKeys entry.path := by
    intro entry hentry
    obtain ⟨place, hplace, hpath⟩ := Listing.exists_place_of_mem_entriesOf
      (Listing.mem_entriesOf_of_mem_flatten hentry)
    rw [hpath]
    exact hkeys place hplace
  have hnote : Bare shown.note := by
    obtain ⟨k, hk, -⟩ := Listing.flatten_accounts set limit
    rw [hk]
    exact bare_leftOutNote k
  refine ⟨fun layout => (fadesTo_render layout options hshown hnote).uncolored_eq, rfl, ?_⟩
  rw [← funext (entryLine_colored options)]
  rfl

/-- The value holds a code, which is escaped and stays. -/
theorem uncolored_format_escaped_value :
    let place := Location.root.key "a"
    let set : ChangeSet :=
      { keyAdded := [⟨place.key "b", .string "\x1b[0m"⟩], keyRemoved := [⟨place.key "c", .null⟩] }
    (∀ place ∈ set.places, ∀ name, .key name ∈ place.path → '\x1b' ∉ name.toList) ∧
      uncolored (format set 1 { color := true } .nested) =
        "  [a][b]\n+     \"\\u001b[0m\"\n...(1 more items)" ∧
      format set 1 { color := true } .nested =
        "\x1b[32m  [a][b]\x1b[0m\n\x1b[32m+     \"\\u001b[0m\"\x1b[0m\n...(1 more items)" ∧
      format set 0 { color := true } .flat =
        "\x1b[32m+ ['a']['b']: \"\\u001b[0m\"\x1b[0m\n\x1b[31m- ['a']['c']: null\x1b[0m" := by
  intro place set
  have hkeys : ∀ place ∈ set.places, ∀ name, .key name ∈ place.path → '\x1b' ∉ name.toList := by
    simp [set, place, ChangeSet.places, Location.root, Location.key, Location.child, Path.child]
  obtain ⟨hlayouts, -, -⟩ := uncolored_format set hkeys 1 {}
  obtain ⟨-, -, hflat⟩ := uncolored_format set hkeys 0 {}
  refine ⟨hkeys, (hlayouts .nested).trans ?_, ?_, hflat.trans ?_⟩
  · decide
  · decide
  · decide

end Report

end JsonDelta
