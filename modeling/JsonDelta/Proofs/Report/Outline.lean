import JsonDelta.Proofs.Report.Lines
/-!
Nested reports, line by line. A tree is read in preorder: the records of a node, and then each
child, its key first. Main statement: without color the lines of a nested report are the keys and
records of the tree in this order, each of them once. A record has a line of its own, as deep as
there are lines of keys above it, and a line of keys goes down a chain of nodes that hold nothing
but one child to the first node that does not.
-/

namespace JsonDelta.Report

/-- What a report shows of a tree: a key, with the node to which it leads, or a record. -/
inductive Mark where
  | key (name : String) (child : Tree)
  | record (leaf : Leaf)

def Mark.text : Mark → String
  | key name _ => name
  | record leaf => leaf.text

namespace Tree

/-- The tree holds nothing but one child. -/
def isLink : Tree → Bool
  | .node [] [_] => true
  | _ => false

mutual

/-- The keys and records of a tree in preorder. Each has its way, the nodes below the root down to
the one that holds it. -/
def preorder (way : List Tree) : Tree → List (List Tree × Mark)
  | .node leaves children =>
    leaves.map (fun leaf => (way, .record leaf)) ++ childPreorder way children

def childPreorder (way : List Tree) : List (String × Tree) → List (List Tree × Mark)
  | [] => []
  | (key, child) :: rest =>
    (way, .key key child) :: child.preorder (way ++ [child]) ++ childPreorder way rest

end

end Tree

/-- The lines of keys on a way: one for each node that is no link, because a chain of links is on
the line of the node to which it leads. -/
def keyLines (way : List Tree) : Nat := way.countP fun node => !node.isLink

/-- The keys of nodes that follow each other on a way. -/
def chainMarks (way : List Tree) : List (String × Tree) → List (List Tree × Mark)
  | [] => []
  | (key, child) :: rest => (way, .key key child) :: chainMarks (way ++ [child]) rest

/-- A line of a nested report: the keys of some nodes, each the child of the one before, or a
record. -/
inductive Line where
  | keys (way : List Tree) (chain : List (String × Tree))
  | record (way : List Tree) (leaf : Leaf)

namespace Line

def text : Line → String
  | keys way chain =>
    "  " ++ indentation (keyLines way) ++ String.join (chain.map fun c => keyText c.1)
  | record way leaf => leaf.tag.leader ++ indentation (keyLines way) ++ leaf.text

def marks : Line → List (List Tree × Mark)
  | keys way chain => chainMarks way chain
  | record way leaf => [(way, .record leaf)]

/-- A line of keys goes on behind links, and behind nothing else. -/
def Whole : Line → Prop
  | keys _ chain => ∃ links last, chain = links ++ [last] ∧
      (∀ link ∈ links, link.2.isLink = true) ∧ last.2.isLink = false
  | record .. => True

end Line

variable {way : List Tree} {links chain : List (String × Tree)} {last : String × Tree}

theorem chainMarks_append (way : List Tree) (chain others : List (String × Tree)) :
    chainMarks way (chain ++ others) =
      chainMarks way chain ++ chainMarks (way ++ chain.map Prod.snd) others := by
  induction chain generalizing way with
  | nil => rw [List.nil_append, List.map_nil, List.append_nil, chainMarks, List.nil_append]
  | cons c chain ih =>
      obtain ⟨key, child⟩ := c
      rw [List.cons_append, chainMarks, chainMarks, ih, List.map_cons, List.append_assoc]
      rfl

theorem keyLines_append (way others : List Tree) :
    keyLines (way ++ others) = keyLines way + keyLines others := List.countP_append

theorem keyLines_links (h : ∀ link ∈ links, link.2.isLink = true) :
    keyLines (links.map Prod.snd) = 0 := by
  rw [keyLines, List.countP_eq_zero]
  intro node hnode
  obtain ⟨link, hlink, rfl⟩ := List.mem_map.1 hnode
  simp [h link hlink]

/-- A whole line of keys is one line on the way to what is below. -/
theorem keyLines_chain (way : List Tree) (hlinks : ∀ link ∈ links, link.2.isLink = true)
    (hlast : last.2.isLink = false) :
    keyLines (way ++ (links ++ [last]).map Prod.snd) = keyLines way + 1 := by
  rw [List.map_append, keyLines_append, keyLines_append, keyLines_links hlinks, Nat.zero_add,
    List.map_singleton]
  simp [keyLines, hlast]

theorem text_keys_concat (way : List Tree) (chain : List (String × Tree)) (key : String)
    (child : Tree) :
    (Line.keys way (chain ++ [(key, child)])).text = (Line.keys way chain).text ++ keyText key := by
  apply String.toList_inj.1
  simp [Line.text]

/-- The lines display the marks: some whole lines, which hold the marks in their order. -/
def Displays (lines : List String) (marks : List (List Tree × Mark)) : Prop :=
  ∃ display : List Line, lines = display.map Line.text ∧ display.flatMap Line.marks = marks ∧
    ∀ line ∈ display, line.Whole

namespace Displays

variable {lines others : List String} {marks otherMarks : List (List Tree × Mark)}

theorem nil : Displays [] [] := ⟨[], rfl, rfl, nofun⟩

theorem append (h : Displays lines marks) (h' : Displays others otherMarks) :
    Displays (lines ++ others) (marks ++ otherMarks) := by
  obtain ⟨display, rfl, rfl, hwhole⟩ := h
  obtain ⟨display', rfl, rfl, hwhole'⟩ := h'
  exact ⟨display ++ display', List.map_append.symm, List.flatMap_append,
    List.forall_mem_append.2 ⟨hwhole, hwhole'⟩⟩

theorem keys (hlinks : ∀ link ∈ links, link.2.isLink = true) (hlast : last.2.isLink = false)
    (h : Displays lines marks) :
    Displays ((Line.keys way (links ++ [last])).text :: lines)
      (chainMarks way (links ++ [last]) ++ marks) := by
  obtain ⟨display, rfl, rfl, hwhole⟩ := h
  exact ⟨.keys way (links ++ [last]) :: display, rfl, rfl,
    List.forall_mem_cons.2 ⟨⟨links, last, rfl, hlinks, hlast⟩, hwhole⟩⟩

end Displays

namespace Tree

theorem keyLine_plain (line : String) (tree : Tree) : keyLine false line tree = line := by
  rw [keyLine.eq_def]
  split <;> rfl

theorem displays_leaves (way : List Tree) (leaves : List Leaf) :
    Displays (leaves.map (leafLine false (keyLines way)))
      (leaves.map fun leaf => (way, .record leaf)) := by
  refine ⟨leaves.map (.record way), ?_, ?_, ?_⟩
  · rw [List.map_map]
    rfl
  · rw [List.flatMap_map]
    exact List.map_eq_flatMap.symm
  · intro line hline
    obtain ⟨leaf, -, rfl⟩ := List.mem_map.1 hline
    trivial

/-- Where a chain of links ends, its keys are complete, and what the node holds is one level
deeper. -/
theorem displays_end (hlinks : ∀ link ∈ links, link.2.isLink = true) {key : String}
    {leaves : List Leaf} {children : List (String × Tree)}
    (hlast : (node leaves children).isLink = false)
    (h : ∀ way, Displays (childLines false (keyLines way) children) (childPreorder way children)) :
    let chain := links ++ [(key, node leaves children)]
    Displays
      (keyLine false (Line.keys way chain).text (.node leaves children) ::
        (leaves.map (leafLine false (keyLines way + 1)) ++
          childLines false (keyLines way + 1) children))
      (chainMarks way chain ++ (node leaves children).preorder (way ++ chain.map Prod.snd)) := by
  intro chain
  have hlevel : keyLines (way ++ chain.map Prod.snd) = keyLines way + 1 :=
    keyLines_chain way hlinks hlast
  rw [keyLine_plain, preorder, ← hlevel]
  exact .keys hlinks hlast ((displays_leaves _ leaves).append (h _))

mutual

theorem displays_lines (way : List Tree) :
    ∀ tree : Tree, Displays (tree.lines false (keyLines way)) (tree.preorder way)
  | .node leaves children => by
      rw [Tree.lines, preorder]
      exact (displays_leaves way leaves).append (displays_childLines children way)

theorem displays_childLines :
    ∀ (children : List (String × Tree)) (way : List Tree),
      Displays (childLines false (keyLines way) children) (childPreorder way children)
  | [], _ => by
      rw [childLines, childPreorder]
      exact .nil
  | (key, child) :: rest, way => by
      have hfirst : "  " ++ indentation (keyLines way) ++ keyText key =
          (Line.keys way [(key, child)]).text := by
        apply String.toList_inj.1
        simp [Line.text]
      rw [childLines, childPreorder, hfirst]
      exact (displays_chainLines way [] nofun key child).append (displays_childLines rest way)

/-- The chain goes on as long as it comes to links. -/
theorem displays_chainLines (way : List Tree) (links : List (String × Tree))
    (hlinks : ∀ link ∈ links, link.2.isLink = true) (key : String) :
    ∀ tree : Tree,
      Displays (chainLines false (keyLines way) (Line.keys way (links ++ [(key, tree)])).text tree)
        (chainMarks way (links ++ [(key, tree)]) ++
          tree.preorder (way ++ (links ++ [(key, tree)]).map Prod.snd))
  | .node [] [(next, child)] => by
      have hlonger : ∀ link ∈ links ++ [(key, node [] [(next, child)])], link.2.isLink = true :=
        List.forall_mem_append.2 ⟨hlinks, List.forall_mem_singleton.2 rfl⟩
      have hnext := displays_chainLines way _ hlonger next child
      rw [chainMarks_append, text_keys_concat] at hnext
      rw [chainLines, preorder, childPreorder, childPreorder]
      simpa [chainMarks] using hnext
  | .node [] [] => displays_end hlinks rfl (displays_childLines [])
  | .node [] (c :: c' :: rest) => displays_end hlinks rfl (displays_childLines (c :: c' :: rest))
  | .node (leaf :: leaves) children => displays_end hlinks rfl (displays_childLines children)

end

end Tree

/-! Line breaks. -/

theorem not_mem_indentation (level : Nat) : '\n' ∉ (indentation level).toList := by
  simp [indentation, String.toList_join]

theorem leader_ne_empty (tag : ChangeTag) : tag.leader ≠ "" := by
  cases tag <;> decide

theorem Line.text_ne_empty (line : Line) : line.text ≠ "" := by
  cases line with
  | keys => simp [Line.text]
  | record way leaf => simp [Line.text, leader_ne_empty]

theorem mem_chainMarks {key : String} {node : Tree} (h : (key, node) ∈ chain) (way : List Tree) :
    ∃ above, (above, Mark.key key node) ∈ chainMarks way chain := by
  induction chain generalizing way with
  | nil => cases h
  | cons c chain ih =>
      rcases List.mem_cons.1 h with rfl | h
      · exact ⟨way, List.mem_cons_self⟩
      · obtain ⟨above, hmem⟩ := ih h (way ++ [c.2])
        exact ⟨above, List.mem_cons_of_mem _ hmem⟩

theorem Line.not_mem_text {line : Line} (h : ∀ mark ∈ line.marks, '\n' ∉ mark.2.text.toList) :
    '\n' ∉ line.text.toList := by
  cases line with
  | record way leaf =>
      have hleaf : '\n' ∉ leaf.text.toList := h _ List.mem_cons_self
      simp [Line.text, not_mem_leader, not_mem_indentation, hleaf]
  | keys way chain =>
      have hkeys : ∀ key node, (key, node) ∈ chain → '\n' ∉ key.toList := by
        intro key node hmem
        obtain ⟨above, hmark⟩ := mem_chainMarks hmem way
        exact h _ hmark
      simpa [Line.text, keyText, not_mem_indentation, String.toList_join] using hkeys

/-- Without color the lines of a nested report, and its note, are whole lines that hold the keys and
records of the tree in preorder, as long as none of them has a line break. -/
theorem splitLines_renderNested (options : RenderOptions) (hcolor : options.color = false)
    {note : String} (hnote : '\n' ∉ note.toList) (tree : Tree)
    (htree : ∀ mark ∈ tree.preorder [], '\n' ∉ mark.2.text.toList) :
    ∃ display : List Line,
      splitLines (renderNested options note tree) = display.map Line.text ++ noteLines note ∧
        display.flatMap Line.marks = tree.preorder [] ∧ ∀ line ∈ display, line.Whole := by
  obtain ⟨display, hlines, hmarks, hwhole⟩ := Tree.displays_lines [] tree
  refine ⟨display, ?_, hmarks, hwhole⟩
  have hdisplay : tree.lines options.color 0 = display.map Line.text := by
    rw [hcolor]
    exact hlines
  rw [renderNested, hdisplay]
  apply splitLines_withNote_of_not_mem _ hnote
  intro text htext
  obtain ⟨line, hline, rfl⟩ := List.mem_map.1 htext
  refine ⟨line.text_ne_empty, Line.not_mem_text fun mark hmark => htree mark ?_⟩
  rw [← hmarks]
  exact List.mem_flatMap.2 ⟨line, hline, hmark⟩

/-- A chain that ends at a node with a record and one child, an empty node, and a node with two
children. -/
theorem splitLines_renderNested_chains :
    let tree : Tree := .node []
      [("a", .node [] [("b", .node [⟨.removed, "5"⟩] [("c", .node [] [])])]),
        ("x]", .node [] [("y", .node [] []), ("z", .node [⟨.added, "[1]"⟩] [])])]
    (∀ mark ∈ tree.preorder [], '\n' ∉ mark.2.text.toList) ∧ '\n' ∉ "...(2 more items)".toList ∧
      ∃ display : List Line,
        display.map Line.text ++ ["...(2 more items)"] =
          ["  [a][b]", "-     5", "      [c]", "  [x]]", "      [y]", "      [z]", "+         [1]",
            "...(2 more items)"] ∧
        display.flatMap Line.marks = tree.preorder [] ∧ ∀ line ∈ display, line.Whole := by
  intro tree
  have htree : ∀ mark ∈ tree.preorder [], '\n' ∉ mark.2.text.toList := by decide
  have hnote : '\n' ∉ "...(2 more items)".toList := by decide
  obtain ⟨display, hlines, hdisplay⟩ := splitLines_renderNested {} rfl hnote tree htree
  refine ⟨htree, hnote, display, ?_, hdisplay⟩
  exact hlines.symm.trans (by decide)

end JsonDelta.Report
