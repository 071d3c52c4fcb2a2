import Mathlib.Data.List.Induction
import Mathlib.Data.List.Nodup
import JsonDelta.Proofs.Report.Render
/-!
Report trees as groups. A record goes to the node at the end of its entry's walk, and no other node
sees it. Main statement: the node at the end of some keys holds the records of exactly the entries
that walk there, and has one child for each key with which other walks go on, in the order in which
these keys come up.
-/

namespace JsonDelta.Report

namespace Tree

variable {keys other : List String}

/-- The keys of the children. -/
def childKeys (tree : Tree) : List String := tree.children.map Prod.fst

/-! Reading a tree to which a record was added. -/

theorem addLeaf_cons (leaves : List Leaf) (children : List (String × Tree)) (key : String)
    (keys : List String) (leaf : Leaf) :
    (node leaves children).addLeaf (key :: keys) leaf =
      .node leaves (updateChild key (fun child => child.addLeaf keys leaf) children) := rfl

theorem find?_cons (tree : Tree) (key : String) (keys : List String) :
    tree.find? (key :: keys) = (tree.children.lookup key).bind fun child => child.find? keys := rfl

theorem getD_find?_empty (keys : List String) : (empty.find? keys).getD empty = empty := by
  cases keys <;> rfl

/-- On the way to the record, what is below a node grows by the rest of the way. -/
theorem find?_addLeaf_append (tree : Tree) (keys rest : List String) (leaf : Leaf) :
    (tree.addLeaf (keys ++ rest) leaf).find? keys =
      some (((tree.find? keys).getD empty).addLeaf rest leaf) := by
  induction keys generalizing tree with
  | nil => rfl
  | cons key keys ih =>
      obtain ⟨leaves, children⟩ := tree
      rw [List.cons_append, addLeaf_cons, find?_cons, find?_cons, Tree.children, Tree.children,
        lookup_updateChild, if_pos rfl, Option.bind_some, ih]
      cases children.lookup key with
      | none => rw [Option.getD_none, getD_find?_empty, Option.bind_none, Option.getD_none]
      | some child => rfl

theorem find?_addLeaf_elsewhere (tree : Tree) (h : ¬ other <+: keys) (leaf : Leaf) :
    (tree.addLeaf keys leaf).find? other = tree.find? other := by
  induction other generalizing tree keys with
  | nil => exact absurd List.nil_prefix h
  | cons key other ih =>
      obtain ⟨leaves, children⟩ := tree
      cases keys with
      | nil => rfl
      | cons first keys =>
          rw [addLeaf_cons, find?_cons, find?_cons, Tree.children, Tree.children,
            lookup_updateChild]
          by_cases hkey : key = first
          · subst hkey
            have hother : ¬ other <+: keys := fun hp => h (List.cons_prefix_cons.2 ⟨rfl, hp⟩)
            rw [if_pos rfl, Option.bind_some, ih _ hother]
            cases children.lookup key with
            | none =>
                -- A child that was made on the way has nothing at the end of other keys.
                cases other with
                | nil => exact absurd List.nil_prefix hother
                | cons => rfl
            | some child => rfl
          · rw [if_neg hkey]

/-! The node to which a record is added, or below which it is. -/

theorem leaves_addLeaf_nil (tree : Tree) (leaf : Leaf) :
    (tree.addLeaf [] leaf).leaves = tree.leaves ++ [leaf] := rfl

theorem childKeys_addLeaf_nil (tree : Tree) (leaf : Leaf) :
    (tree.addLeaf [] leaf).childKeys = tree.childKeys := rfl

theorem leaves_addLeaf_cons (tree : Tree) (key : String) (keys : List String) (leaf : Leaf) :
    (tree.addLeaf (key :: keys) leaf).leaves = tree.leaves := by
  obtain ⟨leaves, children⟩ := tree
  rfl

theorem map_fst_updateChild (key : String) (change : Tree → Tree)
    (children : List (String × Tree)) :
    (updateChild key change children).map Prod.fst =
      if key ∈ children.map Prod.fst then children.map Prod.fst
      else children.map Prod.fst ++ [key] := by
  induction children with
  | nil => rfl
  | cons c rest ih =>
      obtain ⟨k, child⟩ := c
      rw [updateChild]
      by_cases hk : k = key
      · simp [hk]
      · rw [if_neg hk, List.map_cons, ih, List.map_cons]
        by_cases hrest : key ∈ rest.map Prod.fst
        · rw [if_pos hrest, if_pos (List.mem_cons_of_mem _ hrest)]
        · rw [if_neg hrest, if_neg (by simp [Ne.symm hk, hrest])]
          rfl

/-- A key that is new stands behind the others. -/
theorem childKeys_addLeaf_cons (tree : Tree) (key : String) (keys : List String) (leaf : Leaf) :
    (tree.addLeaf (key :: keys) leaf).childKeys =
      if key ∈ tree.childKeys then tree.childKeys else tree.childKeys ++ [key] := by
  obtain ⟨leaves, children⟩ := tree
  exact map_fst_updateChild ..

end Tree

/-! The groups of some entries. -/

/-- The keys with which walks go on behind the given ones, in the order of the entries. -/
def nextKeys (keys : List String) (entries : List Entry) : List String :=
  (entries.filter fun entry => keys <+: entry.walk).filterMap fun entry => entry.walk[keys.length]?

/-- What the node at the end of some keys has: the records of the entries that walk there, and a
child for each key that comes next, in the order of first appearance. -/
structure Groups (limit : Nat) (entries : List Entry) (keys : List String) (node : Tree) :
    Prop where
  leaves : node.leaves = (entries.filter fun entry => entry.walk = keys).map (Entry.leaf limit)
  distinct : node.childKeys.Nodup
  inOrder : node.childKeys = (nextKeys keys entries).eraseDups

variable {limit : Nat} {entries : List Entry} {entry : Entry} {keys rest : List String}
  {node : Tree}

theorem nextKeys_concat (h : entry.walk = keys ++ rest) :
    nextKeys keys (entries ++ [entry]) = nextKeys keys entries ++ rest.head?.toList := by
  have hnext : entry.walk[keys.length]? = rest.head? := by
    rw [h, List.getElem?_append_right (Nat.le_refl _), Nat.sub_self, List.head?_eq_getElem?]
  have hprefix : keys <+: entry.walk := ⟨rest, h.symm⟩
  rw [nextKeys, List.filter_append, List.filterMap_append, nextKeys,
    List.filter_cons_of_pos (by simpa using hprefix), List.filter_nil, List.filterMap_cons, hnext]
  cases rest <;> rfl

theorem nextKeys_concat_elsewhere (h : ¬ keys <+: entry.walk) :
    nextKeys keys (entries ++ [entry]) = nextKeys keys entries := by
  rw [nextKeys, List.filter_append, List.filter_cons_of_neg (by simpa using h), List.filter_nil,
    List.append_nil, nextKeys]

theorem eraseDups_concat (names : List String) (name : String) :
    (names ++ [name]).eraseDups =
      if name ∈ names then names.eraseDups else names.eraseDups ++ [name] := by
  rw [List.eraseDups_append]
  by_cases h : name ∈ names
  · simp [h, List.removeAll]
  · simp [h, List.removeAll, List.eraseDups_cons]

namespace Groups

theorem empty (limit : Nat) (keys : List String) : Groups limit [] keys .empty :=
  ⟨rfl, List.nodup_nil, rfl⟩

/-- An entry that walks to the node. -/
theorem concat_here (h : Groups limit entries keys node) (hwalk : entry.walk = keys) :
    Groups limit (entries ++ [entry]) keys (node.addLeaf [] (entry.leaf limit)) := by
  have hnext : nextKeys keys (entries ++ [entry]) = nextKeys keys entries := by
    rw [nextKeys_concat (hwalk.trans (List.append_nil _).symm), List.head?_nil,
      Option.toList_none, List.append_nil]
  refine ⟨?_, ?_, ?_⟩
  · rw [Tree.leaves_addLeaf_nil, h.leaves, List.filter_append, List.map_append,
      List.filter_cons_of_pos (by simpa using hwalk), List.filter_nil, List.map_singleton]
  · rw [Tree.childKeys_addLeaf_nil]
    exact h.distinct
  · rw [Tree.childKeys_addLeaf_nil, hnext]
    exact h.inOrder

/-- An entry that walks to another node. -/
theorem leaves_concat (h : Groups limit entries keys node) (hwalk : entry.walk ≠ keys) :
    node.leaves =
      ((entries ++ [entry]).filter fun entry => entry.walk = keys).map (Entry.leaf limit) := by
  rw [h.leaves, List.filter_append, List.filter_cons_of_neg (by simpa using hwalk),
    List.filter_nil, List.append_nil]

theorem concat_below {key : String} (h : Groups limit entries keys node)
    (hwalk : entry.walk = keys ++ key :: rest) :
    Groups limit (entries ++ [entry]) keys (node.addLeaf (key :: rest) (entry.leaf limit)) := by
  have hne : entry.walk ≠ keys := by simp [hwalk]
  refine ⟨?_, ?_, ?_⟩
  · rw [Tree.leaves_addLeaf_cons]
    exact h.leaves_concat hne
  · rw [Tree.childKeys_addLeaf_cons]
    split
    · exact h.distinct
    · exact List.nodup_append_comm.1 (List.nodup_cons.2 ⟨‹_›, h.distinct⟩)
  · rw [Tree.childKeys_addLeaf_cons, nextKeys_concat hwalk, List.head?_cons, Option.toList_some,
      eraseDups_concat]
    simp only [h.inOrder, List.mem_eraseDups]

theorem concat_elsewhere (h : Groups limit entries keys node) (hwalk : ¬ keys <+: entry.walk) :
    Groups limit (entries ++ [entry]) keys node := by
  have hne : entry.walk ≠ keys := fun heq => hwalk (heq ▸ List.prefix_refl _)
  exact ⟨h.leaves_concat hne, h.distinct, by rw [nextKeys_concat_elsewhere hwalk, h.inOrder]⟩

end Groups

/-! The tree of some entries. -/

theorem nest_nil (limit : Nat) : nest limit [] = .empty := rfl

theorem nest_concat (limit : Nat) (entries : List Entry) (entry : Entry) :
    nest limit (entries ++ [entry]) =
      (nest limit entries).addLeaf entry.walk (entry.leaf limit) := by
  rw [nest, List.foldl_append]
  rfl

/-- Each further entry keeps the groups of all nodes; where no node is, no entry has walked. -/
theorem groups_nest (limit : Nat) (entries : List Entry) (keys : List String) :
    Groups limit entries keys (((nest limit entries).find? keys).getD .empty) := by
  induction entries using List.reverseRecOn with
  | nil =>
      rw [nest_nil, Tree.getD_find?_empty]
      exact .empty limit keys
  | append_singleton entries entry ih =>
      rw [nest_concat]
      by_cases h : keys <+: entry.walk
      · obtain ⟨rest, hrest⟩ := h
        rw [← hrest, Tree.find?_addLeaf_append, Option.getD_some]
        cases rest with
        | nil => exact ih.concat_here (by rw [← hrest, List.append_nil])
        | cons key rest => exact ih.concat_below hrest.symm
      · rw [Tree.find?_addLeaf_elsewhere _ h]
        exact ih.concat_elsewhere h

/-- There is a root without any entries. -/
theorem isSome_find?_nest (limit : Nat) (entries : List Entry) (keys : List String) :
    ((nest limit entries).find? keys).isSome = true ↔
      keys = [] ∨ ∃ entry ∈ entries, keys <+: entry.walk := by
  induction entries using List.reverseRecOn with
  | nil => cases keys <;> simp [nest_nil, Tree.find?, Tree.empty, Tree.children]
  | append_singleton entries entry ih =>
      rw [nest_concat]
      by_cases h : keys <+: entry.walk
      · have hentry : ∃ e ∈ entries ++ [entry], keys <+: e.walk := ⟨entry, by simp, h⟩
        obtain ⟨rest, hrest⟩ := h
        rw [← hrest, Tree.find?_addLeaf_append]
        exact iff_of_true rfl (.inr hentry)
      · rw [Tree.find?_addLeaf_elsewhere _ h, ih]
        simp [or_and_right, exists_or, h]

/-- Nodes are where walks lead or pass, every node has the group of its place, and there are as
many records as entries. -/
theorem find?_nest_and_groups (limit : Nat) (entries : List Entry) :
    let tree := nest limit entries
    (∀ keys, (tree.find? keys).isSome = true ↔
        keys = [] ∨ ∃ entry ∈ entries, keys <+: entry.walk) ∧
      (∀ keys node, tree.find? keys = some node → Groups limit entries keys node) ∧
      tree.records.length = entries.length := by
  intro tree
  refine ⟨isSome_find?_nest limit entries, fun keys node hnode => ?_, ?_⟩
  · have hgroups := groups_nest limit entries keys
    rwa [hnode] at hgroups
  · rw [(records_nest_perm limit entries).length_eq, List.length_map]

/-- Walks that repeat, that go on where others end, and that meet under the key `root`. -/
theorem find?_nest_and_groups_shared :
    let whole : Entry := ⟨[], .removed, .null⟩
    let root : Entry := ⟨[.key "root"], .added, .null⟩
    let list : Entry := ⟨[.key "a"], .removed, .null⟩
    let item : Entry := ⟨[.key "a", .index 1], .added, .null⟩
    let member : Entry := ⟨[.key "a", .key "0", .key "b"], .moved, .null⟩
    let entries := [item, whole, list, member, root, item]
    ∃ node, (nest 9 entries).find? ["a"] = some node ∧ node.childKeys = ["1", "0"] ∧
      node.leaves = [list.leaf 9] ∧ (nest 9 entries).records.length = 6 := by
  intro whole root list item member entries
  obtain ⟨hreached, hgroups, hlength⟩ := find?_nest_and_groups 9 entries
  have hwalk : ["a"] <+: list.walk := by decide
  obtain ⟨node, hnode⟩ := Option.isSome_iff_exists.1
    ((hreached ["a"]).2 (.inr ⟨list, by simp [entries], hwalk⟩))
  have hgroup := hgroups ["a"] node hnode
  refine ⟨node, hnode, ?_, ?_, hlength⟩
  · rw [hgroup.inOrder]
    decide
  · rw [hgroup.leaves]
    rfl

/-- A tree without entries has a root, though no walk starts there. -/
theorem isSome_find?_nest_without_entries :
    ¬ (((nest 9 []).find? []).isSome = true ↔ ∃ entry ∈ ([] : List Entry), [] <+: entry.walk) := by
  simp [nest_nil, Tree.find?]

end JsonDelta.Report
