import Mathlib.Data.List.TakeWhile
import Mathlib.Tactic.MkIffOfInductiveProp
import JsonDelta.FileTree
import JsonDelta.Proofs.Document.Members
/-!
File trees as a file system holds them, and how a walk comes apart: what the first names of a path
lead to is where the rest of it starts.
-/

namespace JsonDelta

/-- What an entry of a directory can be called. -/
@[mk_iff] structure IsEntryName (name : String) : Prop where
  ne_empty : name ≠ ""
  ne_dot : name ≠ "."
  ne_up : name ≠ ".."
  slash_not_mem : '/' ∉ name.toList
  nul_not_mem : '\x00' ∉ name.toList

namespace FileTree

mutual

/-- The entries of every directory have names of their own. -/
def WellNamed : FileTree → Prop
  | directory entries => (entries.map Prod.fst).Nodup ∧ EntriesWellNamed entries
  | _ => True

def EntriesWellNamed : List (String × FileTree) → Prop
  | [] => True
  | (name, tree) :: rest => (IsEntryName name ∧ tree.WellNamed) ∧ EntriesWellNamed rest

end

theorem entriesWellNamed_iff {entries : List (String × FileTree)} :
    EntriesWellNamed entries ↔ ∀ e ∈ entries, IsEntryName e.1 ∧ e.2.WellNamed := by
  induction entries with
  | nil => simp [EntriesWellNamed]
  | cons e rest ih => simp [EntriesWellNamed, ih]

theorem wellNamed_directory {entries : List (String × FileTree)} :
    (directory entries).WellNamed ↔
      (entries.map Prod.fst).Nodup ∧ ∀ e ∈ entries, IsEntryName e.1 ∧ e.2.WellNamed := by
  rw [WellNamed, entriesWellNamed_iff]

theorem WellNamed.of_lookup {entries : List (String × FileTree)} {name : String} {tree : FileTree}
    (h : (directory entries).WellNamed) (hl : entries.lookup name = some tree) : tree.WellNamed :=
  ((wellNamed_directory.1 h).2 _ (Members.mem_of_lookup hl)).2

end FileTree

namespace FileSystem

variable {tree last : FileTree} {above : List FileTree} {entries : List (String × FileTree)}
  {name : String} {names more : List String}

/-! What one name does to a walk. -/

theorem walk_stay (h : name = "" ∨ name = ".") :
    walk (.directory entries) above (name :: names) = walk (.directory entries) above names := by
  simp [walk, h]

theorem walk_up_root :
    walk (.directory entries) [] (".." :: names) = walk (.directory entries) [] names := by
  simp [walk]

theorem walk_up {parent : FileTree} :
    walk (.directory entries) (parent :: above) (".." :: names) = walk parent above names := by
  simp [walk]

theorem walk_down (h : ¬(name = "" ∨ name = ".")) (hup : name ≠ "..") :
    walk (.directory entries) above (name :: names) =
      (entries.lookup name).bind fun child => walk child (.directory entries :: above) names := by
  simp [walk, h, hup]

theorem walk_entry (h : IsEntryName name) : walk (.directory entries) above (name :: names) =
    (entries.lookup name).bind fun child => walk child (.directory entries :: above) names := by
  exact walk_down (not_or.2 ⟨h.ne_empty, h.ne_dot⟩) h.ne_up

theorem walk_empty_name :
    walk tree above [""] = some last ↔ tree = last ∧ tree.isDirectory = true := by
  cases tree with
  | file content => simp [walk, FileTree.isDirectory]
  | device => simp [walk, FileTree.isDirectory]
  | directory entries => simp [walk, FileTree.isDirectory]

/-! Whole walks. -/

/-- What the first names of a walk lead to is where the rest of it starts. -/
theorem exists_walk_append (h : walk tree above (names ++ more) = some last) :
    ∃ middle parents, walk tree above names = some middle ∧
      ∀ others, walk tree above (names ++ others) = walk middle parents others := by
  fun_induction walk tree above names with
  | case1 tree above => exact ⟨tree, above, rfl, fun others => rfl⟩
  | case2 entries above name names hstay ih =>
      simp only [List.cons_append, walk_stay hstay] at h ⊢
      exact ih h
  | case3 entries names _ ih =>
      simp only [List.cons_append, walk_up_root] at h ⊢
      exact ih h
  | case4 entries names parent higher _ ih =>
      simp only [List.cons_append, walk_up] at h ⊢
      exact ih h
  | case5 entries above name names hstay hup ih =>
      simp only [List.cons_append, walk_down hstay hup] at h ⊢
      obtain ⟨child, hchild, hwalk⟩ := Option.bind_eq_some_iff.1 h
      simp only [hchild, Option.bind_some]
      exact ih child hwalk
  | case6 tree above name names hno => simp [walk] at h

/-- Ending a path with an empty name changes nothing for a directory. -/
theorem exists_walk_directory (hmore : more = [] ∨ more = [""])
    (h : walk tree above (names ++ more) = some (.directory entries)) :
    ∃ parents, ∀ others,
      walk tree above (names ++ others) = walk (.directory entries) parents others := by
  obtain ⟨middle, parents, -, hrest⟩ := exists_walk_append h
  rw [hrest] at h
  refine ⟨parents, ?_⟩
  rcases hmore with rfl | rfl
  · obtain rfl : middle = .directory entries := by simpa [walk] using h
    exact hrest
  · obtain ⟨rfl, -⟩ := walk_empty_name.1 h
    exact hrest

theorem wellNamed_of_walk (htree : tree.WellNamed) (habove : ∀ t ∈ above, t.WellNamed)
    (h : walk tree above names = some last) : last.WellNamed := by
  fun_induction walk tree above names with
  | case1 tree above =>
      obtain rfl := Option.some.inj h
      exact htree
  | case2 entries above name names _ ih => exact ih htree habove h
  | case3 entries names _ ih => exact ih htree habove h
  | case4 entries names parent higher _ ih =>
      have ⟨hparent, hhigher⟩ := List.forall_mem_cons.1 habove
      exact ih hparent hhigher h
  | case5 entries above name names _ _ ih =>
      obtain ⟨child, hchild, hwalk⟩ := Option.bind_eq_some_iff.1 h
      exact ih child (htree.of_lookup hchild) (List.forall_mem_cons.2 ⟨htree, habove⟩) hwalk
  | case6 => simp at h

/-! Path texts. -/

theorem pathChars_eq {path : String} (h : '\x00' ∉ path.toList) :
    pathChars path = path.toList := by
  rw [pathChars, List.takeWhile_eq_self_iff]
  intro c hc
  simpa using fun hnul : c = '\x00' => h (hnul ▸ hc)

theorem pathNames_append {path rest : String} (hp : '\x00' ∉ path.toList)
    (hr : '\x00' ∉ rest.toList) :
    pathNames (path ++ "/" ++ rest) = pathNames path ++ pathNames rest := by
  have hall : '\x00' ∉ (path ++ "/" ++ rest).toList := by simp [hp, hr]
  have hsplit := List.splitOn_append_cons_self path.toList rest.toList (a := '/')
  simp [pathNames, pathChars_eq hp, pathChars_eq hr, pathChars_eq hall, hsplit]

theorem pathNames_eq_singleton (h : IsEntryName name) : pathNames name = [name] := by
  simp [pathNames, pathChars_eq h.nul_not_mem, List.splitOn_eq_singleton h.slash_not_mem]

/-- Where the names of a path text start. -/
def startNames (system : FileSystem) (path : String) : List String :=
  if path.toList.head? = some '/' then [] else system.workingDirectory

theorem find?_append {system : FileSystem} {path rest : String} (hne : path ≠ "")
    (hnul : '\x00' ∉ (path ++ rest).toList) : system.find? (path ++ rest) =
      walk system.root [] (system.startNames path ++ pathNames (path ++ rest)) := by
  rw [find?, pathChars_eq hnul, startNames, String.toList_append]
  cases hchars : path.toList with
  | nil => exact absurd (String.toList_eq_nil_iff.1 hchars) hne
  | cons c chars =>
      by_cases hc : c = '/'
      · simp [hc]
      · simp [hc]

theorem find?_eq {system : FileSystem} {path : String} (hne : path ≠ "")
    (hnul : '\x00' ∉ path.toList) :
    system.find? path = walk system.root [] (system.startNames path ++ pathNames path) := by
  have happend : system.find? (path ++ "") =
      walk system.root [] (system.startNames path ++ pathNames (path ++ "")) :=
    find?_append hne (by simpa using hnul)
  simpa using happend

theorem find?_entry (h : IsEntryName name) :
    find? { root := .directory entries } name = entries.lookup name := by
  rw [find?_eq h.ne_empty h.nul_not_mem, pathNames_eq_singleton h, startNames]
  simp [walk_entry h, walk]

theorem wellNamed_of_find? {system : FileSystem} {path : String} (hroot : system.root.WellNamed)
    (h : system.find? path = some tree) : tree.WellNamed := by
  unfold find? at h
  split at h
  · simp at h
  · exact wellNamed_of_walk hroot (by simp) h
  · exact wellNamed_of_walk hroot (by simp) h

end FileSystem

end JsonDelta
