import Mathlib.Data.List.Sort
import JsonDelta.Pairing
import JsonDelta.Proofs.FileTree
/-!
What two directories have to compare. Main statement: the path that a directory gives one of its
documents leads to a regular file, so that this path names one file to compare and no more.
-/

namespace JsonDelta

variable {recursive : Bool} {entries : List (String × FileTree)} {name : String}

/-! The documents of a directory. -/

/-- A file with the name of a document among the entries, or in a directory below when these are
looked into. -/
inductive HoldsDocument (recursive : Bool) : List (String × FileTree) → String → Prop
  | file {entries : List (String × FileTree)} {name : String} {content : Option ByteArray}
      (hmem : (name, .file content) ∈ entries) (hname : isDocumentName name = true) :
      HoldsDocument recursive entries name
  | inDirectory {entries inner : List (String × FileTree)} {directory name : String}
      (hrecursive : recursive = true) (hmem : (directory, .directory inner) ∈ entries)
      (hinner : HoldsDocument recursive inner name) :
      HoldsDocument recursive entries (directory ++ "/" ++ name)

theorem HoldsDocument.mono {others : List (String × FileTree)} (hsub : entries ⊆ others)
    (h : HoldsDocument recursive entries name) : HoldsDocument recursive others name := by
  cases h with
  | file hmem hname => exact .file (hsub hmem) hname
  | inDirectory hrecursive hmem hinner => exact .inDirectory hrecursive (hsub hmem) hinner

theorem documentNames_append (front back : List (String × FileTree)) :
    documentNames recursive (front ++ back) =
      documentNames recursive front ++ documentNames recursive back := by
  induction front with
  | nil => simp [documentNames]
  | cons e rest ih =>
      obtain ⟨name, tree⟩ := e
      cases tree with
      | file content => simp [documentNames, ih]
      | device => simp [documentNames, ih]
      | directory inner => simp [documentNames, ih]

theorem HoldsDocument.mem_documentNames (h : HoldsDocument recursive entries name) :
    name ∈ documentNames recursive entries := by
  induction h with
  | file hmem hname =>
      obtain ⟨front, back, rfl⟩ := List.append_of_mem hmem
      simp [documentNames_append, documentNames, hname]
  | inDirectory hrecursive hmem hinner ih =>
      obtain ⟨front, back, rfl⟩ := List.append_of_mem hmem
      subst hrecursive
      simp [documentNames_append, documentNames, ih]

theorem holdsDocument_of_mem (h : name ∈ documentNames recursive entries) :
    HoldsDocument recursive entries name := by
  fun_induction documentNames recursive entries generalizing name with
  | case1 => simp at h
  | case2 file content rest ih =>
      rcases List.mem_append.1 h with hfile | hrest
      · split at hfile
        · rename_i hname
          obtain rfl := List.mem_singleton.1 hfile
          exact .file List.mem_cons_self hname
        · simp at hfile
      · exact (ih hrest).mono (List.subset_cons_self _ _)
  | case3 directory inner rest ihinner ih =>
      rcases List.mem_append.1 h with hinner | hrest
      · split at hinner
        · rename_i hrecursive
          obtain ⟨below, hbelow, rfl⟩ := List.mem_map.1 hinner
          exact .inDirectory hrecursive List.mem_cons_self (ihinner hbelow)
        · simp at hinner
      · exact (ih hrest).mono (List.subset_cons_self _ _)
  | case4 e rest _ _ ih => exact (ih h).mono (List.subset_cons_self _ _)

theorem mem_documentNames_iff :
    name ∈ documentNames recursive entries ↔ HoldsDocument recursive entries name :=
  ⟨holdsDocument_of_mem, HoldsDocument.mem_documentNames⟩

/-! The way to a document. -/

namespace HoldsDocument

theorem nul_not_mem (h : HoldsDocument recursive entries name)
    (hnamed : (FileTree.directory entries).WellNamed) : '\x00' ∉ name.toList := by
  induction h with
  | file hmem hname =>
      have hentry := ((FileTree.wellNamed_directory.1 hnamed).2 _ hmem).1
      exact hentry.nul_not_mem
  | inDirectory hrecursive hmem hinner ih =>
      obtain ⟨hentry, hsub⟩ := (FileTree.wellNamed_directory.1 hnamed).2 _ hmem
      simp [hentry.nul_not_mem, ih hsub]

/-- A document is found below its directory, wherever that stands. -/
theorem exists_walk (h : HoldsDocument recursive entries name)
    (hnamed : (FileTree.directory entries).WellNamed) (above : List FileTree) :
    ∃ content, FileSystem.walk (.directory entries) above (FileSystem.pathNames name) =
      some (.file content) := by
  induction h generalizing above with
  | @file entries name content hmem hname =>
      obtain ⟨hdistinct, hentries⟩ := FileTree.wellNamed_directory.1 hnamed
      have hentry : IsEntryName name := (hentries _ hmem).1
      have hlookup := (Members.lookup_eq_some_iff hdistinct).2 hmem
      refine ⟨content, ?_⟩
      rw [FileSystem.pathNames_eq_singleton hentry, FileSystem.walk_entry hentry, hlookup]
      simp [FileSystem.walk]
  | @inDirectory entries inner directory name hrecursive hmem hinner ih =>
      obtain ⟨hdistinct, hentries⟩ := FileTree.wellNamed_directory.1 hnamed
      obtain ⟨hentry, hsub⟩ : IsEntryName directory ∧ (FileTree.directory inner).WellNamed :=
        hentries _ hmem
      have hlookup := (Members.lookup_eq_some_iff hdistinct).2 hmem
      obtain ⟨content, hwalk⟩ := ih hsub (.directory entries :: above)
      refine ⟨content, ?_⟩
      rw [FileSystem.pathNames_append hentry.nul_not_mem (hinner.nul_not_mem hsub),
        FileSystem.pathNames_eq_singleton hentry, List.singleton_append,
        FileSystem.walk_entry hentry, hlookup]
      exact hwalk

end HoldsDocument

/-! Pairs of directories. -/

/-- The texts with a property, in order and each once. -/
structure ListsInOrder (texts : List String) (p : String → Prop) : Prop where
  sorted : texts.Pairwise (· < ·)
  mem_iff : ∀ text, text ∈ texts ↔ p text

/-- The property decides the list. -/
theorem ListsInOrder.unique {texts others : List String} {p : String → Prop}
    (h : ListsInOrder texts p) (hothers : ListsInOrder others p) : texts = others :=
  h.sorted.eq_of_mem_iff hothers.sorted fun text =>
    (h.mem_iff text).trans (hothers.mem_iff text).symm

theorem listsInOrder_filter_sortedSet {texts : List String} {p : String → Prop} {q : String → Bool}
    (h : ∀ text, p text ↔ text ∈ texts ∧ q text = true) :
    ListsInOrder ((Text.sortedSet texts).filter q) p where
  sorted := (Text.pairwise_sortedSet texts).filter q
  mem_iff text := by rw [List.mem_filter, Text.mem_sortedSet, h]

namespace Pairing

variable {system : FileSystem} {path : String}

theorem exists_childPath_eq (hname : '\x00' ∉ name.toList) :
    ∃ rest, childPath path name = path ++ rest ∧ '\x00' ∉ rest.toList := by
  by_cases h : path.toList.getLast? = some '/'
  · exact ⟨name, by simp [childPath, h], hname⟩
  · exact ⟨"/" ++ name, by simp [childPath, h, String.append_assoc], by simp [hname]⟩

/-- A path that ends with a slash has an empty last name, which its entries go without. -/
theorem exists_pathNames_childPath (hpath : '\x00' ∉ path.toList) (hname : '\x00' ∉ name.toList) :
    ∃ names more, FileSystem.pathNames path = names ++ more ∧ (more = [] ∨ more = [""]) ∧
      FileSystem.pathNames (childPath path name) = names ++ FileSystem.pathNames name := by
  by_cases h : path.toList.getLast? = some '/'
  · obtain ⟨chars, hchars⟩ := List.getLast?_eq_some_iff.1 h
    obtain ⟨front, rfl⟩ : ∃ front, path = front ++ "/" ++ "" :=
      ⟨String.ofList chars, String.toList_injective (by simp [hchars])⟩
    have hfront : '\x00' ∉ front.toList := fun hmem => hpath (by simp [hmem])
    refine ⟨FileSystem.pathNames front, [""], ?_, .inr rfl, ?_⟩
    · exact FileSystem.pathNames_append hfront (by simp)
    · rw [childPath, if_pos h, String.append_empty]
      exact FileSystem.pathNames_append hfront hname
  · refine ⟨FileSystem.pathNames path, [], (List.append_nil _).symm, .inl rfl, ?_⟩
    rw [childPath, if_neg h]
    exact FileSystem.pathNames_append hpath hname

/-- The look-up of a path below a directory goes on from the directory. -/
theorem exists_find?_childPath (hpath : '\x00' ∉ path.toList) (hname : '\x00' ∉ name.toList)
    (hdirectory : system.find? path = some (.directory entries)) :
    ∃ parents, system.find? (childPath path name) =
      FileSystem.walk (.directory entries) parents (FileSystem.pathNames name) := by
  have hne : path ≠ "" := by
    rintro rfl
    simp [FileSystem.find?, FileSystem.pathChars] at hdirectory
  have hchild : system.find? (childPath path name) = FileSystem.walk system.root []
      (system.startNames path ++ FileSystem.pathNames (childPath path name)) := by
    obtain ⟨rest, hrest, hnul⟩ := exists_childPath_eq hname
    rw [hrest]
    exact FileSystem.find?_append hne (by simp [hpath, hnul])
  obtain ⟨names, more, hnames, hmore, hchildNames⟩ := exists_pathNames_childPath hpath hname
  rw [FileSystem.find?_eq hne hpath, hnames, ← List.append_assoc] at hdirectory
  obtain ⟨parents, hparents⟩ := FileSystem.exists_walk_directory hmore hdirectory
  refine ⟨parents, ?_⟩
  rw [hchild, hchildNames, ← List.append_assoc]
  exact hparents _

/-- A document that a directory lists is found by its path. -/
theorem exists_find?_document (hpath : '\x00' ∉ path.toList)
    (hroot : system.root.WellNamed) (hdirectory : system.find? path = some (.directory entries))
    (h : HoldsDocument recursive entries name) :
    ∃ content, system.find? (childPath path name) = some (.file content) := by
  have hnamed : (FileTree.directory entries).WellNamed :=
    FileSystem.wellNamed_of_find? hroot hdirectory
  obtain ⟨parents, hparents⟩ := exists_find?_childPath hpath (h.nul_not_mem hnamed) hdirectory
  rw [hparents]
  exact h.exists_walk hnamed parents

variable {path1 path2 : String} {old new : List (String × FileTree)}

/-- The documents of one directory only, and the pairs of those that both have. -/
theorem exists_ofDirectories (recursive : Bool) (path1 path2 : String)
    (old new : List (String × FileTree)) : ∃ missing extra common : List String,
      ListsInOrder missing
        (fun name => HoldsDocument recursive old name ∧ ¬HoldsDocument recursive new name) ∧
      ListsInOrder extra
        (fun name => HoldsDocument recursive new name ∧ ¬HoldsDocument recursive old name) ∧
      ListsInOrder common
        (fun name => HoldsDocument recursive old name ∧ HoldsDocument recursive new name) ∧
      ofDirectories recursive path1 path2 old new =
        { missing := missing
          extra := extra
          pairs := common.map fun name => (childPath path1 name, childPath path2 name) } := by
  refine ⟨_, _, _, ?_, ?_, ?_, rfl⟩
  · apply listsInOrder_filter_sortedSet
    simp [mem_documentNames_iff]
  · apply listsInOrder_filter_sortedSet
    simp [mem_documentNames_iff]
  · apply listsInOrder_filter_sortedSet
    simp [mem_documentNames_iff]

theorem ofPaths_directories (hold : system.find? path1 = some (.directory old))
    (hnew : system.find? path2 = some (.directory new)) :
    ofPaths system recursive path1 path2 =
      .ok ([(ofDirectories recursive path1 path2 old new).summaryLine],
        ofDirectories recursive path1 path2 old new) := by
  simp [ofPaths, hold, hnew]

theorem ofPaths_files {oldContent newContent : Option ByteArray}
    (hold : system.find? path1 = some (.file oldContent))
    (hnew : system.find? path2 = some (.file newContent)) :
    ofPaths system recursive path1 path2 = .ok ([], { pairs := [(path1, path2)] }) := by
  simp [ofPaths, hold, hnew, FileTree.isRegular]

end Pairing

end JsonDelta
