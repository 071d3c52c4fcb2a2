import JsonDelta.Proofs.Pairing
import JsonDelta.Proofs.Text.Bytes
/-!
The listing of two directories. Main statement: it sorts the documents of both into those of the old
one only, those of the new one only and pairs, by the bytes of their names; the other way round it
is the same listing with its sides exchanged, and without the directories below it is the part of it
that has no slash.
-/

namespace JsonDelta

variable {recursive : Bool} {entries : List (String × FileTree)} {name base : String}
  {parents names : List String}

/-! Documents by what is at the end of a walk. -/

/-- The last name of a walk is that of a document: something in front of `.json`, and no dot at the
start. The walk leads to a regular file, through directories if these are looked into. -/
structure IsDocumentAt (recursive : Bool) (entries : List (String × FileTree))
    (parents : List String) (base : String) : Prop where
  entryNames : ∀ name ∈ parents ++ [base], IsEntryName name
  regular : ∃ content,
    FileSystem.walk (.directory entries) [] (parents ++ [base]) = some (.file content)
  extension : ∃ stem, stem ≠ "" ∧ base = stem ++ ".json"
  visible : base.toList.head? ≠ some '.'
  nested : parents ≠ [] → recursive = true

/-- The name of a document is its path from the directory. -/
def IsDocument (recursive : Bool) (entries : List (String × FileTree)) (name : String) : Prop :=
  ∃ parents base, name = "/".intercalate (parents ++ [base]) ∧
    IsDocumentAt recursive entries parents base

theorem exists_stem_iff : (∃ stem, stem ≠ "" ∧ base = stem ++ ".json") ↔
    5 < base.toList.length ∧ ".json".toList <:+ base.toList := by
  constructor
  · rintro ⟨stem, hstem, rfl⟩
    have hlength : 0 < stem.toList.length := List.length_pos_iff.2 (by simpa using hstem)
    rw [String.toList_append, List.length_append]
    exact ⟨Nat.lt_add_of_pos_left hlength, List.suffix_append ..⟩
  · rintro ⟨hlength, chars, hchars⟩
    refine ⟨String.ofList chars, ?_, String.toList_injective (by simpa using hchars.symm)⟩
    intro hempty
    have hnil : chars = [] := String.ofList_eq_empty_iff.1 hempty
    rw [← hchars, hnil] at hlength
    exact absurd hlength (by decide)

theorem isDocumentName_iff : isDocumentName base = true ↔
    (∃ stem, stem ≠ "" ∧ base = stem ++ ".json") ∧ base.toList.head? ≠ some '.' := by
  rw [exists_stem_iff, isDocumentName]
  simp only [Bool.and_eq_true, decide_eq_true_eq, List.isSuffixOf_iff_suffix]
  tauto

/-- Names of entries never lead up, so what is above does not count. -/
theorem FileSystem.walk_entries (h : ∀ name ∈ names, IsEntryName name) (tree : FileTree)
    (above others : List FileTree) : walk tree above names = walk tree others names := by
  induction names generalizing tree above others with
  | nil => cases tree <;> rfl
  | cons name names ih =>
      obtain ⟨hname, hnames⟩ := List.forall_mem_cons.1 h
      cases tree with
      | directory entries =>
          rw [walk_entry hname, walk_entry hname]
          congr 1
          funext child
          exact ih hnames ..
      | file content => rfl
      | device => rfl

/-- Only a directory is followed by a name. -/
theorem FileSystem.exists_directory_of_walk {tree last : FileTree} {above : List FileTree}
    (hne : names ≠ []) (h : walk tree above names = some last) :
    ∃ entries, tree = .directory entries := by
  obtain ⟨name, rest, rfl⟩ := List.exists_cons_of_ne_nil hne
  cases tree with
  | directory entries => exact ⟨entries, rfl⟩
  | file content => cases h
  | device => cases h

theorem intercalate_cons (directory : String) (parents : List String) (base : String) :
    "/".intercalate (directory :: parents ++ [base]) =
      directory ++ "/" ++ "/".intercalate (parents ++ [base]) := by
  cases parents with
  | nil => rw [List.cons_append, List.nil_append, String.intercalate_cons_cons]
  | cons p rest => rw [List.cons_append, List.cons_append, String.intercalate_cons_cons]

theorem HoldsDocument.isDocument (h : HoldsDocument recursive entries name)
    (hnamed : (FileTree.directory entries).WellNamed) : IsDocument recursive entries name := by
  induction h with
  | @file entries name content hmem hname =>
      obtain ⟨hdistinct, hentries⟩ := FileTree.wellNamed_directory.1 hnamed
      have hentry : IsEntryName name := (hentries _ hmem).1
      have hlookup := (Members.lookup_eq_some_iff hdistinct).2 hmem
      obtain ⟨hextension, hvisible⟩ := isDocumentName_iff.1 hname
      refine ⟨[], name, ?_, ?_, ⟨content, ?_⟩, hextension, hvisible, ?_⟩
      · simp
      · simpa using hentry
      · rw [List.nil_append, FileSystem.walk_entry hentry, hlookup]
        rfl
      · simp
  | @inDirectory entries inner directory name hrecursive hmem hinner ih =>
      obtain ⟨hdistinct, hentries⟩ := FileTree.wellNamed_directory.1 hnamed
      obtain ⟨hentry, hsub⟩ : IsEntryName directory ∧ (FileTree.directory inner).WellNamed :=
        hentries _ hmem
      have hlookup := (Members.lookup_eq_some_iff hdistinct).2 hmem
      obtain ⟨parents, base, rfl, hdocument⟩ := ih hsub
      obtain ⟨content, hwalk⟩ := hdocument.regular
      refine ⟨directory :: parents, base, (intercalate_cons ..).symm, ?_, ⟨content, ?_⟩,
        hdocument.extension, hdocument.visible, fun _ => hrecursive⟩
      · exact List.forall_mem_cons.2 ⟨hentry, hdocument.entryNames⟩
      · rw [List.cons_append, FileSystem.walk_entry hentry, hlookup, Option.bind_some,
          FileSystem.walk_entries hdocument.entryNames _ _ [], hwalk]

theorem IsDocumentAt.holdsDocument (h : IsDocumentAt recursive entries parents base) :
    HoldsDocument recursive entries ("/".intercalate (parents ++ [base])) := by
  induction parents generalizing entries with
  | nil =>
      obtain ⟨content, hwalk⟩ := h.regular
      have hentry : IsEntryName base := h.entryNames base (by simp)
      rw [List.nil_append, FileSystem.walk_entry hentry] at hwalk
      obtain ⟨child, hlookup, hchild⟩ := Option.bind_eq_some_iff.1 hwalk
      obtain rfl : child = .file content := by simpa [FileSystem.walk] using hchild
      rw [List.nil_append, String.intercalate_singleton]
      exact .file (Members.mem_of_lookup hlookup) (isDocumentName_iff.2 ⟨h.extension, h.visible⟩)
  | cons directory parents ih =>
      obtain ⟨content, hwalk⟩ := h.regular
      obtain ⟨hentry, hnames⟩ : IsEntryName directory ∧
        ∀ name ∈ parents ++ [base], IsEntryName name := List.forall_mem_cons.1 h.entryNames
      rw [List.cons_append, FileSystem.walk_entry hentry] at hwalk
      obtain ⟨child, hlookup, hchild⟩ := Option.bind_eq_some_iff.1 hwalk
      rw [FileSystem.walk_entries hnames _ _ []] at hchild
      have hrecursive : recursive = true := h.nested (by simp)
      obtain ⟨inner, rfl⟩ := FileSystem.exists_directory_of_walk (by simp) hchild
      rw [intercalate_cons]
      exact .inDirectory hrecursive (Members.mem_of_lookup hlookup)
        (ih ⟨hnames, ⟨content, hchild⟩, h.extension, h.visible, fun _ => hrecursive⟩)

theorem isDocument_iff (hnamed : (FileTree.directory entries).WellNamed) :
    IsDocument recursive entries name ↔ HoldsDocument recursive entries name := by
  constructor
  · rintro ⟨parents, base, rfl, h⟩
    exact h.holdsDocument
  · exact fun h => h.isDocument hnamed

/-- The documents that need no directory are those without a slash in their names. -/
theorem holdsDocument_false_iff (recursive : Bool)
    (hnamed : (FileTree.directory entries).WellNamed) : HoldsDocument false entries name ↔
      HoldsDocument recursive entries name ∧ '/' ∉ name.toList := by
  constructor
  · rintro (⟨hmem, hname⟩ | ⟨⟨⟩, -, -⟩)
    have hentry : IsEntryName name := ((FileTree.wellNamed_directory.1 hnamed).2 _ hmem).1
    exact ⟨.file hmem hname, hentry.slash_not_mem⟩
  · rintro ⟨⟨hmem, hname⟩ | ⟨-, -, -⟩, hslash⟩
    · exact .file hmem hname
    · exact absurd hslash (by simp)

/-! Lists of names. -/

variable {texts : List String} {p : String → Prop}

/-- The texts with a property, each once, in the order of their bytes. -/
structure ListsByBytes (texts : List String) (p : String → Prop) : Prop where
  sorted : texts.Pairwise fun s t => Text.bytes s < Text.bytes t
  mem_iff : ∀ text, text ∈ texts ↔ p text

theorem ListsInOrder.byBytes (h : ListsInOrder texts p) : ListsByBytes texts p where
  sorted := h.sorted.imp Text.bytes_lt_iff.2
  mem_iff := h.mem_iff

theorem ListsInOrder.filter {q : String → Prop} (h : ListsInOrder texts p) {test : String → Bool}
    (htest : ∀ text, q text ↔ p text ∧ test text = true) : ListsInOrder (texts.filter test) q where
  sorted := h.sorted.filter test
  mem_iff text := by rw [List.mem_filter, h.mem_iff, htest]

namespace Pairing

variable {system : FileSystem} {path1 path2 : String} {old new : List (String × FileTree)}
  {missing extra common : List String}

/-- The three lists decide the listing. -/
theorem ofDirectories_eq
    (hmissing : ListsInOrder missing
      fun name => HoldsDocument recursive old name ∧ ¬HoldsDocument recursive new name)
    (hextra : ListsInOrder extra
      fun name => HoldsDocument recursive new name ∧ ¬HoldsDocument recursive old name)
    (hcommon : ListsInOrder common
      fun name => HoldsDocument recursive old name ∧ HoldsDocument recursive new name) :
    ofDirectories recursive path1 path2 old new =
      { missing := missing
        extra := extra
        pairs := common.map fun name => (childPath path1 name, childPath path2 name) } := by
  obtain ⟨missing', extra', common', hmissing', hextra', hcommon', heq⟩ :=
    exists_ofDirectories recursive path1 path2 old new
  rw [heq, hmissing'.unique hmissing, hextra'.unique hextra, hcommon'.unique hcommon]

/-- The other way round, each list says of one directory what it said of the other. -/
theorem ofDirectories_swap (hmissing : ListsInOrder missing
      fun name => HoldsDocument recursive old name ∧ ¬HoldsDocument recursive new name)
    (hextra : ListsInOrder extra
      fun name => HoldsDocument recursive new name ∧ ¬HoldsDocument recursive old name)
    (hcommon : ListsInOrder common
      fun name => HoldsDocument recursive old name ∧ HoldsDocument recursive new name) :
    ofDirectories recursive path2 path1 new old =
      { missing := extra
        extra := missing
        pairs := (common.map fun name => (childPath path1 name, childPath path2 name)).map
          Prod.swap } := by
  have hswapped : ListsInOrder common
      fun name => HoldsDocument recursive new name ∧ HoldsDocument recursive old name :=
    ⟨hcommon.sorted, fun name => (hcommon.mem_iff name).trans and_comm⟩
  rw [ofDirectories_eq hextra hmissing hswapped, List.map_map]
  rfl

/-- Two directories are listed by the names of their documents: those of the old one only, those of
the new one only, and those of both, whose pairs have the old path in front; each list goes by
bytes. The other way round the first two lists change places, and so do the paths of each pair.
Without the directories below, the names without a slash are left. -/
theorem ofPaths_lists_documents (hroot : system.root.WellNamed)
    (hold : system.find? path1 = some (.directory old))
    (hnew : system.find? path2 = some (.directory new)) (recursive : Bool) :
    ∃ missing extra common : List String,
      let paths name := (childPath path1 name, childPath path2 name)
      let pairing := { missing := missing, extra := extra, pairs := common.map paths }
      (ofPaths system recursive path1 path2).map Prod.snd = .ok pairing ∧
      ListsByBytes missing
        (fun name => IsDocument recursive old name ∧ ¬IsDocument recursive new name) ∧
      ListsByBytes extra
        (fun name => IsDocument recursive new name ∧ ¬IsDocument recursive old name) ∧
      ListsByBytes common
        (fun name => IsDocument recursive old name ∧ IsDocument recursive new name) ∧
      (ofPaths system recursive path2 path1).map Prod.snd =
        .ok { missing := extra, extra := missing, pairs := pairing.pairs.map Prod.swap } ∧
      (ofPaths system false path1 path2).map Prod.snd =
        .ok { missing := missing.filter fun name => '/' ∉ name.toList
              extra := extra.filter fun name => '/' ∉ name.toList
              pairs := (common.filter fun name => '/' ∉ name.toList).map paths } := by
  have holdNamed := FileSystem.wellNamed_of_find? hroot hold
  have hnewNamed := FileSystem.wellNamed_of_find? hroot hnew
  obtain ⟨missing, extra, common, hmissing, hextra, hcommon, heq⟩ :=
    exists_ofDirectories recursive path1 path2 old new
  refine ⟨missing, extra, common, ?_, ?_, ?_, ?_, ?_, ?_⟩
  · rw [ofPaths_directories hold hnew, heq]
    rfl
  · simp only [isDocument_iff holdNamed, isDocument_iff hnewNamed]
    exact hmissing.byBytes
  · simp only [isDocument_iff holdNamed, isDocument_iff hnewNamed]
    exact hextra.byBytes
  · simp only [isDocument_iff holdNamed, isDocument_iff hnewNamed]
    exact hcommon.byBytes
  · rw [ofPaths_directories hnew hold, ofDirectories_swap hmissing hextra hcommon]
    rfl
  · rw [ofPaths_directories hold hnew]
    refine congrArg Except.ok (ofDirectories_eq (hmissing.filter fun name => ?_)
      (hextra.filter fun name => ?_) (hcommon.filter fun name => ?_))
    all_goals
      simp only [holdsDocument_false_iff recursive holdNamed,
        holdsDocument_false_iff recursive hnewNamed, decide_eq_true_eq]
      tauto

/-! Two directories with a directory called `d.json`, and with names that have a hyphen where others
have a slash. -/

def oldFiles : List (String × FileTree) :=
  [("a", .directory [("b.json", .file "1".toUTF8), (".b.json", .file "2".toUTF8)]),
    ("d.json", .directory [("c.json", .file "3".toUTF8)]), ("a-b.json", .file "4".toUTF8)]

def newFiles : List (String × FileTree) :=
  [("d.json", .file "5".toUTF8), ("a-b.json", .file "6".toUTF8), ("e.json", .device),
    ("a", .directory [("b.json", .file "7".toUTF8)])]

theorem ofPaths_lists_documents_nested :
    let system : FileSystem :=
      { root := .directory [("old", .directory oldFiles), ("new", .directory newFiles)] }
    let pairs := [("old/a-b.json", "/new/a-b.json"), ("old/a/b.json", "/new/a/b.json")]
    system.root.WellNamed ∧ system.find? "old" = some (.directory oldFiles) ∧
      system.find? "/new/" = some (.directory newFiles) ∧
      (ofPaths system true "old" "/new/").map Prod.snd =
        .ok { missing := ["d.json/c.json"], extra := ["d.json"], pairs := pairs } ∧
      (ofPaths system true "/new/" "old").map Prod.snd =
        .ok { missing := ["d.json"], extra := ["d.json/c.json"], pairs := pairs.map Prod.swap } ∧
      IsDocument true oldFiles "d.json/c.json" ∧ ¬IsDocument true newFiles "d.json/c.json" := by
  intro system pairs
  have hroot : system.root.WellNamed := by
    simp [system, oldFiles, newFiles, FileTree.WellNamed, FileTree.EntriesWellNamed,
      isEntryName_iff]
  have hold : system.find? "old" = some (.directory oldFiles) :=
    FileSystem.find?_entry (by simp [isEntryName_iff])
  have hnew : system.find? "/new/" = some (.directory newFiles) := by
    have hchars : FileSystem.pathChars "/new/" = ['/', 'n', 'e', 'w', '/'] := by decide
    have hnames : FileSystem.pathNames "/new/" = ["", "new", ""] := by decide
    simp [FileSystem.find?, hchars, hnames, system, FileSystem.walk, List.lookup_cons]
  have holdNames : documentNames true oldFiles = ["a/b.json", "d.json/c.json", "a-b.json"] := by
    simp [oldFiles, documentNames, isDocumentName]
    decide
  have hnewNames : documentNames true newFiles = ["d.json", "a-b.json", "a/b.json"] := by
    simp [newFiles, documentNames, isDocumentName]
    decide
  have hlisting : (ofPaths system true "old" "/new/").map Prod.snd =
      .ok { missing := ["d.json/c.json"], extra := ["d.json"], pairs := pairs } := by
    rw [ofPaths_directories hold hnew, ofDirectories, holdNames, hnewNames]
    rfl
  obtain ⟨missing, extra, common, heq, hmissing, -, -, hswapped, -⟩ :=
    ofPaths_lists_documents hroot hold hnew true
  rw [hlisting] at heq
  obtain ⟨rfl, rfl, hpairs⟩ := Pairing.mk.inj (Except.ok.inj heq)
  rw [← hpairs] at hswapped
  obtain ⟨hin, hnotIn⟩ := (hmissing.mem_iff "d.json/c.json").1 List.mem_cons_self
  exact ⟨hroot, hold, hnew, hlisting, hswapped, hin, hnotIn⟩

end Pairing

end JsonDelta
