import JsonDelta.Proofs.Document.Edit
/-!
A document without a set of places. `without` removes all of them at once, so it sees each place as
it was; `strip` deletes them one after the other, and deleting an item moves the items behind it.
Main statement: as long as no deletion moves or removes an item that a later path goes through,
stripping removes exactly the given places, and so neither their order nor repetitions matter.
-/

namespace JsonDelta

namespace Path

variable {segment : Segment} {rest : Path} {paths : List Path}

/-- The paths that go through a child, as seen from it. -/
def below (segment : Segment) (paths : List Path) : List Path :=
  paths.filterMap fun
    | [] => none
    | s :: rest => if s = segment then some rest else none

theorem mem_below : rest ∈ below segment paths ↔ segment :: rest ∈ paths := by
  rw [below, List.mem_filterMap]
  constructor
  · rintro ⟨path, hmem, hrest⟩
    cases path with
    | nil => cases hrest
    | cons s path =>
        obtain ⟨rfl, rfl⟩ : s = segment ∧ path = rest := by simpa using hrest
        exact hmem
  · exact fun hmem => ⟨_, hmem, by simp⟩

theorem below_cons_self :
    below segment ((segment :: rest) :: paths) = rest :: below segment paths := by
  simp [below]

theorem below_cons_of_ne {s : Segment} (h : s ≠ segment) :
    below segment ((s :: rest) :: paths) = below segment paths := by
  simp [below, h]

/-- The first path ends at an item, and the second one goes through that item or one behind it in
the same array. -/
def Shifts (p q : Path) : Prop :=
  ∃ (list rest : Path) (i j : Nat), p = list.child (.index i) ∧ q = list ++ .index j :: rest ∧ i ≤ j

theorem not_shifts_nil {p : Path} : ¬ Shifts p [] := by
  rintro ⟨list, rest, i, j, -, h, -⟩
  simp at h

theorem not_nil_shifts {q : Path} : ¬ Shifts [] q := by
  rintro ⟨list, rest, i, j, h, -, -⟩
  simp [child] at h

theorem cons_shifts_cons_iff {s t : Segment} {p q : Path} :
    Shifts (s :: p) (t :: q) ↔
      (s = t ∧ Shifts p q) ∨ (p = [] ∧ ∃ i j : Nat, s = .index i ∧ t = .index j ∧ i ≤ j) := by
  constructor
  · rintro ⟨list, rest, i, j, hp, hq, hij⟩
    cases list with
    | nil =>
        cases hp
        cases hq
        exact .inr ⟨rfl, i, j, rfl, rfl, hij⟩
    | cons u list =>
        cases hp
        cases hq
        exact .inl ⟨rfl, list, rest, i, j, rfl, rfl, hij⟩
  · rintro (⟨rfl, list, rest, i, j, rfl, rfl, hij⟩ | ⟨rfl, i, j, rfl, rfl, hij⟩)
    · exact ⟨s :: list, rest, i, j, rfl, rfl, hij⟩
    · exact ⟨[], q, i, j, rfl, rfl, hij⟩

/-- Only paths that end at an item shift others. -/
theorem not_shifts_key {parent q : Path} {name : String} :
    ¬ Shifts (parent.child (.key name)) q := by
  rintro ⟨list, rest, i, j, h, -, -⟩
  simpa [child] using congrArg List.getLast? h

end Path

namespace Document

mutual

/-- The document without the values at the given paths. The whole document stays. -/
def without : Document → List Path → Document
  | array items, paths => array (itemsWithout items 0 paths)
  | object members, paths => object (membersWithout members paths)
  | d, _ => d

/-- The items from index `i` on. -/
def itemsWithout : List Document → Nat → List Path → List Document
  | [], _, _ => []
  | item :: items, i, paths =>
    if [] ∈ Path.below (.index i) paths then itemsWithout items (i + 1) paths
    else item.without (Path.below (.index i) paths) :: itemsWithout items (i + 1) paths

def membersWithout : List (String × Document) → List Path → List (String × Document)
  | [], _ => []
  | (key, value) :: members, paths =>
    if [] ∈ Path.below (.key key) paths then membersWithout members paths
    else (key, value.without (Path.below (.key key) paths)) :: membersWithout members paths

end

/-- What is left of a child, given the paths as seen from it. -/
def without? (d : Document) (paths : List Path) : Option Document :=
  if [] ∈ paths then none else some (d.without paths)

def itemLeft (paths : List Path) (entry : Document × Nat) : Option Document :=
  entry.1.without? (Path.below (.index entry.2) paths)

def memberLeft (paths : List Path) (m : String × Document) : Option (String × Document) :=
  (m.2.without? (Path.below (.key m.1) paths)).map (m.1, ·)

variable {d : Document} {paths others : List Path} {segment : Segment} {q : Path}

theorem itemsWithout_eq_filterMap (items : List Document) (i : Nat) (paths : List Path) :
    itemsWithout items i paths = (items.zipIdx i).filterMap (itemLeft paths) := by
  induction items generalizing i with
  | nil => rfl
  | cons item items ih =>
      rw [itemsWithout, ih, List.zipIdx_cons, List.filterMap_cons, itemLeft, without?]
      split <;> rfl

theorem membersWithout_eq_filterMap (members : List (String × Document)) (paths : List Path) :
    membersWithout members paths = members.filterMap (memberLeft paths) := by
  induction members with
  | nil => rfl
  | cons m members ih =>
      rw [membersWithout, ih, List.filterMap_cons, memberLeft, without?]
      split <;> rfl

theorem without_array (items : List Document) (paths : List Path) :
    (array items).without paths = array (items.zipIdx.filterMap (itemLeft paths)) := by
  rw [without, itemsWithout_eq_filterMap]

theorem without_object (members : List (String × Document)) (paths : List Path) :
    (object members).without paths = object (members.filterMap (memberLeft paths)) := by
  rw [without, membersWithout_eq_filterMap]

theorem without_scalar (h : d.kind.isContainer = false) (paths : List Path) :
    d.without paths = d := by
  cases d with
  | array _ => cases h
  | object _ => cases h
  | _ => rfl

/-! Only the paths that go through a child count, in any order. -/

theorem without_congr (h : ∀ segment child, d.child? segment = some child →
    ∀ q, segment :: q ∈ paths ↔ segment :: q ∈ others) : d.without paths = d.without others := by
  induction d using Document.induction generalizing paths others with
  | scalar d hd => rw [without_scalar hd, without_scalar hd]
  | array items ih =>
      rw [without_array, without_array]
      congr 1
      refine List.filterMap_congr fun ⟨item, i⟩ hmem => ?_
      have hi : items[i]? = some item := List.mem_zipIdx_iff_getElem?.1 hmem
      have hbelow := h (.index i) item hi
      simp only [← Path.mem_below] at hbelow
      rw [itemLeft, itemLeft, without?, without?,
        ih item (List.mem_of_getElem? hi) fun _ _ _ _ => hbelow _]
      simp only [hbelow]
  | object members ih =>
      rw [without_object, without_object]
      congr 1
      refine List.filterMap_congr fun m hmem => ?_
      obtain ⟨child, hchild⟩ := Members.exists_lookup_of_mem_keys (List.mem_map_of_mem hmem)
      have hbelow := h (.key m.1) child hchild
      simp only [← Path.mem_below] at hbelow
      rw [memberLeft, memberLeft, without?, without?, ih m hmem fun _ _ _ _ => hbelow _]
      simp only [hbelow]

theorem without_congr_mem (h : ∀ q, q ∈ paths ↔ q ∈ others) : d.without paths = d.without others :=
  without_congr fun _ _ _ _ => h _

/-- A path that starts with no child of the document does not count. -/
theorem without_cons_of_child?_eq_none (h : d.child? segment = none) :
    d.without ((segment :: q) :: paths) = d.without paths := by
  refine without_congr fun s child hs rest => ?_
  have hne : s ≠ segment := by
    rintro rfl
    rw [h] at hs
    cases hs
  simp [hne]

theorem without_nil (d : Document) : d.without [] = d := by
  induction d using Document.induction with
  | scalar d hd => exact without_scalar hd []
  | array items ih =>
      rw [without_array]
      congr 1
      conv => rhs; rw [← List.zipIdx_map_fst 0 items]
      rw [← List.filterMap_eq_map]
      refine List.filterMap_congr fun ⟨item, i⟩ hmem => ?_
      have hi := List.mem_of_getElem? (List.mem_zipIdx_iff_getElem?.1 hmem)
      simpa [itemLeft, without?, Path.below] using ih item hi
  | object members ih =>
      rw [without_object]
      congr 1
      conv => rhs; rw [← List.filterMap_some (l := members)]
      refine List.filterMap_congr fun m hmem => ?_
      simp [memberLeft, without?, Path.below, ih m hmem]

/-! Deleting one more path from what is left. -/

/-- Deleting inside a child changes that child, even if nothing is deleted. -/
theorem getD_delete?_cons {child : Document} (h : d.child? segment = some child) (hq : q ≠ []) :
    (d.delete? (segment :: q)).getD d = d.setChild segment ((child.delete? q).getD child) := by
  rw [delete?_cons h hq]
  cases child.delete? q with
  | none => exact (setChild_self h).symm
  | some child' => rfl

theorem filterMap_append_cons {α β : Type} (f : α → Option β) (before after : List α) (x : α) :
    (before ++ x :: after).filterMap f =
      before.filterMap f ++ ((f x).toList ++ after.filterMap f) := by
  rw [List.filterMap_append, List.filterMap_cons]
  cases f x <;> rfl

theorem exists_append_cons_of_getElem? {α : Type} {l : List α} {j : Nat} {x : α}
    (h : l[j]? = some x) : ∃ before after, l = before ++ x :: after ∧ before.length = j := by
  obtain ⟨hj, rfl⟩ := List.getElem?_eq_some_iff.1 h
  refine ⟨l.take j, l.drop (j + 1), ?_, List.length_take_of_le (Nat.le_of_lt hj)⟩
  rw [← List.drop_eq_getElem_cons hj, List.take_append_drop]

section Item

variable {before after : List Document} {item : Document}

theorem itemLeft_cons_of_ne {i : Nat} {entry : Document × Nat} (h : entry.2 ≠ i) :
    itemLeft ((.index i :: q) :: paths) entry = itemLeft paths entry := by
  have hne : Segment.index i ≠ .index entry.2 := fun heq =>
    h (Int.ofNat_inj.1 (Segment.index.inj heq)).symm
  rw [itemLeft, itemLeft, Path.below_cons_of_ne hne]

/-- Around an item that no path before it removes, what is left does not depend on the paths that go
through the item. -/
theorem exists_without_item (item : Document) (after : List Document)
    (h : ∀ i < before.length, [.index i] ∉ paths) :
    ∃ front back : List Document, front.length = before.length ∧
      (array (before ++ item :: after)).without paths =
        array (front ++
          ((item.without? (Path.below (.index before.length) paths)).toList ++ back)) ∧
      ∀ q, (array (before ++ item :: after)).without ((.index before.length :: q) :: paths) =
        array (front ++
          ((item.without? (q :: Path.below (.index before.length) paths)).toList ++ back)) := by
  refine ⟨before.zipIdx.filterMap (itemLeft paths),
    (after.zipIdx (before.length + 1)).filterMap (itemLeft paths), ?_, ?_, fun q => ?_⟩
  · rw [List.filterMap_length_eq_length.2, List.length_zipIdx]
    rintro ⟨item, i⟩ hmem
    have hi := (List.getElem?_eq_some_iff.1 (List.mem_zipIdx_iff_getElem?.1 hmem)).1
    rw [itemLeft, without?, if_neg fun hnil => h i hi (Path.mem_below.1 hnil)]
    rfl
  · rw [without_array, List.zipIdx_append, List.zipIdx_cons, filterMap_append_cons, Nat.zero_add]
    rfl
  · rw [without_array, List.zipIdx_append, List.zipIdx_cons, filterMap_append_cons, Nat.zero_add,
      itemLeft, Path.below_cons_self]
    congr 2
    · refine List.filterMap_congr fun ⟨item, i⟩ hmem => itemLeft_cons_of_ne ?_
      have hi := (List.getElem?_eq_some_iff.1 (List.mem_zipIdx_iff_getElem?.1 hmem)).1
      exact Nat.ne_of_lt hi
    · congr 1
      refine List.filterMap_congr fun ⟨item, i⟩ hmem => itemLeft_cons_of_ne ?_
      have hi := (List.mem_zipIdx hmem).1
      exact Nat.ne_of_gt hi

/-- What is left of an array, after one more deletion at or inside an item that is still there and
has not moved. -/
theorem delete?_without_item {below : List Path} (h : ∀ i ≤ before.length, [.index i] ∉ paths)
    (hbelow : Path.below (.index before.length) paths = below)
    (hitem : ((item.without below).delete? q).getD (item.without below) =
      item.without (q :: below)) :
    (((array (before ++ item :: after)).without paths).delete? (.index before.length :: q)).getD
        ((array (before ++ item :: after)).without paths) =
      (array (before ++ item :: after)).without ((.index before.length :: q) :: paths) := by
  obtain ⟨front, back, hlen, hleft, hmore⟩ :=
    exists_without_item item after fun i hi => h i (Nat.le_of_lt hi)
  have hstays : [] ∉ below := by
    rw [← hbelow, Path.mem_below]
    exact h _ (Nat.le_refl _)
  rw [hmore, hleft, hbelow, without?, if_neg hstays, Option.toList_some, List.singleton_append]
  cases q with
  | nil => simp [delete?, eraseChild?_array_middle hlen, without?]
  | cons s q =>
      have hkept : [] ∉ (s :: q) :: below := by simp [hstays]
      rw [getD_delete?_cons (child?_array_middle hlen) (by simp), hitem, setChild_array_middle hlen,
        without?, if_neg hkept, Option.toList_some, List.singleton_append]

end Item

section Member

variable {before after : List (String × Document)} {key : String} {value : Document}

theorem memberLeft_cons_of_ne {m : String × Document} (h : m.1 ≠ key) :
    memberLeft ((.key key :: q) :: paths) m = memberLeft paths m := by
  rw [memberLeft, memberLeft, Path.below_cons_of_ne (by simpa using Ne.symm h)]

theorem mem_keys_of_memberLeft {members : List (String × Document)}
    (h : key ∈ (members.filterMap (memberLeft paths)).map Prod.fst) :
    key ∈ members.map Prod.fst := by
  obtain ⟨_, hleft, rfl⟩ := List.mem_map.1 h
  obtain ⟨m, hm, hm'⟩ := List.mem_filterMap.1 hleft
  obtain ⟨_, _, rfl⟩ := Option.map_eq_some_iff.1 hm'
  exact List.mem_map.2 ⟨m, hm, rfl⟩

/-- Around a member, what is left does not depend on the paths that go through it. -/
theorem exists_without_member (value : Document) (paths : List Path)
    (hb : key ∉ before.map Prod.fst) (ha : key ∉ after.map Prod.fst) :
    ∃ front back : List (String × Document), key ∉ front.map Prod.fst ∧ key ∉ back.map Prod.fst ∧
      (object (before ++ (key, value) :: after)).without paths =
        object (front ++
          (((value.without? (Path.below (.key key) paths)).map (key, ·)).toList ++ back)) ∧
      ∀ q, (object (before ++ (key, value) :: after)).without ((.key key :: q) :: paths) =
        object (front ++
          (((value.without? (q :: Path.below (.key key) paths)).map (key, ·)).toList ++ back)) := by
  refine ⟨before.filterMap (memberLeft paths), after.filterMap (memberLeft paths),
    fun hmem => hb (mem_keys_of_memberLeft hmem), fun hmem => ha (mem_keys_of_memberLeft hmem), ?_,
    fun q => ?_⟩
  · rw [without_object, filterMap_append_cons]
    rfl
  · rw [without_object, filterMap_append_cons, memberLeft, Path.below_cons_self]
    congr 2
    · refine List.filterMap_congr fun m hm => memberLeft_cons_of_ne ?_
      rintro rfl
      exact hb (List.mem_map_of_mem hm)
    · congr 1
      refine List.filterMap_congr fun m hm => memberLeft_cons_of_ne ?_
      rintro rfl
      exact ha (List.mem_map_of_mem hm)

/-- What is left of an object, after one more deletion at or inside a member. -/
theorem delete?_without_member {below : List Path} (hb : key ∉ before.map Prod.fst)
    (ha : key ∉ after.map Prod.fst) (hbelow : Path.below (.key key) paths = below)
    (hvalue : ((value.without below).delete? q).getD (value.without below) =
      value.without (q :: below)) :
    (((object (before ++ (key, value) :: after)).without paths).delete? (.key key :: q)).getD
        ((object (before ++ (key, value) :: after)).without paths) =
      (object (before ++ (key, value) :: after)).without ((.key key :: q) :: paths) := by
  obtain ⟨front, back, hf, hback, hleft, hmore⟩ :=
    exists_without_member value paths hb ha
  rw [hmore, hleft, hbelow]
  by_cases hstays : [] ∈ below
  · -- The member is gone already.
    have hchild : (object (front ++ back)).child? (.key key) = none := by
      simp only [child?, Members.lookup_eq_none_iff, List.map_append, List.mem_append]
      exact not_or.2 ⟨hf, hback⟩
    rw [without?, if_pos hstays, without?, if_pos (List.mem_cons_of_mem _ hstays)]
    simp [delete?_cons_of_child?_eq_none hchild]
  · rw [without?, if_neg hstays, Option.map_some, Option.toList_some, List.singleton_append]
    cases q with
    | nil => simp [delete?, eraseChild?_object_middle hf, without?]
    | cons s q =>
        have hkept : [] ∉ (s :: q) :: below := by simp [hstays]
        rw [getD_delete?_cons (child?_object_middle hf) (by simp), hvalue,
          setChild_object_middle hf, without?, if_neg hkept, Option.map_some, Option.toList_some,
          List.singleton_append]

end Member

/-- Nothing is added by leaving places out. -/
theorem child?_without_eq_none (h : d.child? segment = none) :
    (d.without paths).child? segment = none := by
  cases d with
  | array items =>
      rw [without_array]
      match segment with
      | .index (.ofNat i) =>
          have hi : items.length ≤ i := List.getElem?_eq_none_iff.1 h
          refine List.getElem?_eq_none (Nat.le_trans (List.length_filterMap_le ..) ?_)
          rwa [List.length_zipIdx]
      | .index (.negSucc i) => rfl
      | .key name => rfl
  | object members =>
      rw [without_object]
      match segment with
      | .key name =>
          have hname : name ∉ members.map Prod.fst := Members.lookup_eq_none_iff.1 h
          exact Members.lookup_eq_none_iff.2 fun hmem => hname (mem_keys_of_memberLeft hmem)
      | .index i => rfl
  | _ => exact h

/-! Any deletion, and all of them. -/

/-- A path that leads nowhere shifts nothing. -/
def Undisturbed (d : Document) (p q : Path) : Prop := (d.get? p).isSome → ¬ p.Shifts q

theorem Undisturbed.child {child : Document} {p : Path} (hc : d.child? segment = some child)
    (h : d.Undisturbed (segment :: p) (segment :: q)) : child.Undisturbed p q := by
  intro hp hshifts
  rw [← get?_cons hc] at hp
  exact h hp (Path.cons_shifts_cons_iff.2 (.inl ⟨rfl, hshifts⟩))

/-- After deletions that shifted nothing on the way to a path, deleting the path takes away what it
addressed in the first place. -/
theorem delete?_without (hd : d.KeysDistinct) (h : ∀ p ∈ paths, d.Undisturbed p q) :
    ((d.without paths).delete? q).getD (d.without paths) = d.without (q :: paths) := by
  induction q generalizing d paths with
  | nil =>
      have hpaths : d.without ([] :: paths) = d.without paths :=
        without_congr fun _ _ _ _ => by simp
      rw [hpaths]
      rfl
  | cons segment q ih =>
      cases hc : d.child? segment with
      | none =>
          rw [without_cons_of_child?_eq_none hc,
            delete?_cons_of_child?_eq_none (child?_without_eq_none hc)]
          rfl
      | some child =>
          have hbelow : ∀ p ∈ Path.below segment paths, child.Undisturbed p q := fun p hp =>
            (h _ (Path.mem_below.1 hp)).child hc
          have hchild := ih (keysDistinct_of_child? hd hc) hbelow
          match d, segment with
          | object members, .key name =>
              obtain ⟨before, after, rfl, hb⟩ := Members.exists_append_cons_of_lookup hc
              have hkeys := (keysDistinct_object.1 hd).1
              rw [List.map_append, List.map_cons] at hkeys
              have ha := (List.nodup_cons.1 (List.nodup_append.1 hkeys).2.1).1
              exact delete?_without_member hb ha rfl hchild
          | array items, .index (.ofNat j) =>
              obtain ⟨before, after, rfl, rfl⟩ := exists_append_cons_of_getElem? hc
              refine delete?_without_item (fun i hi hmem => ?_) rfl hchild
              have hi' : i < (before ++ child :: after).length := by
                simp only [List.length_append, List.length_cons]
                omega
              have hsome : ((array (before ++ child :: after)).get? [.index i]).isSome := by
                have hget : (array (before ++ child :: after)).child? (.index i) = some _ :=
                  List.getElem?_eq_getElem hi'
                rw [get?_cons hget, get?_nil]
                rfl
              exact h _ hmem hsome ⟨[], q, i, before.length, rfl, rfl, hi⟩

/-- Every path finds its place as it was, whatever has been deleted before it. -/
theorem strip_without (hd : d.KeysDistinct) (hpaths : paths.Pairwise d.Undisturbed)
    (hothers : ∀ p ∈ others, ∀ q ∈ paths, d.Undisturbed p q) :
    ((d.without others).strip paths).1 = d.without (paths ++ others) := by
  induction paths generalizing others with
  | nil => rfl
  | cons path paths ih =>
      obtain ⟨hpath, hpaths⟩ := List.pairwise_cons.1 hpaths
      rw [strip_cons, delete?_without hd fun p hp => hothers p hp path List.mem_cons_self,
        ih hpaths]
      · refine without_congr_mem fun q => ?_
        simp only [List.mem_append, List.mem_cons]
        tauto
      · intro p hp q hq
        rcases List.mem_cons.1 hp with rfl | hp
        · exact hpath q hq
        · exact hothers p hp q (List.mem_cons_of_mem _ hq)

/-- As long as no path shifts a later one, exactly the places are removed that the paths have in the
document as it was, in whatever order the paths come and however often. That holds of all paths that
end in a key. -/
theorem strip_eq_without (hd : d.KeysDistinct) :
    (∀ paths : List Path, paths.Pairwise d.Undisturbed → (d.strip paths).1 = d.without paths) ∧
      (∀ paths others : List Path, paths.Pairwise d.Undisturbed → others.Pairwise d.Undisturbed →
        (∀ p, p ∈ paths ↔ p ∈ others) → (d.strip paths).1 = (d.strip others).1) ∧
      ∀ paths : List Path, (∀ p ∈ paths, ∃ parent name, p = Path.child parent (.key name)) →
        paths.Pairwise d.Undisturbed := by
  have hstrip (paths : List Path) (h : paths.Pairwise d.Undisturbed) :
      (d.strip paths).1 = d.without paths := by
    have hnone : ∀ p ∈ ([] : List Path), ∀ q ∈ paths, d.Undisturbed p q := nofun
    have hpaths := strip_without hd h hnone
    rwa [without_nil, List.append_nil] at hpaths
  refine ⟨hstrip, fun paths others hpaths hothers hsame => ?_, fun paths hkeys => ?_⟩
  · rw [hstrip paths hpaths, hstrip others hothers, without_congr_mem hsame]
  · refine List.pairwise_iff_forall_sublist.2 fun {p q} hsub => ?_
    obtain ⟨parent, name, rfl⟩ := hkeys p (hsub.subset List.mem_cons_self)
    exact fun _ => Path.not_shifts_key

/-- Items are deleted from the back, after what lies inside them, and one member twice. -/
theorem strip_eq_without_backwards :
    let d := Document.object
      [("a", .array [.bool true, .object [("x", .null), ("y", .null)], .null]), ("b", .null)]
    let paths : List Path :=
      [[.key "b"], [.key "a", .index 1, .key "x"], [.key "a", .index 1], [.key "b"],
        [.key "a", .index 0]]
    let others : List Path :=
      [[.key "a", .index 1, .key "x"], [.key "a", .index 1], [.key "a", .index 0], [.key "b"]]
    (d.strip paths).1 = d.without paths ∧ (d.strip paths).1 = (d.strip others).1 ∧
      d.without paths = .object [("a", .array [.null])] ∧
      [[Segment.key "b"], [.key "b"]].Pairwise d.Undisturbed := by
  intro d paths others
  have hd : d.KeysDistinct := by simp [d, KeysDistinct, ItemsDistinct, MembersDistinct]
  have hpaths : paths.Pairwise d.Undisturbed := by
    simp [paths, Undisturbed, Path.cons_shifts_cons_iff, Path.not_shifts_nil, Path.not_nil_shifts]
    intro _ i hi j hj
    omega
  have hothers : others.Pairwise d.Undisturbed := by
    simp [others, Undisturbed, Path.cons_shifts_cons_iff, Path.not_shifts_nil]
    intro _ i hi j hj
    omega
  have hmembers (p : Path) : p ∈ paths ↔ p ∈ others := by
    simp only [paths, others, List.mem_cons, List.not_mem_nil, or_false]
    tauto
  obtain ⟨hstrip, hsame, hkeys⟩ := strip_eq_without hd
  refine ⟨hstrip paths hpaths, hsame paths others hpaths hothers hmembers, rfl, hkeys _ ?_⟩
  intro p hp
  obtain rfl : p = [.key "b"] := by simpa using hp
  exact ⟨[], "b", rfl⟩

/-- When the first item is deleted, the others move up, and the next path meets another item. -/
theorem strip_ne_without_forwards :
    let d := Document.array [.string "a", .string "b", .string "c"]
    d.KeysDistinct ∧
      (d.strip [[.index 0], [.index 1]]).1 ≠ d.without [[.index 0], [.index 1]] ∧
      (d.strip [[.index 0], [.index 1]]).1 ≠ (d.strip [[.index 1], [.index 0]]).1 ∧
      (d.strip [[.index 0], [.index 0]]).1 ≠ (d.strip [[.index 0]]).1 := by
  intro d
  refine ⟨by simp [d, KeysDistinct, ItemsDistinct], ?_, ?_, ?_⟩
  · change array [.string "b"] ≠ array [.string "c"]
    simp
  · change array [.string "b"] ≠ array [.string "c"]
    simp
  · change array [.string "c"] ≠ array [.string "b", .string "c"]
    simp

end Document

end JsonDelta
