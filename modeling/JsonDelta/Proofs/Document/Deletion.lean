import JsonDelta.Proofs.Document.Commute
import JsonDelta.Proofs.Document.Order
/-!
What a single deletion does. It replaces a container by one that has a child less, so only paths
that run through the container notice it. Main statement: a deletion succeeds exactly when there is
a value to delete; a deleted member is gone and nothing else changes, and behind a deleted item
every other item answers to the index before its own.
-/

namespace JsonDelta.Document

/-- The second document is the first one without a member: the key leads nowhere, paths that do not
meet it lead where they led, and the other members stand in their order. -/
structure LosesMember (d : Document) (parent : Path) (name : String) (d' : Document) : Prop where
  absent : ∀ q, parent.child (.key name) <+: q → d'.get? q = none
  elsewhere : ∀ q, ¬ q <+: parent.child (.key name) → ¬ parent.child (.key name) <+: q →
    d'.get? q = d.get? q
  container : ∃ before value after,
    d.get? parent = some (object (before ++ (name, value) :: after)) ∧
      d'.get? parent = some (object (before ++ after))

/-- The second document is the first one without an item: the items behind it have moved up, paths
that do not go into the array lead where they led, and the other items stand in their order. -/
structure LosesItem (d : Document) (list : Path) (i : Nat) (d' : Document) : Prop where
  front : ∀ (j : Nat) (rest : Path), j < i →
    d'.get? (list ++ .index j :: rest) = d.get? (list ++ .index j :: rest)
  behind : ∀ (j : Nat) (rest : Path), i ≤ j →
    d'.get? (list ++ .index j :: rest) = d.get? (list ++ .index (j + 1 : Nat) :: rest)
  elsewhere : ∀ q, ¬ q <+: list.child (.index i) → (∀ n rest, q ≠ list ++ .index n :: rest) →
    d'.get? q = d.get? q
  container : ∃ front value rear, front.length = i ∧
    d.get? list = some (array (front ++ value :: rear)) ∧
      d'.get? list = some (array (front ++ rear))

variable {d d' a a' : Document} {segment : Segment} {parent p q : Path} {name : String}

/-! A deletion replaces the container of what it deletes. -/

theorem exists_middle_of_eraseChild?_key (h : a.eraseChild? (.key name) = some a') :
    ∃ before value after, name ∉ before.map Prod.fst ∧
      a = object (before ++ (name, value) :: after) ∧ a' = object (before ++ after) := by
  cases hc : a.child? (.key name) with
  | none => simp [eraseChild?, hc] at h
  | some value =>
      cases a with
      | object members =>
          obtain ⟨before, after, rfl, hbefore⟩ := Members.exists_append_cons_of_lookup hc
          rw [eraseChild?_object_middle hbefore, Option.some.injEq] at h
          exact ⟨before, value, after, hbefore, rfl, h.symm⟩
      | _ => cases hc

theorem exists_middle_of_eraseChild?_index {n : Int} (h : a.eraseChild? (.index n) = some a') :
    ∃ front value rear, n = (front.length : Nat) ∧ a = array (front ++ value :: rear) ∧
      a' = array (front ++ rear) := by
  cases hc : a.child? (.index n) with
  | none => simp [eraseChild?, hc] at h
  | some value =>
      cases a with
      | array items =>
          cases n with
          | negSucc k => cases hc
          | ofNat i =>
              obtain ⟨front, rear, rfl, rfl⟩ := exists_append_cons_of_getElem? hc
              rw [Int.ofNat_eq_natCast, eraseChild?_array_middle rfl, Option.some.injEq] at h
              exact ⟨front, value, rear, rfl, rfl, h.symm⟩
      | _ => cases hc

theorem exists_set?_of_delete? (h : d.delete? (parent.child segment) = some d') :
    ∃ a a', d.get? parent = some a ∧ a.eraseChild? segment = some a' ∧
      d.set? parent a' = some d' := by
  induction parent generalizing d d' with
  | nil => exact ⟨d, d', get?_nil d, h, set?_nil d d'⟩
  | cons s parent ih =>
      obtain ⟨c, hc, ⟨hnil, -⟩ | ⟨c', hdelete, rfl⟩⟩ := exists_child?_of_delete?_cons h
      · simp at hnil
      · obtain ⟨a, a', hget, herase, hset⟩ := ih hdelete
        refine ⟨a, a', ?_, herase, ?_⟩
        · rw [get?_cons hc, hget]
        · rw [set?_cons hc, hset, Option.map_some]

theorem delete?_isSome_iff : (d.delete? p).isSome ↔ p ≠ [] ∧ (d.get? p).isSome := by
  constructor
  · intro h
    obtain ⟨d', hdelete⟩ := Option.isSome_iff_exists.1 h
    refine ⟨?_, Option.isSome_iff_exists.2 (exists_get?_of_delete? hdelete)⟩
    rintro rfl
    simp [delete?] at hdelete
  · rintro ⟨hp, hget⟩
    by_contra hnone
    rw [Option.not_isSome_iff_eq_none] at hnone
    rw [get?_eq_none_of_delete?_eq_none hp hnone] at hget
    cases hget

/-! What is read after a container has been replaced. -/

/-- Below the container it matters only which child a path goes on to. -/
theorem get?_set?_elsewhere (ha : d.get? parent = some a) (hset : d.set? parent a' = some d')
    (hq : ¬ q <+: parent)
    (hchild : ∀ s rest, q = parent ++ s :: rest → a'.child? s = a.child? s) :
    d'.get? q = d.get? q := by
  by_cases hparent : parent <+: q
  · obtain ⟨rest, rfl⟩ := hparent
    cases rest with
    | nil => exact absurd (by simp) hq
    | cons s rest =>
        rw [get?_set?_append hset, get?_append, ha, Option.bind_some, get?, get?,
          hchild s rest rfl]
  · exact get?_set?_of_not_prefix hset hparent hq

theorem child?_key_append_ne {before after : List (String × Document)} {value : Document}
    {s : Segment} (hs : s ≠ .key name) :
    (object (before ++ after)).child? s = (object (before ++ (name, value) :: after)).child? s := by
  cases s with
  | index n => rfl
  | key other =>
      have hother : other ≠ name := fun heq => hs (congrArg Segment.key heq)
      show (before ++ after).lookup other = (before ++ (name, value) :: after).lookup other
      rw [List.lookup_append, List.lookup_append, List.lookup_cons, beq_false_of_ne hother]

theorem child?_index_append_lt {front rear : List Document} {value : Document} {j : Nat}
    (hj : j < front.length) :
    (array (front ++ rear)).child? (.index j) =
      (array (front ++ value :: rear)).child? (.index j) := by
  show (front ++ rear)[j]? = (front ++ value :: rear)[j]?
  rw [List.getElem?_append_left hj, List.getElem?_append_left hj]

theorem child?_index_append_ge {front rear : List Document} {value : Document} {j : Nat}
    (hj : front.length ≤ j) :
    (array (front ++ rear)).child? (.index j) =
      (array (front ++ value :: rear)).child? (.index (j + 1 : Nat)) := by
  show (front ++ rear)[j]? = (front ++ value :: rear)[j + 1]?
  have hnext : j + 1 - front.length = j - front.length + 1 := by omega
  rw [List.getElem?_append_right hj, List.getElem?_append_right (by omega), hnext,
    List.getElem?_cons_succ]

theorem losesMember_of_delete? (hd : d.KeysDistinct)
    (h : d.delete? (parent.child (.key name)) = some d') : d.LosesMember parent name d' := by
  obtain ⟨a, a', hget, herase, hset⟩ := exists_set?_of_delete? h
  obtain ⟨before, value, after, hbefore, rfl, rfl⟩ := exists_middle_of_eraseChild?_key herase
  refine ⟨?_, ?_, before, value, after, hget, get?_set? hset⟩
  · rintro _ ⟨rest, rfl⟩
    have hkeys := (keysDistinct_object.1 (keysDistinct_of_get? hd hget)).1
    rw [List.map_append, List.map_cons, List.nodup_middle, List.nodup_cons] at hkeys
    have hnone : (object (before ++ after)).child? (.key name) = none := by
      apply Members.lookup_eq_none_iff.2
      rw [List.map_append]
      exact hkeys.1
    rw [Path.child, List.append_assoc, get?_set?_append hset, List.singleton_append, get?, hnone,
      Option.bind_none]
  · intro q hq hp
    refine get?_set?_elsewhere hget hset (fun h => hq (h.trans (Path.prefix_child ..))) ?_
    rintro s rest rfl
    apply child?_key_append_ne
    rintro rfl
    exact hp ⟨rest, by simp [Path.child]⟩

theorem losesItem_of_delete? {n : Int} (h : d.delete? (parent.child (.index n)) = some d') :
    ∃ i : Nat, n = i ∧ d.LosesItem parent i d' := by
  obtain ⟨a, a', hget, herase, hset⟩ := exists_set?_of_delete? h
  obtain ⟨front, value, rear, rfl, rfl, rfl⟩ := exists_middle_of_eraseChild?_index herase
  refine ⟨front.length, rfl, ?_, ?_, ?_, front, value, rear, rfl, hget, get?_set? hset⟩
  · intro j rest hj
    rw [get?_set?_append hset, get?_append, hget, Option.bind_some, get?, get?,
      child?_index_append_lt hj]
  · intro j rest hj
    rw [get?_set?_append hset, get?_append, hget, Option.bind_some, get?, get?,
      child?_index_append_ge hj]
  · intro q hq hindex
    refine get?_set?_elsewhere hget hset (fun h => hq (h.trans (Path.prefix_child ..))) ?_
    intro s rest heq
    cases s with
    | key other => rfl
    | index k => exact absurd heq (hindex k rest)

/-- A deletion succeeds exactly when there is a value to delete that is not the whole document.
Then it takes away one member or one item and nothing else. -/
theorem delete?_isSome_iff_and_loses (hd : d.KeysDistinct) (p : Path) :
    ((d.delete? p).isSome ↔ p ≠ [] ∧ (d.get? p).isSome) ∧
      (d.delete? p = none → d.strip [p] = (d, 0)) ∧
      ∀ d', d.delete? p = some d' →
        d.strip [p] = (d', 1) ∧
        (∀ parent name, p = Path.child parent (.key name) → d.LosesMember parent name d') ∧
        ∀ parent n, p = Path.child parent (.index n) →
          ∃ i : Nat, n = i ∧ d.LosesItem parent i d' := by
  refine ⟨delete?_isSome_iff, fun h => by simp [strip, h], fun d' h => ?_⟩
  refine ⟨by simp [strip, h], ?_, ?_⟩
  · rintro parent name rfl
    exact losesMember_of_delete? hd h
  · rintro parent n rfl
    exact losesItem_of_delete? h

/-- An item is taken from the middle of a nested array, and a member from an object in it. -/
theorem delete?_isSome_iff_and_loses_nested :
    let d := object
      [("a", array [null, object [("x", null), ("y", bool true)], string "s"]), ("b", null)]
    let unlisted := object [("a", array [null, string "s"]), ("b", null)]
    let unnamed := object [("a", array [null, object [("y", bool true)], string "s"]), ("b", null)]
    d.KeysDistinct ∧ d.LosesItem [.key "a"] 1 unlisted ∧
      d.LosesMember [.key "a", .index 1] "x" unnamed ∧
      d.strip [[.key "a", .index (-1)]] = (d, 0) := by
  intro d unlisted unnamed
  have hd : d.KeysDistinct := by simp [d, KeysDistinct, ItemsDistinct, MembersDistinct]
  obtain ⟨-, -, hitem⟩ := delete?_isSome_iff_and_loses hd [.key "a", .index 1]
  obtain ⟨-, -, hmember⟩ := delete?_isSome_iff_and_loses hd [.key "a", .index 1, .key "x"]
  obtain ⟨-, hnone, -⟩ := delete?_isSome_iff_and_loses hd [.key "a", .index (-1)]
  obtain ⟨i, hi, hloses⟩ := (hitem unlisted rfl).2.2 [.key "a"] 1 rfl
  obtain rfl : i = 1 := by omega
  exact ⟨hd, hloses, (hmember unnamed rfl).2.1 [.key "a", .index 1] "x" rfl, hnone rfl⟩

end JsonDelta.Document
