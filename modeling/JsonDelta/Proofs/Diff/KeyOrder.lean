import JsonDelta.Diff.ChangeSet
import JsonDelta.Proofs.Diff.Symmetry
import JsonDelta.Proofs.Document.KeyOrder
/-!
The order of members does not matter to the changes between two documents. It decides in which order
they are recorded, but not at which places: reordering members, at any depth, permutes the changes
and reorders members in the values they hold.
-/

namespace JsonDelta

/-- The same change, but for the order of members in its values. -/
inductive Change.KeyReordered : Change → Change → Prop
  | keyAdded {place : Location} {a b : Document} (h : a.KeyReordered b) :
      KeyReordered (.keyAdded place a) (.keyAdded place b)
  | keyRemoved {place : Location} {a b : Document} (h : a.KeyReordered b) :
      KeyReordered (.keyRemoved place a) (.keyRemoved place b)
  | itemAdded {place : Location} {a b : Document} (h : a.KeyReordered b) :
      KeyReordered (.itemAdded place a) (.itemAdded place b)
  | itemRemoved {place : Location} {a b : Document} (h : a.KeyReordered b) :
      KeyReordered (.itemRemoved place a) (.itemRemoved place b)
  | valueChanged {place : Location} {a a' b b' : Document} (hold : a.KeyReordered a')
      (hnew : b.KeyReordered b') :
      KeyReordered (.valueChanged place a b) (.valueChanged place a' b')
  | itemMoved {list : Location} {source target : Nat} {a b : Document} (h : a.KeyReordered b) :
      KeyReordered (.itemMoved list source target a) (.itemMoved list source target b)

/-! Lists whose elements are related in some order. -/

section Rel

variable {α β γ δ : Type} {r : α → β → Prop} {s : γ → δ → Prop} {xs : List α} {ys : List β}

theorem rel_append {xs' : List α} {ys' : List β} (h : Multiset.Rel r xs ys)
    (h' : Multiset.Rel r xs' ys') : Multiset.Rel r (xs ++ xs') (ys ++ ys') :=
  h.add h'

theorem rel_flatMap {f : α → List γ} {g : β → List δ} (h : Multiset.Rel r xs ys)
    (hfg : ∀ x ∈ xs, ∀ y ∈ ys, r x y → Multiset.Rel s (f x) (g y)) :
    Multiset.Rel s (xs.flatMap f) (ys.flatMap g) := by
  rw [← Multiset.coe_bind, ← Multiset.coe_bind]
  exact Multiset.rel_bind (fun _ _ hxy => hxy) (h.mono hfg)

theorem rel_filterMap {f : α → Option γ} {g : β → Option δ} (h : Multiset.Rel r xs ys)
    (hfg : ∀ x ∈ xs, ∀ y ∈ ys, r x y → Option.Rel s (f x) (g y)) :
    Multiset.Rel s (xs.filterMap f) (ys.filterMap g) := by
  rw [List.filterMap_eq_flatMap_toList, List.filterMap_eq_flatMap_toList]
  refine rel_flatMap h fun x hx y hy hxy => Matching.rel_of_forall₂ ?_
  have hrel := hfg x hx y hy hxy
  generalize f x = fx, g y = gy at hrel
  cases hrel with
  | none => exact .nil
  | some hrs => exact .cons hrs .nil

end Rel

namespace Alignment

variable [StandardHash]

/-- Only matching, lengths, and who can be partners decide an alignment. -/
theorem ofItems_eq_of_matchItems {old old' new new' : List Document}
    (hlen : old.length = old'.length)
    (hmatch : Document.matchItems old' new' = Document.matchItems old new)
    (hpartners : partnersAt old' new' = partnersAt old new) :
    ofItems old' new' = ofItems old new := by
  have hold : unmatchedOld old' (Document.matchItems old' new') =
      unmatchedOld old (Document.matchItems old new) := by
    rw [unmatchedOld, unmatchedOld, hlen, hmatch]
  rw [ofItems_eq, ofItems_eq old new, hold, hmatch, hpartners]

end Alignment

namespace Document

section Steps

variable {options : DiffOptions} {items items' others others' : List Document}
  {members members' otherMembers otherMembers' : List (String × Document)} {place : Location}

/-! What moves, and what is new. -/

theorem rel_moves (hothers : List.Forall₂ KeyReordered others others') (m : Nat × Nat) :
    List.Forall₂ Change.KeyReordered (moves options others place m)
      (moves options others' place m) := by
  obtain ⟨source, target⟩ := m
  rw [moves, moves]
  split
  · rcases getElem?_of_forall₂ hothers target with ⟨hj, hj'⟩ | ⟨b, b', hj, hj', hbb⟩
    · simp [hj, hj']
    · simpa [hj, hj'] using .itemMoved hbb
  · exact .nil

theorem rel_addedItems (hothers : List.Forall₂ KeyReordered others others') (j : Nat) :
    List.Forall₂ Change.KeyReordered (addedItems others place j) (addedItems others' place j) := by
  rcases getElem?_of_forall₂ hothers j with ⟨hj, hj'⟩ | ⟨b, b', hj, hj', hbb⟩
  · simp [addedItems, hj, hj']
  · simpa [addedItems, hj, hj'] using .itemAdded hbb

theorem rel_members (keys : (members.map Prod.fst).Perm (members'.map Prod.fst))
    (h : Members.Related (fun _ a b => KeyReordered a b) members members') :
    Multiset.Rel (fun m m' : String × Document => m.1 = m'.1 ∧ KeyReordered m.2 m'.2)
      members members' := by
  have hkeys : Multiset.Rel (fun m m' : String × Document => m.1 = m'.1) members members' := by
    rw [← Multiset.rel_map (f := Prod.fst) (g := Prod.fst), Multiset.rel_eq]
    exact Multiset.coe_eq_coe.2 keys
  refine hkeys.mono ?_
  rintro ⟨key, a⟩ ha ⟨_, b⟩ hb rfl
  exact ⟨rfl, h.values key a b ha hb⟩

/-! Alignments. -/

theorem partnersAt_eq_of_keyReordered (hitems : List.Forall₂ KeyReordered items items')
    (hothers : List.Forall₂ KeyReordered others others') :
    Alignment.partnersAt items' others' = Alignment.partnersAt items others := by
  funext i j
  rcases getElem?_of_forall₂ hitems i with ⟨hi, hi'⟩ | ⟨a, a', hi, hi', haa⟩
  · simp [Alignment.partnersAt, hi, hi']
  · rcases getElem?_of_forall₂ hothers j with ⟨hj, hj'⟩ | ⟨b, b', hj, hj', hbb⟩
    · simp [Alignment.partnersAt, hj, hj']
    · simp [Alignment.partnersAt, Alignment.sameContainer, hi, hi', hj, hj', haa.kind_eq,
        hbb.kind_eq]

variable [StandardHash]

theorem align_eq_of_keyReordered (ha : (array items).KeysDistinct)
    (hb : (array others).KeysDistinct) (hitems : List.Forall₂ KeyReordered items items')
    (hothers : List.Forall₂ KeyReordered others others') :
    options.align items' others' = options.align items others := by
  cases hmode : options.ignoreOrder with
  | false =>
      rw [DiffOptions.align_inOrder hmode, DiffOptions.align_inOrder hmode, hitems.length_eq,
        hothers.length_eq]
  | true =>
      rw [keysDistinct_array] at ha hb
      rw [DiffOptions.align_anyOrder hmode, DiffOptions.align_anyOrder hmode]
      have hmatch := matchItems_eq_of_keyReordered hitems hothers fun a hi b ho a' b' haa hbb =>
        fits_eq_of_keyReordered (ha a hi) (hb b ho) haa hbb
          (equal_eq_of_keyReordered (ha a hi) (hb b ho) haa hbb true)
      exact Alignment.ofItems_eq_of_matchItems hitems.length_eq hmatch
        (partnersAt_eq_of_keyReordered hitems hothers)

/-! What one leftover gives. -/

theorem rel_leftoverChanges (hitems : List.Forall₂ KeyReordered items items')
    (hothers : List.Forall₂ KeyReordered others others')
    (hchanges : ∀ a ∈ items, ∀ b ∈ others, ∀ a' b', KeyReordered a a' → KeyReordered b b' →
      ∀ place, Multiset.Rel Change.KeyReordered (changes options a b place)
        (changes options a' b' place)) (leftover : Nat × Option Nat) :
    Multiset.Rel Change.KeyReordered
      (leftoverChanges (items.map (changes options)) items others place leftover)
      (leftoverChanges (items'.map (changes options)) items' others' place leftover) := by
  obtain ⟨i, partner⟩ := leftover
  rcases getElem?_of_forall₂ hitems i with ⟨hi, hi'⟩ | ⟨a, a', hi, hi', haa⟩
  · cases partner <;> simp [leftoverChanges, hi, hi']
  · cases partner with
    | none =>
        rw [leftoverChanges_alone hi, leftoverChanges_alone hi']
        exact Matching.rel_of_forall₂ (.cons (.itemRemoved haa) .nil)
    | some j =>
        rcases getElem?_of_forall₂ hothers j with ⟨hj, hj'⟩ | ⟨b, b', hj, hj', hbb⟩
        · simp [leftoverChanges, hj, hj']
        · rw [leftoverChanges_partner options hi hj, leftoverChanges_partner options hi' hj']
          exact hchanges a (List.mem_of_getElem? hi) b (List.mem_of_getElem? hj) a' b' haa hbb _

/-! Arrays and objects, as far as this holds of their children. -/

theorem rel_changes_array (ha : (array items).KeysDistinct) (hb : (array others).KeysDistinct)
    (hitems : List.Forall₂ KeyReordered items items')
    (hothers : List.Forall₂ KeyReordered others others')
    (hchanges : ∀ a ∈ items, ∀ b ∈ others, ∀ a' b', KeyReordered a a' → KeyReordered b b' →
      ∀ place, Multiset.Rel Change.KeyReordered (changes options a b place)
        (changes options a' b' place)) :
    Multiset.Rel Change.KeyReordered (changes options (array items) (array others) place)
      (changes options (array items') (array others') place) := by
  -- With one alignment, both walks visit the same places in the same order.
  rw [changes_array_align, changes_array_align, align_eq_of_keyReordered ha hb hitems hothers]
  refine rel_append ?_ (rel_append ?_ ?_)
  · refine rel_flatMap Multiset.rel_eq_refl ?_
    rintro m _ _ _ rfl
    exact Matching.rel_of_forall₂ (rel_moves hothers m)
  · refine rel_flatMap Multiset.rel_eq_refl ?_
    rintro leftover _ _ _ rfl
    exact rel_leftoverChanges hitems hothers hchanges leftover
  · refine rel_flatMap Multiset.rel_eq_refl ?_
    rintro j _ _ _ rfl
    exact Matching.rel_of_forall₂ (rel_addedItems hothers j)

theorem rel_changes_object (keys : (members.map Prod.fst).Perm (members'.map Prod.fst))
    (otherKeys : (otherMembers.map Prod.fst).Perm (otherMembers'.map Prod.fst))
    (hmembers : Members.Related (fun _ a b => KeyReordered a b) members members')
    (hothers : Members.Related (fun _ a b => KeyReordered a b) otherMembers otherMembers')
    (hchanges : ∀ m ∈ members, ∀ o ∈ otherMembers, ∀ a' b', KeyReordered m.2 a' →
      KeyReordered o.2 b' → ∀ place, Multiset.Rel Change.KeyReordered
        (changes options m.2 o.2 place) (changes options a' b' place)) :
    Multiset.Rel Change.KeyReordered (changes options (object members) (object otherMembers) place)
      (changes options (object members') (object otherMembers') place) := by
  -- Here the two walks differ: each follows the order of its own members.
  rw [changes, changes, memberChanges_eq_flatMap, memberChanges_eq_flatMap]
  refine rel_append ?_ ?_
  · refine rel_flatMap (rel_members keys hmembers) ?_
    rintro ⟨key, a⟩ ha ⟨_, a'⟩ _ ⟨rfl, haa⟩
    rw [memberChange, memberChange]
    rcases hothers.lookup key with ⟨hb, hb'⟩ | ⟨b, b', hb, hb', hbb⟩
    · simpa only [hb, hb'] using Matching.rel_of_forall₂ (.cons (.keyRemoved haa) .nil)
    · simpa only [hb, hb'] using
        hchanges _ ha _ (Members.mem_of_lookup hb) a' b' haa hbb (place.key key)
  · rw [addedMembers, addedMembers, ← List.filterMap_eq_filter, ← List.filterMap_eq_filter,
      List.map_filterMap, List.map_filterMap]
    refine rel_filterMap (rel_members otherKeys hothers) ?_
    rintro ⟨key, b⟩ _ ⟨_, b'⟩ _ ⟨rfl, hbb⟩
    rcases hmembers.lookup key with ⟨ha, ha'⟩ | ⟨a, a', ha, ha', _⟩
    · simpa [Option.guard, ha, ha'] using .keyAdded hbb
    · simp [Option.guard, ha, ha']

end Steps

/-! The whole walk. -/

variable {a a' b b' : Document}

variable [StandardHash]

theorem rel_changes_of_keyReordered (options : DiffOptions) (ha : a.KeysDistinct)
    (hb : b.KeysDistinct) (haa : KeyReordered a a') (hbb : KeyReordered b b') (place : Location) :
    Multiset.Rel Change.KeyReordered (changes options a b place) (changes options a' b' place) := by
  induction a, b using Document.pairInduction generalizing a' b' place with
  | whole a b h =>
      have hwhole : a'.kind.isContainer = false ∨ a'.kind ≠ b'.kind := by
        rwa [← haa.kind_eq, ← hbb.kind_eq]
      rw [changes_whole options h, changes_whole options hwhole,
        equal_eq_of_keyReordered ha hb haa hbb]
      split
      · exact .zero
      · exact Matching.rel_of_forall₂ (.cons (.valueChanged haa hbb) .nil)
  | array items others ih =>
      obtain ⟨items', rfl, hitems⟩ := haa.exists_array
      obtain ⟨others', rfl, hothers⟩ := hbb.exists_array
      refine rel_changes_array ha hb hitems hothers fun a hi b ho a' b' haa hbb => ?_
      exact ih a hi b ho (keysDistinct_array.1 ha a hi) (keysDistinct_array.1 hb b ho) haa hbb
  | object members others ih =>
      obtain ⟨members', rfl, keys, hmembers⟩ := haa.exists_object
      obtain ⟨others', rfl, otherKeys, hothers⟩ := hbb.exists_object
      have hvalues := (keysDistinct_object.1 ha).2
      have hotherValues := (keysDistinct_object.1 hb).2
      refine rel_changes_object keys otherKeys hmembers hothers fun m hm o ho a' b' haa hbb => ?_
      exact ih m hm o ho (hvalues m hm) (hotherValues o ho) haa hbb

end Document

/-! The change set. -/

/-- The same record, but for the order of members in its value. -/
structure ItemChange.KeyReordered (r s : ItemChange) : Prop where
  place : r.place = s.place
  value : r.value.KeyReordered s.value

structure ValueChange.KeyReordered (r s : ValueChange) : Prop where
  place : r.place = s.place
  old : r.old.KeyReordered s.old
  new : r.new.KeyReordered s.new

namespace ChangeSet

/-- Every bucket holds the same records in some order, but for the order of members in values. -/
structure KeyReordered (set other : ChangeSet) : Prop where
  keyAdded : Multiset.Rel ItemChange.KeyReordered set.keyAdded other.keyAdded
  keyRemoved : Multiset.Rel ItemChange.KeyReordered set.keyRemoved other.keyRemoved
  itemAdded : Multiset.Rel ItemChange.KeyReordered set.itemAdded other.itemAdded
  itemRemoved : Multiset.Rel ItemChange.KeyReordered set.itemRemoved other.itemRemoved
  valueChanged : Multiset.Rel ValueChange.KeyReordered set.valueChanged other.valueChanged
  itemMoved : Multiset.Rel ItemChange.KeyReordered set.itemMoved other.itemMoved

theorem keyReordered_ofChanges {changes others : List Change}
    (h : Multiset.Rel Change.KeyReordered changes others) :
    (ofChanges changes).KeyReordered (ofChanges others) := by
  constructor <;>
    refine rel_filterMap h fun change _ other _ hchange => ?_ <;>
    cases hchange <;>
    first | exact .none | exact .some ⟨rfl, ‹_›⟩ | exact .some ⟨rfl, ‹_›, ‹_›⟩

section AnyHash

variable [StandardHash]

/-- Reordering members at any depth permutes the records in every bucket and reorders members in
their values, and equality does not see it in either mode. -/
theorem keyReordered_between (options : DiffOptions) {a a' b b' : Document} (ha : a.KeysDistinct)
    (hb : b.KeysDistinct) (haa : a.KeyReordered a') (hbb : b.KeyReordered b') :
    (between options a b).KeyReordered (between options a' b') ∧
      ∀ ignoreOrder, a'.equal ignoreOrder b' = a.equal ignoreOrder b :=
  ⟨keyReordered_ofChanges (Document.rel_changes_of_keyReordered options ha hb haa hbb .root),
    Document.equal_eq_of_keyReordered ha hb haa hbb⟩

end AnyHash

/-- The records of the two keys change places, and the first point is matched all the same. -/
theorem keyReordered_between_nested :
    let options : DiffOptions := { reportMoves := true }
    let one := Document.number (.unsigned 1)
    let a := Document.object
      [("points", .array [.object [("x", one), ("y", .null)], .array []]), ("open", .null)]
    let a' := Document.object
      [("open", .null), ("points", .array [.object [("y", .null), ("x", one)], .array []])]
    let b := Document.object
      [("points", .array [.array [one], .object [("x", one), ("y", .null)]]), ("open", one)]
    let b' := Document.object
      [("open", one), ("points", .array [.array [one], .object [("x", one), ("y", .null)]])]
    ((between options a b).KeyReordered (between options a' b') ∧
      ∀ ignoreOrder, a'.equal ignoreOrder b' = a.equal ignoreOrder b) ∧
      (between options a b).size = 3 := by
  intro options one a a' b b'
  have ha : a.KeysDistinct := by
    simp [a, one, Document.KeysDistinct, Document.ItemsDistinct, Document.MembersDistinct]
  have hb : b.KeysDistinct := by
    simp [b, one, Document.KeysDistinct, Document.ItemsDistinct, Document.MembersDistinct]
  have haa : a.KeyReordered a' := by
    refine .object (.swap _ _ []) fun key c d hc hd => ?_
    simp only [List.mem_cons, Prod.mk.injEq, List.not_mem_nil, or_false] at hc hd
    rcases hc with ⟨rfl, rfl⟩ | ⟨rfl, rfl⟩ <;> rcases hd with ⟨hkey, rfl⟩ | ⟨hkey, rfl⟩
    · simp at hkey
    · have hpoint : Document.KeyReordered (.object [("x", one), ("y", .null)])
          (.object [("y", .null), ("x", one)]) :=
        .of_perm (.swap _ _ []) (by simp [one, Document.KeysDistinct, Document.MembersDistinct])
      exact .of_forall₂ (.cons hpoint (.cons (.refl trivial) .nil))
    · exact .refl trivial
    · simp at hkey
  have hbb : b.KeyReordered b' := .of_perm (.swap _ _ []) hb
  exact ⟨keyReordered_between options ha hb haa hbb, by decide⟩

end ChangeSet

end JsonDelta
