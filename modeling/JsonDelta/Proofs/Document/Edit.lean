import JsonDelta.Document.Distinct
import JsonDelta.Document.Edit
import JsonDelta.Proofs.Document.Members
/-!
Laws of editing by path. Replacing is a lens: what was put can be read, the last of two replacements
counts, and putting back what is there changes nothing. Adding and deleting below a path replace the
container at the path. Deleting keeps keys distinct.
-/

namespace JsonDelta.Document

variable {d d' a b : Document} {segment : Segment} {path : Path}

/-! One step down. -/

theorem child?_setChild (h : d.child? segment = some a) (b : Document) :
    (d.setChild segment b).child? segment = some b := by
  match d, segment with
  | object members, .key name => simp [setChild, child?, Members.lookup_put]
  | array items, .index (.ofNat i) =>
      have hi : i < items.length := (List.getElem?_eq_some_iff.1 h).1
      simp [setChild, child?, hi]

theorem child?_setChild_of_ne {other : Segment} (h : d.child? segment = some a)
    (hne : other ≠ segment) (b : Document) :
    (d.setChild segment b).child? other = d.child? other := by
  match d, segment, other with
  | object members, .key name, .key other =>
      have hname : other ≠ name := fun heq => hne (congrArg Segment.key heq)
      rw [setChild, child?, Members.lookup_put, if_neg hname, child?]
  | object members, .key name, .index j => rfl
  | array items, .index (.ofNat i), .key other => rfl
  | array items, .index (.ofNat i), .index (.negSucc j) => rfl
  | array items, .index (.ofNat i), .index (.ofNat j) =>
      have hij : i ≠ j := fun heq => hne (heq ▸ rfl)
      rw [setChild, child?, List.getElem?_set_ne hij, child?]

theorem setChild_setChild (d : Document) (segment : Segment) (a b : Document) :
    (d.setChild segment a).setChild segment b = d.setChild segment b := by
  match d, segment with
  | object members, .key name => simp [setChild, Members.put_put]
  | array items, .index (.ofNat i) => simp [setChild]
  | array items, .index (.negSucc i) => rfl
  | array items, .key name => rfl
  | object members, .index i => rfl
  | null, _ | bool _, _ | number _, _ | string _, _ => rfl

theorem setChild_self (h : d.child? segment = some a) : d.setChild segment a = d := by
  match d, segment with
  | object members, .key name => rw [setChild, Members.put_eq_self h]
  | array items, .index (.ofNat i) =>
      obtain ⟨hi, rfl⟩ := List.getElem?_eq_some_iff.1 h
      rw [setChild, List.set_getElem_self]

theorem setChild_comm {other : Segment} (h : d.child? segment = some a) (hne : segment ≠ other)
    (ho : d.child? other = some b) (new value : Document) :
    (d.setChild segment new).setChild other value =
      (d.setChild other value).setChild segment new := by
  match d, segment, other with
  | object members, .key name, .key other =>
      have hname : name ≠ other := fun heq => hne (congrArg Segment.key heq)
      rw [setChild, setChild, Members.put_comm hname (Members.mem_keys_of_lookup h)]
      rfl
  | array items, .index (.ofNat i), .index (.ofNat j) =>
      have hij : i ≠ j := fun heq => hne (heq ▸ rfl)
      rw [setChild, setChild, List.set_comm _ _ hij]
      rfl

/-! Whole paths. -/

@[simp] theorem set?_nil (d value : Document) : d.set? [] value = some value := by
  cases d <;> rfl

theorem set?_cons (h : d.child? segment = some a) (b : Document) :
    d.set? (segment :: path) b = (a.set? path b).map (d.setChild segment) := by
  cases hs : a.set? path b <;> simp [set?, h, hs]

theorem get?_cons (h : d.child? segment = some a) :
    d.get? (segment :: path) = a.get? path := by
  rw [get?, h, Option.bind_some]

theorem exists_child?_of_get?_cons (h : d.get? (segment :: path) = some b) :
    ∃ a, d.child? segment = some a ∧ a.get? path = some b :=
  Option.bind_eq_some_iff.1 h

theorem exists_set?_of_get? (h : d.get? path = some a) (b : Document) :
    ∃ d', d.set? path b = some d' := by
  induction path generalizing d with
  | nil => exact ⟨b, set?_nil d b⟩
  | cons segment path ih =>
      obtain ⟨c, hc, hget⟩ := exists_child?_of_get?_cons h
      obtain ⟨c', hset⟩ := ih hget
      exact ⟨d.setChild segment c', by rw [set?_cons hc, hset, Option.map_some]⟩

theorem exists_child?_of_set?_cons (h : d.set? (segment :: path) b = some d') :
    ∃ a a', d.child? segment = some a ∧ a.set? path b = some a' ∧ d' = d.setChild segment a' := by
  cases hc : d.child? segment with
  | none => simp [set?, hc] at h
  | some a =>
      rw [set?_cons hc] at h
      obtain ⟨a', hset, rfl⟩ := Option.map_eq_some_iff.1 h
      exact ⟨a, a', rfl, hset, rfl⟩

theorem get?_set? (h : d.set? path b = some d') : d'.get? path = some b := by
  induction path generalizing d d' with
  | nil =>
      rw [set?_nil] at h
      cases h
      exact get?_nil b
  | cons segment path ih =>
      obtain ⟨a, a', ha, hset, rfl⟩ := exists_child?_of_set?_cons h
      rw [get?_cons (child?_setChild ha a')]
      exact ih hset

/-- At and below a replaced value the new value is read. -/
theorem get?_set?_append (h : d.set? path b = some d') (rest : Path) :
    d'.get? (path ++ rest) = b.get? rest := by
  rw [get?_append, get?_set? h, Option.bind_some]

/-- What neither lies below the replaced value nor runs through it is as before. -/
theorem get?_set?_of_not_prefix {other : Path} (h : d.set? path b = some d')
    (hpath : ¬ path <+: other) (hother : ¬ other <+: path) : d'.get? other = d.get? other := by
  induction path generalizing d d' other with
  | nil => exact absurd List.nil_prefix hpath
  | cons segment path ih =>
      obtain ⟨a, a', ha, hset, rfl⟩ := exists_child?_of_set?_cons h
      cases other with
      | nil => exact absurd List.nil_prefix hother
      | cons s other =>
          by_cases hs : s = segment
          · subst hs
            rw [List.cons_prefix_cons, not_and] at hpath hother
            rw [get?_cons (child?_setChild ha a'), get?_cons ha]
            exact ih hset (hpath rfl) (hother rfl)
          · rw [get?, get?, child?_setChild_of_ne ha hs]

theorem set?_set? (h : d.set? path a = some d') (b : Document) :
    d'.set? path b = d.set? path b := by
  induction path generalizing d d' with
  | nil => rw [set?_nil, set?_nil]
  | cons segment path ih =>
      obtain ⟨c, c', hc, hset, rfl⟩ := exists_child?_of_set?_cons h
      rw [set?_cons (child?_setChild hc c'), set?_cons hc, ih hset]
      congr 1
      funext e
      exact setChild_setChild d segment c' e

theorem set?_self (h : d.get? path = some a) : d.set? path a = some d := by
  induction path generalizing d with
  | nil =>
      rw [get?_nil] at h
      cases h
      exact set?_nil a a
  | cons segment path ih =>
      obtain ⟨c, hc, hget⟩ := exists_child?_of_get?_cons h
      rw [set?_cons hc, ih hget, Option.map_some, setChild_self hc]

theorem set?_append (h : d.get? path = some a) (hc : a.child? segment = some b) (new : Document) :
    d.set? (path ++ [segment]) new = d.set? path (a.setChild segment new) := by
  induction path generalizing d with
  | nil =>
      rw [get?_nil] at h
      cases h
      rw [List.nil_append, set?_cons hc, set?_nil, set?_nil, Option.map_some]
  | cons s path ih =>
      obtain ⟨c, hs, hget⟩ := exists_child?_of_get?_cons h
      rw [List.cons_append, set?_cons hs, set?_cons hs, ih hget]

/-! A child in the middle of the list of its container. -/

section Middle

variable {front behind : List Document} {before after : List (String × Document)} {i : Nat}
  {key : String}

theorem child?_array_middle (h : front.length = i) :
    (array (front ++ a :: behind)).child? (.index i) = some a := by
  subst h
  exact List.getElem?_append_right (Nat.le_refl _) |>.trans (by simp)

theorem setChild_array_middle (h : front.length = i) (b : Document) :
    (array (front ++ a :: behind)).setChild (.index i) b = array (front ++ b :: behind) := by
  subst h
  change array ((front ++ a :: behind).set front.length b) = _
  simp

theorem eraseChild?_array_middle (h : front.length = i) :
    (array (front ++ a :: behind)).eraseChild? (.index i) = some (array (front ++ behind)) := by
  have hchild : (array (front ++ a :: behind)).child? (.index (.ofNat i)) = some a :=
    child?_array_middle h
  change (array (front ++ a :: behind)).eraseChild? (.index (.ofNat i)) = _
  simp only [eraseChild?, hchild]
  rw [List.eraseIdx_append_of_length_le (Nat.le_of_eq h), h, Nat.sub_self]
  rfl

theorem child?_object_middle (h : key ∉ before.map Prod.fst) :
    (object (before ++ (key, a) :: after)).child? (.key key) = some a :=
  Members.lookup_append_cons h

theorem setChild_object_middle (h : key ∉ before.map Prod.fst) (b : Document) :
    (object (before ++ (key, a) :: after)).setChild (.key key) b =
      object (before ++ (key, b) :: after) := by
  rw [setChild, Members.put_append_cons h]

theorem eraseChild?_object_middle (h : key ∉ before.map Prod.fst) :
    (object (before ++ (key, a) :: after)).eraseChild? (.key key) =
      some (object (before ++ after)) := by
  have hchild : (object (before ++ (key, a) :: after)).child? (.key key) = some a :=
    child?_object_middle h
  simp [eraseChild?, hchild, Members.erase_append_cons h]

end Middle

/-! Deleting a child, and adding one. -/

theorem delete?_cons (h : d.child? segment = some a) (hp : path ≠ []) :
    d.delete? (segment :: path) = (a.delete? path).map (d.setChild segment) := by
  obtain ⟨s, rest, rfl⟩ := List.exists_cons_of_ne_nil hp
  cases hd : a.delete? (s :: rest) <;> simp [delete?, h, hd]

theorem delete?_cons_of_child?_eq_none (h : d.child? segment = none) :
    d.delete? (segment :: path) = none := by
  cases path with
  | nil => simp [delete?, eraseChild?, h]
  | cons s path => simp [delete?, h]

/-- A deletion is that of a child, or it happens inside one. -/
theorem exists_child?_of_delete?_cons (h : d.delete? (segment :: path) = some d') :
    ∃ a, d.child? segment = some a ∧
      ((path = [] ∧ d.eraseChild? segment = some d') ∨
        ∃ a', a.delete? path = some a' ∧ d' = d.setChild segment a') := by
  cases hc : d.child? segment with
  | none =>
      rw [delete?_cons_of_child?_eq_none hc] at h
      cases h
  | some a =>
      refine ⟨a, rfl, ?_⟩
      by_cases hp : path = []
      · subst hp
        exact .inl ⟨rfl, h⟩
      · rw [delete?_cons hc hp] at h
        obtain ⟨a', ha', rfl⟩ := Option.map_eq_some_iff.1 h
        exact .inr ⟨a', ha', rfl⟩

theorem exists_eraseChild?_of_child? (h : d.child? segment = some a) :
    ∃ d', d.eraseChild? segment = some d' := by
  match d, segment with
  | object members, .key name =>
      unfold eraseChild?
      rw [h]
      exact ⟨_, rfl⟩
  | array items, .index (.ofNat i) =>
      unfold eraseChild?
      rw [h]
      exact ⟨_, rfl⟩

/-- What is there can be deleted, but for the whole document. -/
theorem get?_eq_none_of_delete?_eq_none (hp : path ≠ []) (h : d.delete? path = none) :
    d.get? path = none := by
  induction path generalizing d with
  | nil => exact absurd rfl hp
  | cons segment path ih =>
      cases hc : d.child? segment with
      | none => rw [get?, hc, Option.bind_none]
      | some a =>
          rw [get?_cons hc]
          by_cases hp' : path = []
          · subst hp'
            obtain ⟨d', hd'⟩ := exists_eraseChild?_of_child? hc
            rw [delete?, hd'] at h
            cases h
          · rw [delete?_cons hc hp', Option.map_eq_none_iff] at h
            exact ih hp' h

theorem delete?_append {a' : Document} (h : d.get? path = some a)
    (he : a.eraseChild? segment = some a') :
    d.delete? (path ++ [segment]) = d.set? path a' := by
  induction path generalizing d with
  | nil =>
      rw [get?_nil] at h
      cases h
      rw [List.nil_append, delete?, he, set?_nil]
  | cons s path ih =>
      obtain ⟨c, hs, hget⟩ := exists_child?_of_get?_cons h
      rw [List.cons_append, delete?_cons hs (by simp), set?_cons hs, ih hget]

/-- A new member goes to the end of an object that lacks its key, a new item to the end of an array,
whatever its index. -/
def addChild? : Document → Segment → Document → Option Document
  | object members, .key name, value =>
    if name ∈ members.map Prod.fst then none else some (object (members ++ [(name, value)]))
  | array items, .index _, value => some (array (items ++ [value]))
  | _, _, _ => none

/-- The document with a new child of the container one step above the path. -/
def add? : Document → Path → Document → Option Document
  | _, [], _ => none
  | d, [segment], value => d.addChild? segment value
  | d, segment :: path, value => do
    let child ← d.child? segment
    return d.setChild segment (← child.add? path value)

theorem add?_cons (h : d.child? segment = some a) (hp : path ≠ []) (value : Document) :
    d.add? (segment :: path) value = (a.add? path value).map (d.setChild segment) := by
  obtain ⟨s, rest, rfl⟩ := List.exists_cons_of_ne_nil hp
  cases hd : a.add? (s :: rest) value <;> simp [add?, h, hd]

theorem add?_append {a' value : Document} (h : d.get? path = some a)
    (ha : a.addChild? segment value = some a') :
    d.add? (path ++ [segment]) value = d.set? path a' := by
  induction path generalizing d with
  | nil =>
      rw [get?_nil] at h
      cases h
      rw [List.nil_append, add?, ha, set?_nil]
  | cons s path ih =>
      obtain ⟨c, hs, hget⟩ := exists_child?_of_get?_cons h
      rw [List.cons_append, add?_cons hs (by simp), set?_cons hs, ih hget]

/-! Deleting keeps keys distinct. -/

theorem keysDistinct_of_child? (hd : d.KeysDistinct) (h : d.child? segment = some a) :
    a.KeysDistinct := by
  match d, segment with
  | object members, .key name => exact (keysDistinct_object.1 hd).2 _ (Members.mem_of_lookup h)
  | array items, .index (.ofNat i) => exact keysDistinct_array.1 hd a (List.mem_of_getElem? h)

theorem keysDistinct_of_get? (hd : d.KeysDistinct) (h : d.get? path = some a) :
    a.KeysDistinct := by
  induction path generalizing d with
  | nil =>
      rw [get?_nil] at h
      cases h
      exact hd
  | cons segment path ih =>
      obtain ⟨c, hc, hget⟩ := exists_child?_of_get?_cons h
      exact ih (keysDistinct_of_child? hd hc) hget

theorem keysDistinct_setChild (hd : d.KeysDistinct) (ha : a.KeysDistinct) (segment : Segment) :
    (d.setChild segment a).KeysDistinct := by
  match d, segment with
  | object members, .key name => exact Members.keysDistinct_put hd ha
  | array items, .index (.ofNat i) =>
      refine keysDistinct_array.2 fun item hi => ?_
      rcases List.mem_or_eq_of_mem_set hi with hi | rfl
      · exact keysDistinct_array.1 hd item hi
      · exact ha
  | array items, .index (.negSucc i) => exact hd
  | array items, .key name => exact hd
  | object members, .index i => exact hd
  | null, _ | bool _, _ | number _, _ | string _, _ => exact hd

theorem keysDistinct_eraseChild? (hd : d.KeysDistinct) (h : d.eraseChild? segment = some d') :
    d'.KeysDistinct := by
  unfold eraseChild? at h
  split at h
  · rename_i members name _
    cases h
    rw [keysDistinct_object] at hd ⊢
    have hsub := Members.erase_sublist name members
    exact ⟨(hsub.map Prod.fst).nodup hd.1, fun m hm => hd.2 m (hsub.subset hm)⟩
  · cases h
    rw [keysDistinct_array] at hd ⊢
    exact fun item hi => hd item ((List.eraseIdx_sublist ..).subset hi)
  · cases h

theorem keysDistinct_delete? (hd : d.KeysDistinct) (h : d.delete? path = some d') :
    d'.KeysDistinct := by
  induction path generalizing d d' with
  | nil => simp [delete?] at h
  | cons segment path ih =>
      obtain ⟨a, hc, ⟨rfl, herase⟩ | ⟨a', ha', rfl⟩⟩ := exists_child?_of_delete?_cons h
      · exact keysDistinct_eraseChild? hd herase
      · exact keysDistinct_setChild hd (ih (keysDistinct_of_child? hd hc) ha') segment

/-! Stripping is deleting one path after the other. -/

/-- The deletions that are counted do not depend on the count. -/
theorem fst_strip (d : Document) (paths : List Path) :
    (d.strip paths).1 = paths.foldl (fun d path => (d.delete? path).getD d) d := by
  refine (List.foldl_hom Prod.fst fun counted path => ?_).symm
  cases h : counted.1.delete? path <;> simp [h]

theorem strip_cons (d : Document) (path : Path) (paths : List Path) :
    (d.strip (path :: paths)).1 = (((d.delete? path).getD d).strip paths).1 := by
  rw [fst_strip, fst_strip, List.foldl_cons]

theorem strip_append (d : Document) (paths others : List Path) :
    (d.strip (paths ++ others)).1 = ((d.strip paths).1.strip others).1 := by
  rw [fst_strip, fst_strip, fst_strip, List.foldl_append]

/-- What every deletion keeps holds after stripping. -/
theorem strip_invariant {P : Document → Prop}
    (keeps : ∀ d path d', P d → d.delete? path = some d' → P d') (h : P d) (paths : List Path) :
    P (d.strip paths).1 := by
  induction paths generalizing d with
  | nil => exact h
  | cons path paths ih =>
      rw [strip_cons]
      cases hd : d.delete? path with
      | none => exact ih h
      | some d' => exact ih (keeps d path d' h hd)

theorem keysDistinct_strip (hd : d.KeysDistinct) (paths : List Path) :
    (d.strip paths).1.KeysDistinct :=
  strip_invariant (fun _ _ _ => keysDistinct_delete?) hd paths

end JsonDelta.Document
