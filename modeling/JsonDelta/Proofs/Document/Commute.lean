import JsonDelta.Proofs.Document.KeyPath
import JsonDelta.Proofs.Document.Without
/-!
Deletions that commute. A deletion moves the items behind a deleted one, so two deletions need not
commute, but a path of keys goes through no array: deleting it commutes with every other deletion.
Main statement: what stripping leaves does not depend on what was at a stripped path of keys.
-/

namespace JsonDelta.Document

variable {d d' value : Document} {p q : Path} {paths : List Path}

/-! One deletion is the removal of a single place. -/

theorem getD_delete?_eq_without (hd : d.KeysDistinct) (p : Path) :
    (d.delete? p).getD d = d.without [p] := by
  have hnone : ∀ q ∈ ([] : List Path), d.Undisturbed q p := nofun
  have hdelete := delete?_without hd hnone
  rwa [without_nil] at hdelete

theorem without_eq_of_delete? (hd : d.KeysDistinct) (h : d.delete? p = some d') :
    d.without [p] = d' := by
  rw [← getD_delete?_eq_without hd, h, Option.getD_some]

theorem keysDistinct_without (hd : d.KeysDistinct) (p : Path) : (d.without [p]).KeysDistinct := by
  rw [← getD_delete?_eq_without hd]
  cases h : d.delete? p with
  | none => exact hd
  | some d' => exact keysDistinct_delete? hd h

theorem exists_get?_of_delete? (h : d.delete? p = some d') : ∃ a, d.get? p = some a := by
  induction p generalizing d d' with
  | nil => simp [delete?] at h
  | cons segment p ih =>
      obtain ⟨a, hc, ⟨rfl, _⟩ | ⟨a', ha', _⟩⟩ := exists_child?_of_delete?_cons h
      · exact ⟨a, by rw [get?_cons hc, get?_nil]⟩
      · rw [get?_cons hc]
        exact ih ha'

/-- A path that leads nowhere takes nothing away. -/
theorem without_eq_self (hd : d.KeysDistinct) (h : d.get? p = none) : d.without [p] = d := by
  cases hdelete : d.delete? p with
  | none => rw [← getD_delete?_eq_without hd, hdelete, Option.getD_none]
  | some d' =>
      obtain ⟨a, ha⟩ := exists_get?_of_delete? hdelete
      rw [h] at ha
      cases ha

/-! Two deletions. -/

theorem without?_nil (d : Document) : d.without? [] = some d := by simp [without?, without_nil]

/-- The whole document is not taken away. -/
theorem without_whole (d : Document) : d.without [[]] = d := by
  have hsame : d.without [[]] = d.without [] := without_congr fun _ _ _ _ => by simp
  rw [hsame, without_nil]

/-- An array has nothing at a path that starts with a key. -/
theorem array_without_key {name : String} (items : List Document) :
    (array items).without [.key name :: p] = array items := by
  rw [without_cons_of_child?_eq_none rfl, without_nil]

theorem below_singleton (segment : Segment) (p : Path) :
    Path.below segment [p] = [] ∨
      ∃ rest, p = segment :: rest ∧ Path.below segment [p] = [rest] := by
  cases p with
  | nil => exact .inl rfl
  | cons s rest =>
      by_cases h : s = segment
      · subst h
        exact .inr ⟨rest, rfl, Path.below_cons_self⟩
      · exact .inl (Path.below_cons_of_ne h)

/-- Two deletions at or below one child commute if they commute inside it. -/
theorem without?_bind_comm (h : (d.without [p]).without [q] = (d.without [q]).without [p]) :
    (d.without? [p]).bind (·.without? [q]) = (d.without? [q]).bind (·.without? [p]) := by
  cases p with
  | nil => cases q <;> simp [without?]
  | cons s p =>
      cases q with
      | nil => simp [without?]
      | cons t q => simpa [without?] using h

theorem memberLeft_bind (paths others : List Path) (m : String × Document) :
    (memberLeft paths m).bind (memberLeft others) =
      ((m.2.without? (Path.below (.key m.1) paths)).bind
        (·.without? (Path.below (.key m.1) others))).map (m.1, ·) := by
  rw [memberLeft]
  cases m.2.without? (Path.below (.key m.1) paths) <;> rfl

/-- Deleting a path of keys commutes with every deletion. -/
theorem without_comm (hp : p.KeysOnly) (d : Document) (q : Path) :
    (d.without [p]).without [q] = (d.without [q]).without [p] := by
  induction d using Document.induction generalizing p q with
  | scalar d hd => simp only [without_scalar hd]
  | array items ih =>
      cases p with
      | nil => rw [without_whole, without_whole]
      | cons s p =>
          obtain ⟨⟨name, rfl⟩, -⟩ := Path.keysOnly_cons.1 hp
          rw [array_without_key, without_array, array_without_key]
  | object members ih =>
      simp only [without_object, List.filterMap_filterMap]
      congr 1
      refine List.filterMap_congr fun m hm => ?_
      rw [memberLeft_bind, memberLeft_bind]
      congr 1
      -- Only deletions that reach this member matter.
      rcases below_singleton (.key m.1) p with hnone | ⟨p, rfl, hbelow⟩
      · rw [hnone, without?_nil, Option.bind_some]
        cases m.2.without? (Path.below (.key m.1) [q]) <;> simp [without?_nil]
      · rw [hbelow]
        rcases below_singleton (.key m.1) q with hnone | ⟨q, rfl, hbelow⟩
        · rw [hnone, without?_nil, Option.bind_some]
          cases m.2.without? [p] <;> simp [without?_nil]
        · rw [hbelow]
          exact without?_bind_comm (ih m hm (Path.keysOnly_cons.1 hp).2 q)

/-! All deletions of a run. -/

theorem strip_cons_eq_without (hd : d.KeysDistinct) (path : Path) (paths : List Path) :
    (d.strip (path :: paths)).1 = ((d.without [path]).strip paths).1 := by
  rw [strip_cons, getD_delete?_eq_without hd]

/-- A path of keys may be deleted before a run or after it. -/
theorem strip_without_comm (hd : d.KeysDistinct) (hp : p.KeysOnly) (paths : List Path) :
    ((d.without [p]).strip paths).1 = (d.strip paths).1.without [p] := by
  induction paths generalizing d with
  | nil => rfl
  | cons path paths ih =>
      rw [strip_cons_eq_without (keysDistinct_without hd p), without_comm hp,
        ih (keysDistinct_without hd path), strip_cons_eq_without hd]

/-- What is deleted during a run may as well be deleted before it. -/
theorem strip_without_of_mem (hd : d.KeysDistinct) (hp : p.KeysOnly) (hne : p ≠ [])
    (hmem : p ∈ paths) : ((d.without [p]).strip paths).1 = (d.strip paths).1 := by
  rw [strip_without_comm hd hp]
  exact without_eq_self (keysDistinct_strip hd paths) (get?_strip_of_mem hd hp hne hmem)

/-! Documents that are the same but for one place. -/

/-- The value at the path was replaced or deleted, or nothing was done. -/
inductive ChangedAt (path : Path) (d : Document) : Document → Prop
  | kept : ChangedAt path d d
  | replaced {value d' : Document} (distinct : value.KeysDistinct)
    (set : d.set? path value = some d') : ChangedAt path d d'
  | deleted {d' : Document} (delete : d.delete? path = some d') : ChangedAt path d d'

theorem eraseChild?_setChild {segment : Segment} {a : Document} (h : d.child? segment = some a)
    (b : Document) : (d.setChild segment b).eraseChild? segment = d.eraseChild? segment := by
  match d, segment with
  | object members, .key name =>
      obtain ⟨before, after, rfl, hbefore⟩ := Members.exists_append_cons_of_lookup h
      rw [setChild_object_middle hbefore, eraseChild?_object_middle hbefore,
        eraseChild?_object_middle hbefore]
  | array items, .index (.ofNat i) =>
      obtain ⟨front, behind, rfl, hfront⟩ := exists_append_cons_of_getElem? h
      simp only [Int.ofNat_eq_natCast, setChild_array_middle hfront,
        eraseChild?_array_middle hfront]

/-- Deleting a value forgets what it was replaced by. -/
theorem delete?_set? (hp : p ≠ []) (h : d.set? p value = some d') :
    d'.delete? p = d.delete? p := by
  induction p generalizing d d' with
  | nil => exact absurd rfl hp
  | cons segment p ih =>
      obtain ⟨a, a', hc, hset, rfl⟩ := exists_child?_of_set?_cons h
      by_cases hp : p = []
      · subst hp
        exact eraseChild?_setChild hc a'
      · rw [delete?_cons hc hp, delete?_cons (child?_setChild hc a') hp, ih hp hset]
        congr 1
        funext e
        exact setChild_setChild d segment a' e

theorem exists_get?_of_set? (h : d.set? p value = some d') : ∃ a, d.get? p = some a := by
  induction p generalizing d d' with
  | nil => exact ⟨d, get?_nil d⟩
  | cons segment p ih =>
      obtain ⟨a, a', hc, hset, _⟩ := exists_child?_of_set?_cons h
      rw [get?_cons hc]
      exact ih hset

theorem keysDistinct_set? (hd : d.KeysDistinct) (hv : value.KeysDistinct)
    (h : d.set? p value = some d') : d'.KeysDistinct := by
  induction p generalizing d d' with
  | nil =>
      rw [set?_nil] at h
      cases h
      exact hv
  | cons segment p ih =>
      obtain ⟨a, a', hc, hset, rfl⟩ := exists_child?_of_set?_cons h
      exact keysDistinct_setChild hd (ih (keysDistinct_of_child? hd hc) hset) segment

namespace ChangedAt

theorem keysDistinct (h : d.ChangedAt p d') (hd : d.KeysDistinct) : d'.KeysDistinct := by
  cases h with
  | kept => exact hd
  | replaced distinct set => exact keysDistinct_set? hd distinct set
  | deleted delete => exact keysDistinct_delete? hd delete

/-- What is left without the place is the same. -/
theorem without_eq (h : d.ChangedAt p d') (hd : d.KeysDistinct) (hp : p.KeysOnly) (hne : p ≠ []) :
    d'.without [p] = d.without [p] := by
  have hd' := h.keysDistinct hd
  cases h with
  | kept => rfl
  | replaced _ set =>
      cases hdelete : d.delete? p with
      | none =>
          obtain ⟨a, hget⟩ := exists_get?_of_set? set
          rw [get?_eq_none_of_delete?_eq_none hne hdelete] at hget
          cases hget
      | some e =>
          rw [without_eq_of_delete? hd hdelete]
          exact without_eq_of_delete? hd' ((delete?_set? hne set).trans hdelete)
  | deleted delete =>
      rw [without_eq_of_delete? hd delete]
      exact without_eq_self hd' (get?_delete?_self hd hp delete)

/-- Stripping forgets a change at a stripped path of keys. -/
theorem strip_eq (h : d.ChangedAt p d') (hd : d.KeysDistinct) (hp : p.KeysOnly) (hne : p ≠ [])
    (hmem : p ∈ paths) : (d'.strip paths).1 = (d.strip paths).1 := by
  rw [← strip_without_of_mem (h.keysDistinct hd) hp hne hmem, h.without_eq hd hp hne,
    strip_without_of_mem hd hp hne hmem]

end ChangedAt

end JsonDelta.Document
