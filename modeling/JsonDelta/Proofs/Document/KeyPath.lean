import JsonDelta.Proofs.Document.Edit
/-!
Paths of keys alone. They go through no array, so no deletion makes them lead anywhere else. Main
statement: once such a path has been stripped, it leads nowhere, whatever else is stripped before
and after it.
-/

namespace JsonDelta

namespace Path

def KeysOnly (path : Path) : Prop := ∀ segment ∈ path, ∃ name, segment = .key name

variable {p q : Path}

theorem keysOnly_cons {segment : Segment} :
    KeysOnly (segment :: p) ↔ (∃ name, segment = .key name) ∧ KeysOnly p :=
  List.forall_mem_cons

theorem not_keysOnly_index {i : Int} : ¬ KeysOnly (p.child (.index i)) := by
  intro h
  obtain ⟨name, hname⟩ := h (.index i) (by simp [child])
  cases hname

end Path

namespace Members

variable {key other : String} {members : List (String × Document)}

theorem lookup_erase (hm : (members.map Prod.fst).Nodup) :
    (erase key members).lookup other = if other = key then none else members.lookup other := by
  induction members with
  | nil => simp [erase]
  | cons m members ih =>
      obtain ⟨k, v⟩ := m
      obtain ⟨hk, hm⟩ := List.nodup_cons.1 hm
      rw [erase]
      by_cases hkey : k = key
      · subst hkey
        by_cases ho : other = k
        · subst ho
          rw [if_pos rfl, if_pos rfl, lookup_eq_none_iff]
          exact hk
        · simp [List.lookup_cons, ho, beq_false_of_ne ho]
      · by_cases ho : other = k
        · subst ho
          simp [hkey]
        · simp [hkey, List.lookup_cons, beq_false_of_ne ho, ih hm]

end Members

namespace Document

variable {d d' a : Document} {segment : Segment} {name : String} {p q : Path} {paths : List Path}

/-! What an edit does to the members of the document itself. -/

theorem child?_key_eraseChild? (hd : d.KeysDistinct) (h : d.eraseChild? segment = some d') :
    d'.child? (.key name) = if segment = .key name then none else d.child? (.key name) := by
  unfold eraseChild? at h
  split at h
  · rename_i members key hchild
    cases h
    simp only [child?, Members.lookup_erase (keysDistinct_object.1 hd).1, Segment.key.injEq,
      eq_comm]
  · cases h
    simp [child?]
  · cases h

theorem child?_key_setChild (h : d.child? segment = some a) (b : Document) :
    (d.setChild segment b).child? (.key name) =
      if segment = .key name then some b else d.child? (.key name) := by
  split
  · rename_i heq
    subst heq
    exact child?_setChild h b
  · exact child?_setChild_of_ne h (Ne.symm ‹_›) b

/-! What deleting and stripping do to a path of keys. -/

theorem get?_delete?_self (hd : d.KeysDistinct) (hp : p.KeysOnly) (h : d.delete? p = some d') :
    d'.get? p = none := by
  induction p generalizing d d' with
  | nil => simp [delete?] at h
  | cons segment p ih =>
      obtain ⟨⟨name, rfl⟩, hrest⟩ := Path.keysOnly_cons.1 hp
      obtain ⟨a, hc, ⟨rfl, herase⟩ | ⟨a', ha', rfl⟩⟩ := exists_child?_of_delete?_cons h
      · rw [get?, child?_key_eraseChild? hd herase, if_pos rfl, Option.bind_none]
      · rw [get?_cons (child?_setChild hc a')]
        exact ih (keysDistinct_of_child? hd hc) hrest ha'

/-- Keys that lead nowhere lead nowhere after a deletion. -/
theorem get?_delete?_eq_none (hd : d.KeysDistinct) (hp : p.KeysOnly) (h : d.delete? q = some d')
    (hnone : d.get? p = none) : d'.get? p = none := by
  induction q generalizing d d' p with
  | nil => simp [delete?] at h
  | cons segment q ih =>
      cases p with
      | nil => simp at hnone
      | cons s p =>
          obtain ⟨⟨name, rfl⟩, hrest⟩ := Path.keysOnly_cons.1 hp
          obtain ⟨a, hc, ⟨rfl, herase⟩ | ⟨a', ha', rfl⟩⟩ := exists_child?_of_delete?_cons h
          · rw [get?, child?_key_eraseChild? hd herase]
            split
            · rfl
            · exact hnone
          · rw [get?, child?_key_setChild hc]
            split
            · rename_i heq
              subst heq
              rw [get?_cons hc] at hnone
              exact ih (keysDistinct_of_child? hd hc) hrest ha' hnone
            · exact hnone

theorem get?_strip_eq_none (hd : d.KeysDistinct) (hp : p.KeysOnly) (hnone : d.get? p = none)
    (paths : List Path) : (d.strip paths).1.get? p = none := by
  have hkeeps (d path d') (hd : KeysDistinct d ∧ d.get? p = none) (h : d.delete? path = some d') :
      KeysDistinct d' ∧ d'.get? p = none :=
    ⟨keysDistinct_delete? hd.1 h, get?_delete?_eq_none hd.1 hp h hd.2⟩
  exact (strip_invariant hkeeps ⟨hd, hnone⟩ paths).2

/-- Stripped keys lead nowhere any more. -/
theorem get?_strip_of_mem (hd : d.KeysDistinct) (hp : p.KeysOnly) (hne : p ≠ [])
    (hmem : p ∈ paths) : (d.strip paths).1.get? p = none := by
  obtain ⟨before, after, rfl⟩ := List.append_of_mem hmem
  have hd' := keysDistinct_strip hd before
  rw [strip_append, strip_cons]
  cases h : (d.strip before).1.delete? p with
  | none => exact get?_strip_eq_none hd' hp (get?_eq_none_of_delete?_eq_none hne h) after
  | some d' =>
      exact get?_strip_eq_none (keysDistinct_delete? hd' h) hp (get?_delete?_self hd' hp h) after

end Document

end JsonDelta
