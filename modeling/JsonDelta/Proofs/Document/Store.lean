import JsonDelta.Proofs.Document.Commute
/-!
Storing by path. A store replaces the value that a look-up finds and does nothing where there is
none. Main statement: a store and a look-up agree on whether there is a value; what is read after a
store follows from the two paths alone; the last of two stores at one path counts, and stores at
paths of which neither runs through the other commute.
-/

namespace JsonDelta.Document

variable {d d' d'' a value other : Document} {p q : Path}

/-- The document with `value` at the path if a value is there, and else the document as it is. -/
def store (d : Document) (path : Path) (value : Document) : Document :=
  (d.set? path value).getD d

theorem set?_isSome_iff : (d.set? p value).isSome ↔ (d.get? p).isSome := by
  simp only [Option.isSome_iff_exists]
  constructor
  · rintro ⟨d', hset⟩
    exact exists_get?_of_set? hset
  · rintro ⟨a, hget⟩
    exact exists_set?_of_get? hget value

theorem set?_eq_none_iff : d.set? p value = none ↔ d.get? p = none := by
  rw [← Option.not_isSome_iff_eq_none, ← Option.not_isSome_iff_eq_none, set?_isSome_iff]

/-! One store. -/

theorem store_eq_of_set? (h : d.set? p value = some d') : d.store p value = d' := by
  rw [store, h, Option.getD_some]

theorem store_eq_self (h : d.get? p = none) : d.store p value = d := by
  rw [store, set?_eq_none_iff.2 h, Option.getD_none]

theorem set?_eq_some_store (h : d.get? p = some a) (value : Document) :
    d.set? p value = some (d.store p value) := by
  obtain ⟨d', hset⟩ := exists_set?_of_get? h value
  rw [hset, store_eq_of_set? hset]

theorem get?_store_of_not_prefix (hp : ¬ p <+: q) (hq : ¬ q <+: p) :
    (d.store p value).get? q = d.get? q := by
  cases hget : d.get? p with
  | none => rw [store_eq_self hget]
  | some a => exact get?_set?_of_not_prefix (set?_eq_some_store hget value) hp hq

theorem store_cons {segment : Segment} (h : d.child? segment = some a) (p : Path)
    (value : Document) : d.store (segment :: p) value = d.setChild segment (a.store p value) := by
  cases hset : a.set? p value with
  | none =>
      have hnone : d.set? (segment :: p) value = none := by rw [set?_cons h, hset, Option.map_none]
      rw [store, store, hset, hnone, Option.getD_none, Option.getD_none, setChild_self h]
  | some a' =>
      rw [store, store, set?_cons h, hset, Option.map_some, Option.getD_some, Option.getD_some]

/-- A container is read with the store made in it. -/
theorem get?_store_append (d : Document) (q rest : Path) (value : Document) :
    (d.store (q ++ rest) value).get? q = (d.get? q).map (·.store rest value) := by
  induction q generalizing d with
  | nil => rw [List.nil_append, get?_nil, get?_nil, Option.map_some]
  | cons segment q ih =>
      cases hc : d.child? segment with
      | none =>
          have hget (rest : Path) : d.get? (segment :: rest) = none := by
            rw [get?, hc, Option.bind_none]
          rw [List.cons_append, store_eq_self (hget _), hget, Option.map_none]
      | some a =>
          rw [List.cons_append, store_cons hc, get?_cons (child?_setChild hc _), ih, get?_cons hc]

/-! Two stores. -/

theorem store_store (d : Document) (p : Path) (value other : Document) :
    (d.store p value).store p other = d.store p other := by
  cases hget : d.get? p with
  | none => rw [store_eq_self hget]
  | some a =>
      have hlast := set?_set? (set?_eq_some_store hget value) other
      rw [store, hlast, set?_eq_some_store hget other, Option.getD_some]

/-- Two replacements may change places. -/
theorem exists_set?_of_set?_set? (hp : ¬ p <+: q) (hq : ¬ q <+: p)
    (hfirst : d.set? p value = some d') (hsecond : d'.set? q other = some d'') :
    ∃ e, d.set? q other = some e ∧ e.set? p value = some d'' := by
  induction p generalizing d d' d'' q with
  | nil => exact absurd List.nil_prefix hp
  | cons s p ih =>
      cases q with
      | nil => exact absurd List.nil_prefix hq
      | cons t q =>
          obtain ⟨a, a', ha, hset, rfl⟩ := exists_child?_of_set?_cons hfirst
          obtain ⟨b, b', hb, hother, rfl⟩ := exists_child?_of_set?_cons hsecond
          by_cases hst : s = t
          · -- Both replacements happen inside one child.
            subst hst
            rw [List.cons_prefix_cons, not_and] at hp hq
            obtain rfl : a' = b := Option.some.inj ((child?_setChild ha a').symm.trans hb)
            obtain ⟨e, hinner, houter⟩ := ih (hp rfl) (hq rfl) hset hother
            refine ⟨d.setChild s e, ?_, ?_⟩
            · rw [set?_cons ha, hinner, Option.map_some]
            · rw [set?_cons (child?_setChild ha e), houter, Option.map_some, setChild_setChild,
                setChild_setChild]
          · have hts : t ≠ s := Ne.symm hst
            rw [child?_setChild_of_ne ha hts] at hb
            refine ⟨d.setChild t b', ?_, ?_⟩
            · rw [set?_cons hb, hother, Option.map_some]
            · have hchild := (child?_setChild_of_ne hb hst b').trans ha
              rw [set?_cons hchild, hset, Option.map_some, setChild_comm hb hts ha]

theorem store_comm (hp : ¬ p <+: q) (hq : ¬ q <+: p) (d value other : Document) :
    (d.store p value).store q other = (d.store q other).store p value := by
  have hread : (d.store p value).get? q = d.get? q := get?_store_of_not_prefix hp hq
  have hreread : (d.store q other).get? p = d.get? p := get?_store_of_not_prefix hq hp
  cases hpget : d.get? p with
  | none => rw [store_eq_self hpget, store_eq_self (hreread.trans hpget)]
  | some a =>
      cases hqget : d.get? q with
      | none => rw [store_eq_self hqget, store_eq_self (hread.trans hqget)]
      | some b =>
          have hfirst := set?_eq_some_store hpget value
          have hsecond := set?_eq_some_store (hread.trans hqget) other
          obtain ⟨e, hother, hvalue⟩ := exists_set?_of_set?_set? hp hq hfirst hsecond
          rw [store_eq_of_set? hother, store_eq_of_set? hvalue]

/-- Look-ups and stores by path agree: a store takes effect exactly where a look-up finds a value,
below the path the new value is read, above it the old containers with the store made in them, and
elsewhere what was there; storing what is there changes nothing, the later of two stores at one path
counts, and stores at paths of which neither runs through the other commute. -/
theorem get?_store_and_store_comm (d : Document) (p : Path) (value : Document) :
    ((d.set? p value).isSome ↔ (d.get? p).isSome) ∧
      (d.get? p = none → d.store p value = d) ∧
      ((d.get? p).isSome → ∀ rest, (d.store p value).get? (p ++ rest) = value.get? rest) ∧
      (∀ q rest, p = q ++ rest →
        (d.store p value).get? q = (d.get? q).map (·.store rest value)) ∧
      (∀ q, ¬ p <+: q → ¬ q <+: p → (d.store p value).get? q = d.get? q) ∧
      (d.get? p = some value → d.store p value = d) ∧
      (∀ later, (d.store p value).store p later = d.store p later) ∧
      ∀ q other, ¬ p <+: q → ¬ q <+: p →
        (d.store p value).store q other = (d.store q other).store p value := by
  refine ⟨set?_isSome_iff, store_eq_self, fun hsome rest => ?_, ?_,
    fun q => get?_store_of_not_prefix, fun hget => store_eq_of_set? (set?_self hget),
    store_store d p value, fun q other hp hq => store_comm hp hq d value other⟩
  · obtain ⟨a, hget⟩ := Option.isSome_iff_exists.1 hsome
    exact get?_set?_append (set?_eq_some_store hget value) rest
  · rintro q rest rfl
    exact get?_store_append d q rest value

/-- An object inside an array gives way to an array, while another item and a place that is not
there are stored to. -/
theorem get?_store_and_store_comm_nested :
    let d := object [("a", array [null, object [("x", null), ("y", bool true)]]), ("b", null)]
    let value := array [bool false]
    let p : Path := [.key "a", .index 1]
    let beside : Path := [.key "a", .index 0]
    let absent : Path := [.key "a", .key "b"]
    (d.get? p).isSome ∧ d.get? absent = none ∧
      (d.store p value).get? [.key "a", .index 1, .index 0] = some (bool false) ∧
      (d.store p value).get? [.key "a"] = some (array [null, value]) ∧
      ¬ p <+: beside ∧ ¬ beside <+: p ∧ (d.store p value).get? beside = some null ∧
      d.get? beside = some null ∧ d.store beside null = d ∧
      (d.store p value).store beside value = (d.store beside value).store p value ∧
      d.store absent value = d := by
  intro d value p beside absent
  have hp : ¬ p <+: beside := by decide
  have hbeside : ¬ beside <+: p := by decide
  obtain ⟨-, -, hbelow, habove, helsewhere, -, -, hcomm⟩ := get?_store_and_store_comm d p value
  obtain ⟨-, -, -, -, -, hself, -, -⟩ := get?_store_and_store_comm d beside null
  obtain ⟨-, hnone, -, -, -, -, -, -⟩ := get?_store_and_store_comm d absent value
  exact ⟨rfl, rfl, hbelow rfl [.index 0], habove [.key "a"] [.index 1] rfl, hp, hbeside,
    helsewhere beside hp hbeside, rfl, hself rfl, hcomm beside value hp hbeside, hnone rfl⟩

end JsonDelta.Document
