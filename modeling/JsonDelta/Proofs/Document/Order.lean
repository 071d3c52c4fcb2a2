import Mathlib.Data.List.Infix
import JsonDelta.Document.Edit
/-!
How paths lie to each other in a document. A path comes before another one if, where the two part,
it goes on to the earlier child: to the key that stands first in the object, or to the smaller
index. Main statements: this is a strict order, and of two paths that part neither is a prefix of
the other, nor is there a path through both.
-/

namespace JsonDelta

theorem Segment.index_inj {i j : Nat} : Segment.index i = Segment.index j ↔ i = j := by
  rw [Segment.index.injEq, Int.ofNat_inj]

namespace Path

/-- From a common place the paths go on to different children. -/
def Parted (p q : Path) : Prop :=
  ∃ (parent : Path) (s t : Segment), s ≠ t ∧ parent.child s <+: p ∧ parent.child t <+: q

theorem child_inj {parent : Path} {s t : Segment} : parent.child s = parent.child t ↔ s = t := by
  simp [child]

@[simp] theorem length_child (parent : Path) (s : Segment) :
    (parent.child s).length = parent.length + 1 := by
  simp [child]

theorem prefix_child (parent : Path) (s : Segment) : parent <+: parent.child s :=
  List.prefix_append ..

/-- The path leads on from another one. -/
def Under (q p : Path) : Prop := p <+: q ∧ p.length < q.length

instance (q p : Path) : Decidable (q.Under p) := inferInstanceAs (Decidable (_ ∧ _))

theorem under_of_child_prefix {p q : Path} {s : Segment} (h : p.child s <+: q) : q.Under p := by
  refine ⟨(prefix_child p s).trans h, ?_⟩
  have hlen := h.length_le
  rw [length_child] at hlen
  omega

theorem Under.trans {p q r : Path} (hrq : r.Under q) (hqp : q.Under p) : r.Under p :=
  ⟨hqp.1.trans hrq.1, hqp.2.trans hrq.2⟩

/-- Under a child there is no other child. -/
theorem Under.ne_child {p q : Path} {s : Segment} (h : q.Under (p.child s)) (t : Segment) :
    q ≠ p.child t := by
  rintro rfl
  have hlt := h.2
  rw [length_child, length_child] at hlt
  omega

namespace Parted

variable {p q : Path}

theorem symm (h : Parted p q) : Parted q p := by
  obtain ⟨parent, s, t, hne, hp, hq⟩ := h
  exact ⟨parent, t, s, hne.symm, hq, hp⟩

/-- No path goes through both. -/
theorem not_prefix_of_prefix (h : Parted p q) {r : Path} (hp : p <+: r) : ¬ q <+: r := by
  obtain ⟨parent, s, t, hne, hs, ht⟩ := h
  intro hq
  have hlen : (parent.child s).length = (parent.child t).length := by
    rw [length_child, length_child]
  have hst : parent.child s = parent.child t :=
    (List.prefix_of_prefix_length_le (hs.trans hp) (ht.trans hq) hlen.le).eq_of_length hlen
  exact hne (child_inj.1 hst)

theorem not_prefix (h : Parted p q) : ¬ p <+: q :=
  fun hpq => h.not_prefix_of_prefix hpq (List.prefix_refl q)

theorem ne (h : Parted p q) : p ≠ q := by
  rintro rfl
  exact h.not_prefix (List.prefix_refl p)

end Parted

end Path

namespace Document

/-- Where a child stands among the children of a container. -/
def position? : Document → Segment → Option Nat
  | object members, .key name => (members.map Prod.fst).idxOf? name
  | array items, .index (.ofNat i) => if i < items.length then some i else none
  | _, _ => none

/-- The first child stands before the second one. -/
def ChildBefore (d : Document) (s t : Segment) : Prop :=
  ∃ i j, d.position? s = some i ∧ d.position? t = some j ∧ i < j

/-- Where the paths part, the first one goes on to the earlier child. -/
def Precedes (d : Document) (p q : Path) : Prop :=
  ∃ (parent : Path) (container : Document) (s t : Segment), d.get? parent = some container ∧
    container.ChildBefore s t ∧ parent.child s <+: p ∧ parent.child t <+: q

variable {d : Document} {s t : Segment} {p q : Path}

theorem ChildBefore.ne (h : d.ChildBefore s t) : s ≠ t := by
  obtain ⟨i, j, hs, ht, hij⟩ := h
  rintro rfl
  have heq : i = j := Option.some.inj (hs.symm.trans ht)
  omega

theorem ChildBefore.trans {r : Segment} (hst : d.ChildBefore s t) (htr : d.ChildBefore t r) :
    d.ChildBefore s r := by
  obtain ⟨i, j, hs, ht, hij⟩ := hst
  obtain ⟨j', k, ht', hr, hjk⟩ := htr
  obtain rfl : j = j' := Option.some.inj (ht.symm.trans ht')
  exact ⟨i, k, hs, hr, hij.trans hjk⟩

/-! The order is strict. -/

theorem Precedes.parted (h : d.Precedes p q) : p.Parted q := by
  obtain ⟨parent, container, s, t, -, hst, hp, hq⟩ := h
  exact ⟨parent, s, t, hst.ne, hp, hq⟩

theorem Precedes.irrefl (p : Path) : ¬ d.Precedes p p :=
  fun h => h.parted.ne rfl

theorem Precedes.trans {r : Path} (hpq : d.Precedes p q) (hqr : d.Precedes q r) :
    d.Precedes p r := by
  obtain ⟨parent, container, s, t, hget, hst, hp, hq⟩ := hpq
  obtain ⟨parent', container', s', t', hget', hst', hq', hr⟩ := hqr
  -- Both partings are on the way to the middle path: they are one, or one is above the other.
  rcases lt_trichotomy parent.length parent'.length with hlt | heq | hgt
  · have habove : parent.child t <+: parent' :=
      List.prefix_of_prefix_length_le hq ((Path.prefix_child _ _).trans hq')
        (by rwa [Path.length_child])
    exact ⟨parent, container, s, t, hget, hst, hp,
      (habove.trans (Path.prefix_child _ _)).trans hr⟩
  · have hchild : parent.child t = parent'.child s' :=
      (List.prefix_of_prefix_length_le hq hq' (by simp [heq])).eq_of_length (by simp [heq])
    obtain ⟨rfl, hts⟩ := List.append_inj hchild heq
    obtain rfl : t = s' := List.singleton_inj.1 hts
    obtain rfl : container = container' := Option.some.inj (hget.symm.trans hget')
    exact ⟨parent, container, s, t', hget, hst.trans hst', hp, hr⟩
  · have habove : parent'.child s' <+: parent :=
      List.prefix_of_prefix_length_le hq' ((Path.prefix_child _ _).trans hq)
        (by rwa [Path.length_child])
    exact ⟨parent', container', s', t', hget', hst',
      (habove.trans (Path.prefix_child _ _)).trans hp, hr⟩

theorem childBefore_index {items : List Document} {i j : Nat} (hij : i < j)
    (hj : j < items.length) : (array items).ChildBefore (.index i) (.index j) :=
  ⟨i, j, if_pos (hij.trans hj), if_pos hj, hij⟩

/-- Members with distinct keys stand at the positions of their keys. -/
theorem pairwise_childBefore_key {members : List (String × Document)}
    (h : (members.map Prod.fst).Nodup) :
    members.Pairwise fun m n => (object members).ChildBefore (.key m.1) (.key n.1) := by
  have hposition (i : Nat) (hi : i < members.length) :
      (object members).position? (.key members[i].1) = some i := by
    have hkeys : i < (members.map Prod.fst).length := by rwa [List.length_map]
    have hat : members[i].1 = (members.map Prod.fst)[i] := by rw [List.getElem_map]
    rw [position?, hat, List.idxOf?_eq_some_iff]
    refine ⟨hkeys, rfl, fun j hj heq => ?_⟩
    exact hj.ne ((List.getElem_inj h).1 heq)
  refine List.pairwise_iff_getElem.2 fun i j hi hj hij => ?_
  exact ⟨i, j, hposition i hi, hposition j hj, hij⟩

end Document

end JsonDelta
