import JsonDelta.Proofs.Diff.Emptiness
import JsonDelta.Proofs.Document.Alike
import JsonDelta.Proofs.Number
/-!
Documents without changes are alike. The items of two arrays correspond by the matches of their
alignment and the partners among its leftovers, so nothing is asked of hashes here. Main
statement: the numbers that correspond have one value, apart from those that are conflated.
-/

namespace JsonDelta

/-- The old and new places that an alignment brings together. -/
def Alignment.pairs (alignment : Alignment) : List (Nat × Nat) :=
  alignment.matched ++ alignment.leftovers.filterMap fun l => l.2.map fun j => (l.1, j)

namespace Document

section Correspondence

variable {old new : List Document} {alignment : Alignment} {r : Nat → Document → Document → Prop}

theorem LeftoversRelated.map_fst_pairs_perm (h : LeftoversRelated r alignment old new)
    (hcovers : alignment.Covers old.length new.length) :
    (alignment.pairs.map Prod.fst).Perm (List.range old.length) := by
  have hleftovers : (alignment.leftovers.filterMap fun l =>
      (l.2.map fun j => (l.1, j)).map Prod.fst) = alignment.leftovers.map Prod.fst := by
    refine List.filterMap_eq_map_iff_forall_eq_some.2 ?_
    rintro ⟨i, partner⟩ hmem
    obtain ⟨j, _, _, rfl, _⟩ := h.1 i partner hmem
    rfl
  rw [Alignment.pairs, List.map_append, List.map_filterMap, hleftovers]
  exact hcovers.old

theorem LeftoversRelated.map_snd_pairs_perm (h : LeftoversRelated r alignment old new)
    (hcovers : alignment.Covers old.length new.length) :
    (alignment.pairs.map Prod.snd).Perm (List.range new.length) := by
  have hpartners (l : Nat × Option Nat) : (l.2.map fun j => (l.1, j)).map Prod.snd = l.2 := by
    rw [Option.map_map]
    exact Option.map_id'
  have hnew := hcovers.new
  rw [h.2, List.append_nil] at hnew
  simpa only [Alignment.pairs, List.map_append, List.map_filterMap, hpartners] using hnew

/-- When every leftover has a partner, the places correspond one to one. -/
theorem LeftoversRelated.exists_equiv {s : Document → Document → Prop}
    (h : LeftoversRelated (fun _ => s) alignment old new)
    (hcovers : alignment.Covers old.length new.length)
    (hmatched : ∀ i j, (i, j) ∈ alignment.matched →
      ∃ a b, old[i]? = some a ∧ new[j]? = some b ∧ s a b) :
    ∃ σ : Fin old.length ≃ Fin new.length, ∀ i, s (old.get i) (new.get (σ i)) := by
  have hpairs (i j : Nat) (hmem : (i, j) ∈ alignment.pairs) :
      ∃ a b, old[i]? = some a ∧ new[j]? = some b ∧ s a b := by
    rcases List.mem_append.1 hmem with hmem | hmem
    · exact hmatched i j hmem
    · obtain ⟨⟨k, partner⟩, hleft, hpair⟩ := List.mem_filterMap.1 hmem
      obtain ⟨l, a, b, rfl, ha, hb, hab⟩ := h.1 k partner hleft
      cases hpair
      exact ⟨a, b, ha, hb, hab⟩
  obtain ⟨σ, hσ⟩ := Matching.exists_equiv_of_pairs (h.map_fst_pairs_perm hcovers)
    (h.map_snd_pairs_perm hcovers) hpairs
  refine ⟨σ, fun i => ?_⟩
  obtain ⟨a, b, ha, hb, hab⟩ := hσ i
  rw [← (List.getElem?_eq_some_iff.1 ha).2, ← (List.getElem?_eq_some_iff.1 hb).2] at hab
  exact hab

end Correspondence

variable [StandardHash]

theorem alike_of_changes_eq_nil (options : DiffOptions) {a b : Document} (ha : a.KeysDistinct)
    (hb : b.KeysDistinct) {place : Location} (h : changes options a b place = []) :
    Alike options.ignoreOrder (fun m n => m.same n = true) a b := by
  induction a, b using Document.pairInduction generalizing place with
  | whole a b hwhole =>
      rw [changes_whole options hwhole] at h
      have hequal : a.equal false b = true := by
        by_contra hne
        rw [if_neg hne] at h
        cases h
      have hscalar := hwhole.resolve_right fun hne => hne (kind_eq_of_equal hequal)
      exact alike_scalar hscalar ((equal_scalar true hscalar b).trans hequal) _
  | array old new ih =>
      rw [keysDistinct_array] at ha hb
      have hleftovers := ((changes_array_eq_nil_iff options).1 h).2.imp
        fun i a hi b ho hab => ih a hi b ho (ha a hi) (hb b ho) hab
      cases hmode : options.ignoreOrder with
      | false =>
          rw [hmode, DiffOptions.align_inOrder hmode, leftoversRelated_byIndex_iff] at hleftovers
          obtain ⟨hlen, hitems⟩ := hleftovers
          refine .array (finCongr hlen) (fun _ _ => rfl) fun i => hitems i.val _ _ ?_ ?_
          · exact List.getElem?_eq_getElem i.isLt
          · exact List.getElem?_eq_getElem (hlen ▸ i.isLt)
      | true =>
          rw [hmode, DiffOptions.align_anyOrder hmode] at hleftovers
          obtain ⟨σ, hσ⟩ := hleftovers.exists_equiv (Alignment.covers_ofItems old new)
            fun i j hij => by
              obtain ⟨a, b, hi, hj, hfits⟩ := Alignment.fits_of_mem_matched hij
              have heq := equivalent_of_equal (ha a (List.mem_of_getElem? hi))
                (hb b (List.mem_of_getElem? hj)) (equal_of_fits hfits)
              exact ⟨a, b, hi, hj, heq.alike⟩
          exact .array σ nofun hσ
  | object members others ih =>
      obtain ⟨-, hvalues⟩ := keysDistinct_object.1 ha
      obtain ⟨hotherKeys, hotherValues⟩ := keysDistinct_object.1 hb
      obtain ⟨hkeys, hmembers⟩ := (changes_object_eq_nil_iff options hotherKeys).1 h
      refine .object hkeys fun key a b hka hkb => ?_
      exact ih _ hka _ hkb (hvalues _ hka) (hotherValues _ hkb) (hmembers key a b hka hkb)

end Document

namespace ChangeSet

section AnyHash

variable [StandardHash]

/-- Without changes, numbers at corresponding places have one value, unless they are conflated. -/
theorem alike_of_isEmpty_between (options : DiffOptions) {old new : Document}
    (ho : old.KeysDistinct) (hn : new.KeysDistinct)
    (h : (between options old new).isEmpty = true) :
    old.Alike options.ignoreOrder (fun m n => m.value = n.value ∨ m.Conflated n) new ∧
      ((∀ m ∈ old.numbers, ∀ n ∈ new.numbers, ¬ m.Conflated n) →
        old.Alike options.ignoreOrder (fun m n => m.value = n.value) new) := by
  have hsame := Document.alike_of_changes_eq_nil options ho hn (isEmpty_ofChanges_iff.1 h)
  have halike := hsame.imp fun m _ n _ => Number.value_eq_or_conflated_of_same
  exact ⟨halike, fun hno => halike.imp fun m hm n hn hmn => hmn.resolve_right (hno m hm n hn)⟩

end AnyHash

/-- Integers next to the reals of their values, and none beyond `2 ^ 53`. -/
theorem alike_of_isEmpty_between_mixed :
    let old := Document.object [("a", .array [.number (.unsigned 1), .number (.signed (-3))]),
      ("b", .number (.unsigned 9007199254740992))]
    let new := Document.object [("b", .number (.real (.ofInt 9007199254740992))),
      ("a", .array [.number (.signed (-3)), .number (.real (.ofInt 1))])]
    (between {} old new).isEmpty = true ∧
      old.Alike true (fun m n => m.value = n.value ∨ m.Conflated n) new ∧
      old.Alike true (fun m n => m.value = n.value) new := by
  intro old new
  have ho : old.KeysDistinct := by
    simp [old, Document.KeysDistinct, Document.ItemsDistinct, Document.MembersDistinct]
  have hn : new.KeysDistinct := by
    simp [new, Document.KeysDistinct, Document.ItemsDistinct, Document.MembersDistinct]
  have hempty : (between {} old new).isEmpty = true := by decide
  have hold : ∀ n ∈ old.numbers, n.Small := by
    simp [old, Document.numbers, Document.itemNumbers, Document.memberNumbers, Number.Small,
      Number.toInt?]
  have hnew : ∀ n ∈ new.numbers, n.Small := by
    simp [new, Document.numbers, Document.itemNumbers, Document.memberNumbers, Number.Small,
      Number.toInt?]
  obtain ⟨halike, hvalues⟩ := alike_of_isEmpty_between {} ho hn hempty
  exact ⟨hempty, halike, hvalues fun m hm n hn =>
    Number.not_conflated_of_small (hold m hm) (hnew n hn)⟩

/-- Nothing is reported between an unsigned integer and the negative one with its word, nor between
an integer and the real it is rounded to. -/
theorem isEmpty_between_conflated :
    let large := Document.number (.unsigned 18446744073709551615)
    let negative := Document.number (.signed (-1))
    let odd := Document.number (.unsigned 9007199254740993)
    let even := Document.number (.real (.ofInt 9007199254740992))
    ((between {} large negative).isEmpty = true ∧
        ¬ large.Alike true (fun m n => m.value = n.value) negative) ∧
      (between {} odd even).isEmpty = true ∧
        ¬ odd.Alike true (fun m n => m.value = n.value) even := by
  intro large negative odd even
  have hwraps : (Number.unsigned 18446744073709551615).Wraps (.signed (-1)) := ⟨-1, rfl, rfl⟩
  have hrounds : (Number.unsigned 9007199254740993).RoundsTo (.real (.ofInt 9007199254740992)) := by
    refine ⟨9007199254740993, _, rfl, rfl, by decide, by decide, ?_⟩
    rw [Binary64.value_ofInt (by decide)]
    norm_num
  refine ⟨⟨by decide, fun h => ?_⟩, by decide, fun h => ?_⟩
  · exact hwraps.value_ne (Document.Alike.number_iff.1 h)
  · exact hrounds.value_ne (Document.Alike.number_iff.1 h)

end ChangeSet

end JsonDelta
