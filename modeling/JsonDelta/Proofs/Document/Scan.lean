import JsonDelta.Proofs.Document.AnyOrder
import JsonDelta.Proofs.Matching.Scan
/-!
Matching through buckets of hashes against a plain scan that only asks for equality. Main statement:
they agree as long as equal numbers of the two arrays are equal as reals. An unsigned integer that
wraps around to a negative one breaks this: the two are equal, but hashes can keep them apart.
-/

namespace JsonDelta.Document

section AnyHash

variable [StandardHash]

/-- Where equal numbers are equal as reals, hashes never separate equal documents, in both modes. -/
theorem hash_eq_of_equal {a b : Document} (ha : a.KeysDistinct) (hb : b.KeysDistinct)
    (hn : RealsAgree a b) {ignoreOrder : Bool} (h : a.equal ignoreOrder b = true) :
    a.hash ignoreOrder = b.hash ignoreOrder := by
  cases ignoreOrder with
  | false => exact hash_eq_of_equal_inOrder ha hb hn h
  | true => exact hash_eq_of_equivalent (equivalent_of_equal ha hb h) ha hb hn

theorem matchItems_eq_scan_and_hash_eq {old new : List Document}
    (ho : (array old).KeysDistinct) (hn : (array new).KeysDistinct)
    (hreals : RealsAgree (array old) (array new)) :
    matchItems old new = Matching.scan (equal true) old [] new ∧
      ∀ ignoreOrder, ∀ a ∈ old, ∀ b ∈ new, a.equal ignoreOrder b = true →
        a.hash ignoreOrder = b.hash ignoreOrder := by
  rw [keysDistinct_array] at ho hn
  have hagree (a) (ha : a ∈ old) (b) (hb : b ∈ new) : RealsAgree a b :=
    hreals.mono (numbers_subset_array ha) (numbers_subset_array hb)
  constructor
  · rw [matchItems_eq_firstFit, Matching.firstFit_eq_scan]
    exact Matching.scan_congr
      (fun a ha b hb => fits_eq_equal (ho a ha) (hn b hb) (hagree a ha b hb)) []
  · exact fun _ a ha b hb => hash_eq_of_equal (ho a ha) (hn b hb) (hagree a ha b hb)

end AnyHash

theorem matchItems_eq_scan_and_hash_eq_repeated :
    let old :=
      [number (.unsigned 1), string "a", number (.real (.ofInt 1)), array [bool true, null]]
    let new := [number (.signed 1), array [null, bool true], number (.unsigned 1), string "b"]
    matchItems old new = Matching.scan (equal true) old [] new ∧
      ∀ ignoreOrder, ∀ a ∈ old, ∀ b ∈ new, a.equal ignoreOrder b = true →
        a.hash ignoreOrder = b.hash ignoreOrder := by
  refine matchItems_eq_scan_and_hash_eq ?_ ?_ ?_
  · simp [KeysDistinct, ItemsDistinct]
  · simp [KeysDistinct, ItemsDistinct]
  · unfold RealsAgree
    decide

/-- As signed 64-bit words both integers are -1. -/
theorem matchItems_ne_scan_wrapped :
    matchItems [number (.unsigned 18446744073709551615)] [number (.signed (-1))] ≠
      Matching.scan (equal true) [number (.unsigned 18446744073709551615)] []
        [number (.signed (-1))] := by
  decide

end JsonDelta.Document
