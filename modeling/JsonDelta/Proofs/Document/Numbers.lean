import Mathlib.Algebra.Group.Nat.Defs
import Mathlib.Data.List.Basic
import JsonDelta.Document.Distinct
import JsonDelta.Document.Basic
/-!
The numbers of a document, and where equality of numbers is equality of the binary64 numbers next
to them. Words that wrap around and integers that share a binary64 number are the two exceptions;
small integers are neither. `DistinctAmong` bounds the numbers of a document along with its keys.
-/

namespace JsonDelta

namespace Binary64

@[simp] theorem same_self (x : Binary64) : x.same x = true := by simp [same]

theorem same_trans {x y z : Binary64} (hxy : x.same y = true) (hyz : y.same z = true) :
    x.same z = true := by
  simp only [same, decide_eq_true_eq] at *
  exact hxy.trans hyz

end Binary64

namespace Number

@[simp] theorem same_self (n : Number) : n.same n = true := by
  unfold same
  cases n.toWord? <;> simp

/-- Holds of all numbers but the integers above the largest signed word. -/
def FitsWord : Number → Prop
  | unsigned n => n.toNat ≤ 2 ^ 63 - 1
  | signed _ => True
  | real _ => True

theorem FitsWord.toBinary64_eq {n : Number} (h : n.FitsWord) {word : Int64}
    (hw : n.toWord? = some word) : n.toBinary64 = .ofInt word.toInt := by
  cases n with
  | unsigned n =>
      cases hw
      have hn : n.toNat ≤ 2 ^ 63 - 1 := h
      have hword : n.toInt64.toInt = n.toNat := by
        change n.toBitVec.toInt = n.toBitVec.toNat
        exact BitVec.toInt_eq_toNat_of_lt (by change 2 * n.toNat < 2 ^ 64; omega)
      rw [hword]
      rfl
  | signed n =>
      cases hw
      rfl
  | real x => cases hw

theorem FitsWord.same_toBinary64 {m n : Number} (hm : m.FitsWord) (hn : n.FitsWord)
    (h : m.same n = true) : m.toBinary64.same n.toBinary64 = true := by
  unfold same at h
  split at h
  · rename_i v w hv hw
    rw [hm.toBinary64_eq hv, hn.toBinary64_eq hw, of_decide_eq_true h]
    exact Binary64.same_self _
  · exact h

/-- Equality is equality of the binary64 numbers next to them. -/
def ComparedAsReals (numbers : List Number) : Prop :=
  ∀ m ∈ numbers, ∀ n ∈ numbers, m.same n = m.toBinary64.same n.toBinary64

end Number

namespace Document

mutual

/-- The numbers that occur in a document. -/
def numbers : Document → List Number
  | number n => [n]
  | array items => itemNumbers items
  | object members => memberNumbers members
  | _ => []

def itemNumbers : List Document → List Number
  | [] => []
  | item :: rest => item.numbers ++ itemNumbers rest

def memberNumbers : List (String × Document) → List Number
  | [] => []
  | (_, value) :: rest => value.numbers ++ memberNumbers rest

end

theorem numbers_array (items : List Document) : (array items).numbers = items.flatMap numbers := by
  rw [numbers]
  induction items with
  | nil => rfl
  | cons item rest ih => rw [itemNumbers, ih, List.flatMap_cons]

theorem numbers_object (members : List (String × Document)) :
    (object members).numbers = members.flatMap fun m => m.2.numbers := by
  rw [numbers]
  induction members with
  | nil => rfl
  | cons m rest ih => rw [memberNumbers, ih, List.flatMap_cons]

variable {numbers : List Number} {items : List Document} {members : List (String × Document)}

theorem numbers_array_subset_iff :
    (array items).numbers ⊆ numbers ↔ ∀ item ∈ items, item.numbers ⊆ numbers := by
  rw [numbers_array]
  constructor
  · exact fun h item hi n hn => h (List.mem_flatMap.2 ⟨item, hi, hn⟩)
  · intro h n hn
    obtain ⟨item, hi, hn⟩ := List.mem_flatMap.1 hn
    exact h item hi hn

theorem numbers_object_subset_iff :
    (object members).numbers ⊆ numbers ↔ ∀ m ∈ members, m.2.numbers ⊆ numbers := by
  rw [numbers_object]
  constructor
  · exact fun h m hm n hn => h (List.mem_flatMap.2 ⟨m, hm, hn⟩)
  · intro h n hn
    obtain ⟨m, hm, hn⟩ := List.mem_flatMap.1 hn
    exact h m hm hn

theorem numbers_subset_array {item : Document} (h : item ∈ items) :
    item.numbers ⊆ (array items).numbers :=
  numbers_array_subset_iff.1 (List.Subset.refl _) item h

theorem numbers_subset_object {m : String × Document} (h : m ∈ members) :
    m.2.numbers ⊆ (object members).numbers :=
  numbers_object_subset_iff.1 (List.Subset.refl _) m h

/-- Keys are distinct, and the numbers are among the given ones. -/
def DistinctAmong (numbers : List Number) (d : Document) : Prop :=
  d.KeysDistinct ∧ d.numbers ⊆ numbers

theorem distinctAmong_array :
    DistinctAmong numbers (array items) ↔ ∀ item ∈ items, DistinctAmong numbers item := by
  rw [DistinctAmong, keysDistinct_array, numbers_array_subset_iff]
  exact forall₂_and.symm

theorem distinctAmong_object :
    DistinctAmong numbers (object members) ↔
      (members.map Prod.fst).Nodup ∧ ∀ m ∈ members, DistinctAmong numbers m.2 := by
  rw [DistinctAmong, keysDistinct_object, numbers_object_subset_iff, and_assoc]
  exact and_congr_right fun _ => forall₂_and.symm

end Document

end JsonDelta
