import JsonDelta.Proofs.Diff.Emptiness
import JsonDelta.Proofs.Diff.Records
import JsonDelta.Proofs.Diff.Replay
import JsonDelta.Proofs.Document.Rearrangement
/-!
Changes between rearranged documents. Documents that are equal in any order differ by moves alone.
Main statement: a rearranged document differs from the original by moves alone, as long as equality
is transitive among its numbers.
-/

namespace JsonDelta

namespace Document

variable {options : DiffOptions} {a b : Document} {place : Location} {change : Change}

variable [StandardHash]

/-- Between equal documents nothing but moves is recorded. -/
theorem Recorded.stage?_eq_none (hmode : options.ignoreOrder = true)
    (h : Recorded options a b place change) (ha : a.KeysDistinct) (heq : a.equal true b = true) :
    change.stage? = none ∧ options.reportMoves = true := by
  induction h with
  | valueChanged hwhole hne =>
      rw [equal_whole true hwhole, hne] at heq
      cases heq
  | keyRemoved hmem hl =>
      obtain ⟨other, hother, _⟩ := (equal_object.1 heq).2 _ hmem
      rw [hl] at hother
      cases hother
  | keyAdded hl hmem =>
      have hperm := keys_perm_of_equal (keysDistinct_object.1 ha).1 heq
      exact absurd (hperm.mem_iff.2 (List.mem_map_of_mem hmem)) (Members.lookup_eq_none_iff.1 hl)
  | member hmem hl _ ih =>
      obtain ⟨other, hother, hvalue⟩ := (equal_object.1 heq).2 _ hmem
      rw [hl] at hother
      cases hother
      exact ih ((keysDistinct_object.1 ha).2 _ hmem) hvalue
  | itemRemoved hi =>
      rw [DiffOptions.align_anyOrder hmode, (leftovers_eq_nil_of_equal heq).1] at hi
      cases hi
  | itemAdded hj =>
      rw [DiffOptions.align_anyOrder hmode, (leftovers_eq_nil_of_equal heq).2] at hj
      cases hj
  | itemMoved hmoves => exact ⟨rfl, hmoves⟩
  | partner hij =>
      rw [DiffOptions.align_anyOrder hmode, (leftovers_eq_nil_of_equal heq).1] at hij
      cases hij

end Document

namespace ChangeSet

/-- Every bucket but that of the moves is empty. -/
structure OnlyMoves (set : ChangeSet) : Prop where
  keyAdded : set.keyAdded = []
  keyRemoved : set.keyRemoved = []
  itemAdded : set.itemAdded = []
  itemRemoved : set.itemRemoved = []
  valueChanged : set.valueChanged = []

variable {options : DiffOptions} {old new : Document}

section AnyHash

variable [StandardHash]

theorem onlyMoves_between_of_equal (hmode : options.ignoreOrder = true) (ho : old.KeysDistinct)
    (h : old.equal true new = true) : (between options old new).OnlyMoves := by
  have hmove {change} (hchange : Document.Recorded options old new .root change) :
      change.stage? = none :=
    (hchange.stage?_eq_none hmode ho h).1
  constructor
  all_goals refine List.eq_nil_iff_forall_not_mem.2 fun r hr => ?_
  · exact Option.some_ne_none _ (hmove (mem_keyAdded_between.1 hr))
  · exact Option.some_ne_none _ (hmove (mem_keyRemoved_between.1 hr))
  · exact Option.some_ne_none _ (hmove (mem_itemAdded_between.1 hr))
  · exact Option.some_ne_none _ (hmove (mem_itemRemoved_between.1 hr))
  · exact Option.some_ne_none _ (hmove (mem_valueChanged_between.1 hr))

theorem isEmpty_between_of_equal (hmode : options.ignoreOrder = true)
    (hmoves : options.reportMoves = false) (ho : old.KeysDistinct)
    (h : old.equal true new = true) : (between options old new).isEmpty = true := by
  refine isEmpty_ofChanges_iff.2 (List.eq_nil_iff_forall_not_mem.2 fun change hchange => ?_)
  have hreported := ((Document.recorded_of_mem_changes hchange).stage?_eq_none hmode ho h).2
  rw [hmoves] at hreported
  cases hreported

/-- A rearrangement is a change only by its moves, and only where these are reported. -/
theorem onlyMoves_between_rearranged (options : DiffOptions) (hmode : options.ignoreOrder = true)
    (ho : old.KeysDistinct) (hn : Number.SameTransitive old.numbers) (h : old.Rearranged new) :
    (between options old new).OnlyMoves ∧
      (options.reportMoves = false → (between options old new).isEmpty = true) := by
  have heq := Document.equal_of_fits (h.fits hn ⟨ho, List.Subset.refl _⟩)
  exact ⟨onlyMoves_between_of_equal hmode ho heq,
    fun hmoves => isEmpty_between_of_equal hmode hmoves ho heq⟩

end AnyHash

/-- Members and items change places at two depths, among integers that share a binary64 number. -/
theorem onlyMoves_between_rearranged_nested :
    let small := Document.number (.unsigned 9007199254740992)
    let large := Document.number (.unsigned 9007199254740993)
    let old := Document.object [("a", .array [small, large, small]), ("b", .null)]
    let new := Document.object [("b", .null), ("a", .array [large, small, small])]
    let set := between { reportMoves := true } old new
    set.OnlyMoves ∧ set.itemMoved.length = 2 ∧ (between {} old new).isEmpty = true := by
  intro small large old new set
  have ho : old.KeysDistinct := by
    simp [old, small, large, Document.KeysDistinct, Document.ItemsDistinct,
      Document.MembersDistinct]
  have hn : Number.SameTransitive old.numbers := by
    unfold Number.SameTransitive
    decide
  have hitems : Document.Rearranged (.array [small, large, small]) (.array [large, small, small]) :=
    .items (.swap large small [small])
  have h : old.Rearranged new :=
    .trans (.member [] [("b", .null)] "a" hitems) (.members (.swap ..))
  exact ⟨(onlyMoves_between_rearranged { reportMoves := true } rfl ho hn h).1, by decide,
    (onlyMoves_between_rearranged {} rfl ho hn h).2 rfl⟩

/-- The real equals both integers. It is given to the one that comes first, and the other one has no
partner left. -/
theorem not_isEmpty_between_rearranged :
    let small := Document.number (.unsigned 9007199254740992)
    let large := Document.number (.unsigned 9007199254740993)
    let rounded := Document.number (.real (.ofInt 9007199254740992))
    let old := Document.array [rounded, large, small]
    let new := Document.array [small, rounded, large]
    old.KeysDistinct ∧ old.Rearranged new ∧ (between {} old new).isEmpty = false := by
  intro small large rounded old new
  have ho : old.KeysDistinct := by
    simp [old, small, large, rounded, Document.KeysDistinct, Document.ItemsDistinct]
  exact ⟨ho, .items (@List.perm_append_comm _ [rounded, large] [small]), by decide⟩

end ChangeSet

end JsonDelta
