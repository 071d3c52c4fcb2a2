import JsonDelta.Proofs.Diff.Comparisons
/-!
Moves. Reporting them changes nothing else: the walk takes the same steps, and those that move an
item are left out when moves are not reported. Main statement: with moves reported the change set
differs from the one without in its moves only, and these are told twice, by records and by log
lines in the same order, each of them about two items that were matched at different indices.
-/

namespace JsonDelta

/-- An item of the new array that was matched with an item at another index of the old one. -/
structure Move where
  list : Location
  source : Nat
  target : Nat
  value : Document

namespace Move

/-- A move is recorded at the new index. -/
def record (move : Move) : ItemChange := ⟨move.list.index move.target, move.value⟩

def line (move : Move) : LogLine :=
  ⟨.trace, move.list.accessor ++ ": item " ++ Decimal.natText move.source ++ " moved to " ++
    Decimal.natText move.target⟩

variable [StandardHash]

/-- First fit matched the new item with an old one at another index. -/
structure FoundIn (move : Move) (items others : List Document) : Prop where
  matched : (Document.matchItems items others)[move.target]? = some (some move.source)
  moved : move.source ≠ move.target
  value : others[move.target]? = some move.value

end Move

def Change.move? : Change → Option Move
  | .itemMoved list source target value => some ⟨list, source, target, value⟩
  | _ => none

theorem Change.move?_eq_some_iff {change : Change} {move : Move} :
    change.move? = some move ↔
      change = .itemMoved move.list move.source move.target move.value := by
  cases change <;> cases move <;> simp [move?]

theorem Change.traceText?_eq (change : Change) :
    (change.traceText?.map fun text => (⟨.trace, text⟩ : LogLine)) =
      change.move?.map Move.line := by
  cases change <;> rfl

namespace Document

variable {options : DiffOptions} {old new a b : Document} {place : Location} {s : Step}
  {move : Move}

theorem move?_removal (value : Document) (segment : Segment) :
    (Step.removal place value segment).move? = none := by
  cases segment <;> rfl

theorem move?_addition (value : Document) (segment : Segment) :
    (Step.addition place value segment).move? = none := by
  cases segment <;> rfl

/-! Without moves the walk takes the steps that move nothing. -/

variable [StandardHash]

theorem moveSteps_silent (ignoreOrder : Bool) (a b : Document) :
    moveSteps { ignoreOrder, reportMoves := false } a b = [] := by
  unfold moveSteps
  split
  · exact List.filterMap_eq_nil_iff.2 fun m _ => by simp [moveStep?]
  · rfl

theorem oldSteps_silent (ignoreOrder : Bool) (a b : Document) :
    oldSteps { ignoreOrder, reportMoves := false } a b =
      oldSteps { ignoreOrder, reportMoves := true } a b := by
  unfold oldSteps
  split <;> rfl

theorem newSteps_silent (ignoreOrder : Bool) (a b : Document) :
    newSteps { ignoreOrder, reportMoves := false } a b =
      newSteps { ignoreOrder, reportMoves := true } a b := by
  unfold newSteps
  split <;> rfl

theorem exists_moved_of_mem_moveSteps (h : s ∈ moveSteps options a b) :
    ∃ source target value, s = .moved source target value := by
  unfold moveSteps at h
  split at h
  · obtain ⟨⟨i, j⟩, -, hm⟩ := List.mem_filterMap.1 h
    rw [moveStep?] at hm
    split at hm
    · obtain ⟨value, -, rfl⟩ := Option.map_eq_some_iff.1 hm
      exact ⟨i, j, value, rfl⟩
    · cases hm
  · cases h

theorem exists_added_of_mem_newSteps (h : s ∈ newSteps options a b) :
    ∃ segment value, s = .added segment value := by
  unfold newSteps at h
  split at h
  · obtain ⟨m, -, hm⟩ := List.mem_filterMap.1 h
    rw [newMemberStep?] at hm
    split at hm <;> cases hm
    exact ⟨_, _, rfl⟩
  · obtain ⟨j, -, hj⟩ := List.mem_filterMap.1 h
    obtain ⟨value, -, rfl⟩ := Option.map_eq_some_iff.1 hj
    exact ⟨_, value, rfl⟩
  · cases h

/-- The changes that are no moves are the changes without moves. -/
theorem changes_silent (ignoreOrder : Bool) (a b : Document) (place : Location) :
    changes { ignoreOrder, reportMoves := false } a b place =
      (changes { ignoreOrder, reportMoves := true } a b place).filter (·.move?.isNone) := by
  induction a, b using stepInduction { ignoreOrder, reportMoves := true } generalizing place with
  | whole a b hwhole =>
      rw [changes_whole _ hwhole, changes_whole _ hwhole]
      split <;> rfl
  | container a b hcontainer ih =>
      have hskip (rest : List Step) :
          (moveSteps { ignoreOrder, reportMoves := true } a b ++ rest).flatMap
              (fun s => (s.changes { ignoreOrder, reportMoves := true } place).filter
                (·.move?.isNone)) =
            rest.flatMap fun s => (s.changes { ignoreOrder, reportMoves := true } place).filter
              (·.move?.isNone) := by
        rw [List.flatMap_append, List.flatMap_eq_nil_iff.2, List.nil_append]
        intro s hs
        obtain ⟨source, target, value, rfl⟩ := exists_moved_of_mem_moveSteps hs
        rfl
      rw [changes_eq_flatMap_steps hcontainer, changes_eq_flatMap_steps hcontainer,
        List.filter_flatMap, steps, steps, hskip, moveSteps_silent, oldSteps_silent,
        newSteps_silent, List.nil_append]
      refine List.flatMap_congr fun s hs => ?_
      cases s with
      | removed segment value => simp [Step.changes, move?_removal]
      | added segment value => simp [Step.changes, move?_addition]
      | compared segment c d =>
          exact ih segment c d (List.mem_append_right _ hs) (place.child segment)
      | moved source target value =>
          rcases List.mem_append.1 hs with hold | hnew
          · cases inOld_of_mem_oldSteps hold
          · obtain ⟨segment, other, heq⟩ := exists_added_of_mem_newSteps hnew
            cases heq

/-! Where moves come from. -/

theorem Compared.exists_matched (h : Compared options old new a b place)
    (hmove : Recorded options a b place
      (.itemMoved move.list move.source move.target move.value)) :
    ∃ items others, Compared options old new (array items) (array others) move.list ∧
      (move.source, move.target) ∈ (options.align items others).matched ∧
      move.source ≠ move.target ∧ others[move.target]? = some move.value := by
  generalize hchange : Change.itemMoved move.list move.source move.target move.value = change
    at hmove
  induction hmove with
  | itemMoved _ hij hne hb =>
      cases hchange
      exact ⟨_, _, h, hij, hne, hb⟩
  | member ha hb _ ih =>
      exact ih (h.child (compared_mem_steps_object_iff.2 ⟨_, rfl, ha, hb⟩)) hchange
  | partner hij ha hb _ ih =>
      exact ih (h.child (compared_mem_steps_array_iff.2 ⟨_, _, rfl, hij, ha, hb⟩)) hchange
  | _ => cases hchange

end Document

namespace ChangeSet

variable {options : DiffOptions} {old new : Document} {move : Move}

/-- The moves of a run, in the order of the walk. -/
def movesOf (changes : List Change) : List Move := changes.filterMap Change.move?

theorem movesOf_silent (changes : List Change) :
    movesOf (changes.filter (·.move?.isNone)) = [] := by
  refine List.filterMap_eq_nil_iff.2 fun change hchange => ?_
  exact Option.isNone_iff_eq_none.1 (List.mem_filter.1 hchange).2

theorem itemMoved_ofChanges (changes : List Change) :
    (ofChanges changes).itemMoved = (movesOf changes).map Move.record := by
  rw [movesOf, List.map_filterMap, ofChanges]
  refine List.filterMap_congr fun change _ => ?_
  cases change <;> rfl

/-- Only the bucket of the moves reads them. -/
theorem filterMap_silent {ρ : Type} {bucket : Change → Option ρ} (changes : List Change)
    (h : ∀ change, change.move?.isNone = false → bucket change = none) :
    (changes.filter (·.move?.isNone)).filterMap bucket = changes.filterMap bucket := by
  rw [List.filterMap_filter]
  refine List.filterMap_congr fun change _ => ?_
  cases hmove : change.move?.isNone with
  | true => exact if_pos rfl
  | false => rw [h change hmove, ite_self]

theorem ofChanges_silent (changes : List Change) :
    ofChanges (changes.filter (·.move?.isNone)) = { ofChanges changes with itemMoved := [] } := by
  have hmoved := itemMoved_ofChanges (changes.filter (·.move?.isNone))
  rw [movesOf_silent, List.map_nil] at hmoved
  rw [← hmoved]
  simp only [ofChanges, mk.injEq, and_true]
  refine ⟨?_, ?_, ?_, ?_, ?_⟩ <;>
  · apply filterMap_silent
    intro change hmove
    cases change <;> first | rfl | cases hmove

section AnyHash

variable [StandardHash]

theorem diffLog_eq (options : DiffOptions) (old new : Document) :
    old.diffLog options new = (movesOf (old.diff options new)).map Move.line := by
  rw [Document.diffLog, movesOf, List.map_filterMap]
  exact List.filterMap_congr fun change _ => change.traceText?_eq

theorem exists_matched_of_mem_movesOf (h : move ∈ movesOf (old.diff options new)) :
    ∃ items others, Document.Compared options old new (.array items) (.array others) move.list ∧
      (move.source, move.target) ∈ (options.align items others).matched ∧
      move.source ≠ move.target ∧ others[move.target]? = some move.value := by
  obtain ⟨change, hchange, hmove⟩ := List.mem_filterMap.1 h
  rw [Change.move?_eq_some_iff] at hmove
  subst hmove
  exact Document.Compared.root.exists_matched (Document.recorded_of_mem_changes hchange)

/-- In order nothing is matched, so nothing moves. -/
theorem movesOf_inOrder (hmode : options.ignoreOrder = false) (old new : Document) :
    movesOf (old.diff options new) = [] := by
  refine List.eq_nil_iff_forall_not_mem.2 fun move h => ?_
  obtain ⟨items, others, -, hmatched, -⟩ := exists_matched_of_mem_movesOf h
  rw [DiffOptions.align_inOrder hmode] at hmatched
  cases hmatched

theorem exists_foundIn_of_mem_movesOf (h : move ∈ movesOf (old.diff options new)) :
    ∃ items others, Document.Compared options old new (.array items) (.array others) move.list ∧
      move.FoundIn items others := by
  cases hmode : options.ignoreOrder with
  | false =>
      rw [movesOf_inOrder hmode] at h
      cases h
  | true =>
      obtain ⟨items, others, hcompared, hmatched, hmoved, hvalue⟩ :=
        exists_matched_of_mem_movesOf h
      rw [DiffOptions.align_anyOrder hmode, Alignment.mem_matched_ofItems] at hmatched
      exact ⟨items, others, hcompared, hmatched, hmoved, hvalue⟩

/-- Reporting moves adds the moves and their log lines, one for each in the same order, and nothing
else. -/
theorem between_reporting (ignoreOrder : Bool) (old new : Document) :
    let silent : DiffOptions := { ignoreOrder, reportMoves := false }
    let reporting : DiffOptions := { ignoreOrder, reportMoves := true }
    let moves := movesOf (old.diff reporting new)
    between silent old new = { between reporting old new with itemMoved := [] } ∧
      old.diffLog silent new = [] ∧
      (between reporting old new).itemMoved = moves.map Move.record ∧
      old.diffLog reporting new = moves.map Move.line ∧
      (ignoreOrder = false → moves = []) ∧
      ∀ move ∈ moves, move.list.accessor = move.list.path.rootedAccessor ∧
        ∃ items others,
          Document.Compared reporting old new (.array items) (.array others) move.list ∧
          (old.KeysDistinct → old.get? move.list.path = some (.array items)) ∧
          move.FoundIn items others := by
  intro silent reporting moves
  have hdiff : old.diff silent new = (old.diff reporting new).filter (·.move?.isNone) :=
    Document.changes_silent ignoreOrder old new .root
  refine ⟨?_, ?_, itemMoved_ofChanges _, diffLog_eq reporting old new,
    fun hmode => movesOf_inOrder hmode old new, ?_⟩
  · rw [between, hdiff, ofChanges_silent]
    rfl
  · rw [diffLog_eq, hdiff, movesOf_silent, List.map_nil]
  · intro move hmove
    obtain ⟨items, others, hcompared, hfound⟩ := exists_foundIn_of_mem_movesOf hmove
    exact ⟨hcompared.accurate, items, others, hcompared,
      fun ho => (hcompared.get?_old ho).1, hfound⟩

end AnyHash

/-- Two items change places, and two more in an array one level down that has changed itself. -/
theorem between_reporting_nested :
    let old := Document.object
      [("a", .array [.null, .array [.bool true, .string "x", .string "x"], .bool true])]
    let new := Document.object
      [("a", .array [.bool true, .array [.string "x", .string "x", .null], .null])]
    let reporting : DiffOptions := { reportMoves := true }
    let list := (Location.root.key "a").index 1
    old.KeysDistinct ∧
      between {} old new = { between reporting old new with itemMoved := [] } ∧
      (∃ items others, old.get? list.path = some (.array items) ∧
        Move.FoundIn ⟨list, 1, 0, .string "x"⟩ items others) ∧
      (old.diffLog reporting new).map LogLine.text =
        ["root['a']: item 2 moved to 0", "root['a']: item 0 moved to 2",
          "root['a'][1]: item 1 moved to 0", "root['a'][1]: item 2 moved to 1"] := by
  intro old new reporting list
  have ho : old.KeysDistinct := by
    simp [old, Document.KeysDistinct, Document.ItemsDistinct, Document.MembersDistinct]
  obtain ⟨hsame, -, -, hlog, -, hmoves⟩ := between_reporting true old new
  have hrun : movesOf (old.diff reporting new) =
      [⟨Location.root.key "a", 2, 0, .bool true⟩, ⟨Location.root.key "a", 0, 2, .null⟩,
        ⟨list, 1, 0, .string "x"⟩, ⟨list, 2, 1, .string "x"⟩] := rfl
  rw [hrun] at hlog hmoves
  obtain ⟨-, items, others, -, hget, hfound⟩ :=
    hmoves ⟨list, 1, 0, .string "x"⟩ (.tail _ (.tail _ (.head _)))
  exact ⟨ho, hsame, ⟨items, others, hget ho, hfound⟩, by rw [hlog]; decide⟩

end ChangeSet

end JsonDelta
