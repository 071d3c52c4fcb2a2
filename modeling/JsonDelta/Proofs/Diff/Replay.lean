import JsonDelta.Diff.ChangeSet
import JsonDelta.Proofs.Document.Edit
/-!
Replaying changes on a document. Each recorded change is read as one edit, and a change set as a
sequence of stages, one for each kind of change.

`Effect edits path a b` says that the edits turn a value `a` at the path into `b` and touch nothing
else, wherever the path leads to `a`. Effects compose along sequences and from children to their
containers, so the effect of a whole stage follows from those of its parts.
-/

namespace JsonDelta

inductive Edit where
  | replace (path : Path) (value : Document)
  | add (path : Path) (value : Document)
  | delete (path : Path)

def Edit.apply? (d : Document) : Edit → Option Document
  | replace path value => d.set? path value
  | add path value => d.add? path value
  | delete path => d.delete? path

/-- Applies one edit after the other; every one has to succeed. -/
def Document.replay? (d : Document) (edits : List Edit) : Option Document :=
  edits.foldlM Edit.apply? d

/-! The stages. -/

/-- The kinds of changes that are edits; moves are none. -/
inductive Stage where
  | replaced | keyAdded | itemAdded | keyRemoved | itemRemoved
  deriving DecidableEq

/-- What a change asks for, if it is of the kind. -/
def Change.edit? : Stage → Change → Option Edit
  | .replaced, .valueChanged place _ new => some (.replace place.path new)
  | .keyAdded, .keyAdded place value => some (.add place.path value)
  | .itemAdded, .itemAdded place value => some (.add place.path value)
  | .keyRemoved, .keyRemoved place _ => some (.delete place.path)
  | .itemRemoved, .itemRemoved place _ => some (.delete place.path)
  | _, _ => none

/-- The kind of a change that is an edit. -/
def Change.stage? : Change → Option Stage
  | .valueChanged .. => some .replaced
  | .keyAdded .. => some .keyAdded
  | .itemAdded .. => some .itemAdded
  | .keyRemoved .. => some .keyRemoved
  | .itemRemoved .. => some .itemRemoved
  | .itemMoved .. => none

def Stage.edits (stage : Stage) (changes : List Change) : List Edit :=
  changes.filterMap (Change.edit? stage)

namespace Stage

variable (stage : Stage)

@[simp] theorem edits_nil : stage.edits [] = [] := rfl

theorem edits_append (changes others : List Change) :
    stage.edits (changes ++ others) = stage.edits changes ++ stage.edits others :=
  List.filterMap_append ..

theorem edits_flatMap {ι : Type} (f : ι → List Change) (parts : List ι) :
    stage.edits (parts.flatMap f) = parts.flatMap fun part => stage.edits (f part) :=
  List.filterMap_flatMap ..

theorem edits_eq_nil {changes : List Change}
    (h : ∀ change ∈ changes, change.stage? ≠ some stage) : stage.edits changes = [] := by
  refine List.filterMap_eq_nil_iff.2 fun change hchange => ?_
  have hne := h change hchange
  cases change <;> cases stage <;> first | rfl | exact absurd rfl hne

theorem edits_singleton_of_ne {change : Change} (h : change.stage? ≠ some stage) :
    stage.edits [change] = [] := by
  apply edits_eq_nil
  intro c hc
  rwa [List.mem_singleton.1 hc]

end Stage

namespace ChangeSet

/-- The edits of one bucket, in bucket order. -/
def edits (set : ChangeSet) : Stage → List Edit
  | .replaced => set.valueChanged.map fun change => .replace change.place.path change.new
  | .keyAdded => set.keyAdded.map fun change => .add change.place.path change.value
  | .itemAdded => set.itemAdded.map fun change => .add change.place.path change.value
  | .keyRemoved => set.keyRemoved.map fun change => .delete change.place.path
  | .itemRemoved => set.itemRemoved.map fun change => .delete change.place.path

theorem edits_ofChanges (changes : List Change) (stage : Stage) :
    (ofChanges changes).edits stage = stage.edits changes := by
  cases stage
  all_goals
    rw [edits, ofChanges, List.map_filterMap]
    refine List.filterMap_congr fun change _ => ?_
    cases change <;> rfl

end ChangeSet

/-! Effects. -/

/-- A list as it is, or backwards. -/
def directed {α : Type} (backwards : Bool) (l : List α) : List α :=
  if backwards then l.reverse else l

@[simp] theorem directed_nil {α : Type} (backwards : Bool) :
    directed backwards ([] : List α) = [] := by
  cases backwards <;> rfl

@[simp] theorem directed_singleton {α : Type} (backwards : Bool) (x : α) :
    directed backwards [x] = [x] := by
  cases backwards <;> rfl

theorem directed_flatMap {ι α : Type} (backwards : Bool) (f : ι → List α) (l : List ι) :
    directed backwards (l.flatMap f) =
      (directed backwards l).flatMap fun i => directed backwards (f i) := by
  cases backwards with
  | false => rfl
  | true => exact List.reverse_flatMap ..

def Effect (edits : List Edit) (path : Path) (a b : Document) : Prop :=
  ∀ d : Document, d.get? path = some a → d.replay? edits = d.set? path b

namespace Effect

variable {edits others : List Edit} {path : Path} {segment : Segment} {a b c value : Document}

theorem replay?_eq (h : Effect edits [] a b) : a.replay? edits = some b := by
  rw [h a (Document.get?_nil a), Document.set?_nil]

theorem nil (path : Path) (a : Document) : Effect [] path a a :=
  fun _ hd => (Document.set?_self hd).symm

theorem append (he : Effect edits path a b) (ho : Effect others path b c) :
    Effect (edits ++ others) path a c := by
  intro d hd
  obtain ⟨d', hd'⟩ := Document.exists_set?_of_get? hd b
  have hfirst : d.replay? edits = some d' := (he d hd).trans hd'
  have hsecond := (ho d' (Document.get?_set? hd')).trans (Document.set?_set? hd' c)
  rw [← hsecond, Document.replay?, List.foldlM_append, ← Document.replay?, hfirst]
  rfl

/-- An effect on a child is an effect on its container. -/
theorem child (h : Effect edits (path ++ [segment]) a b) (hc : c.child? segment = some a) :
    Effect edits path c (c.setChild segment b) := by
  intro d hd
  rw [← Document.set?_append hd hc b]
  exact h d (by rw [Document.get?_append, hd, Option.bind_some, Document.get?_cons hc,
    Document.get?_nil])

theorem single {edit : Edit} (h : ∀ d, d.get? path = some a → edit.apply? d = d.set? path b) :
    Effect [edit] path a b := by
  intro d hd
  rw [← h d hd, Document.replay?, List.foldlM_cons]
  exact bind_pure _

theorem replace (path : Path) (a b : Document) : Effect [.replace path b] path a b :=
  single fun _ _ => rfl

theorem add (h : a.addChild? segment value = some b) :
    Effect [.add (path ++ [segment]) value] path a b :=
  single fun _ hd => Document.add?_append hd h

theorem delete (h : a.eraseChild? segment = some b) :
    Effect [.delete (path ++ [segment])] path a b :=
  single fun _ hd => Document.delete?_append hd h

/-! Walks. A container holds the pieces of its parts one after the other, and each part has edits
that exchange its own piece. On the way forwards the pieces in front are new, on the way backwards
they are old. -/

section Walk

variable {ι α : Type} {parts : List ι} {partEdits : ι → List Edit} {before after : ι → List α}
  {container : List α → Document}

theorem walk_forwards (rest : List α)
    (step : ∀ done part todo, parts = done ++ part :: todo → ∀ behind,
      Effect (partEdits part) path (container (done.flatMap after ++ (before part ++ behind)))
        (container (done.flatMap after ++ (after part ++ behind)))) :
    Effect (parts.flatMap partEdits) path (container (parts.flatMap before ++ rest))
      (container (parts.flatMap after ++ rest)) := by
  -- The invariant: the walk has `done` behind it and `todo` ahead.
  suffices h : ∀ todo done, parts = done ++ todo →
      Effect (todo.flatMap partEdits) path
        (container (done.flatMap after ++ (todo.flatMap before ++ rest)))
        (container (done.flatMap after ++ (todo.flatMap after ++ rest))) from h parts [] rfl
  intro todo
  induction todo with
  | nil => exact fun done _ => nil path _
  | cons part todo ih =>
      intro done hparts
      have hfirst := step done part todo hparts (todo.flatMap before ++ rest)
      have hrest := ih (done ++ [part]) (by simpa using hparts)
      simp only [List.flatMap_append, List.flatMap_cons, List.flatMap_nil, List.append_nil,
        List.append_assoc] at hrest ⊢
      exact hfirst.append hrest

theorem walk_backwards (rest : List α)
    (step : ∀ done part todo, parts = done ++ part :: todo → ∀ behind,
      Effect (partEdits part) path (container (done.flatMap before ++ (before part ++ behind)))
        (container (done.flatMap before ++ (after part ++ behind)))) :
    Effect (parts.reverse.flatMap partEdits) path (container (parts.flatMap before ++ rest))
      (container (parts.flatMap after ++ rest)) := by
  suffices h : ∀ todo done, parts = done ++ todo →
      Effect (todo.reverse.flatMap partEdits) path
        (container (done.flatMap before ++ (todo.flatMap before ++ rest)))
        (container (done.flatMap before ++ (todo.flatMap after ++ rest))) from h parts [] rfl
  intro todo
  induction todo with
  | nil => exact fun done _ => nil path _
  | cons part todo ih =>
      intro done hparts
      have hfirst := step done part todo hparts (todo.flatMap after ++ rest)
      have hrest := ih (done ++ [part]) (by simpa using hparts)
      simp only [List.flatMap_append, List.flatMap_cons, List.flatMap_nil, List.append_nil,
        List.append_assoc, List.reverse_cons] at hrest ⊢
      exact hrest.append hfirst

theorem walk (backwards : Bool) (rest : List α)
    (step : ∀ done part todo, parts = done ++ part :: todo → ∀ behind,
      Effect (directed backwards (partEdits part)) path
        (container (done.flatMap (if backwards then before else after) ++ (before part ++ behind)))
        (container
          (done.flatMap (if backwards then before else after) ++ (after part ++ behind)))) :
    Effect (directed backwards (parts.flatMap partEdits)) path
      (container (parts.flatMap before ++ rest)) (container (parts.flatMap after ++ rest)) := by
  rw [directed_flatMap]
  cases backwards with
  | false => exact walk_forwards rest step
  | true => exact walk_backwards rest step

end Walk

end Effect

end JsonDelta
