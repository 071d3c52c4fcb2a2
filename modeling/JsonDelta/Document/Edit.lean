import JsonDelta.Document.Basic
import JsonDelta.Path.Basic
/-!
Looking up, replacing and deleting by path. A key applies to objects only, and an index only to
arrays that are long enough.
-/

namespace JsonDelta.Document

/-! One step down. -/

def child? : Document → Segment → Option Document
  | object members, .key name => members.lookup name
  | array items, .index (.ofNat i) => items[i]?
  | _, _ => none

/-- Puts a value in the place of a child that is there. -/
def setChild : Document → Segment → Document → Document
  | object members, .key name, value => object (Members.put name value members)
  | array items, .index (.ofNat i), value => array (items.set i value)
  | d, _, _ => d

def eraseChild? (d : Document) (segment : Segment) : Option Document :=
  match d.child? segment, d, segment with
  | some _, object members, .key name => some (object (Members.erase name members))
  | some _, array items, .index (.ofNat i) => some (array (items.eraseIdx i))
  | _, _, _ => none

/-! Whole paths. -/

def get? : Document → Path → Option Document
  | d, [] => some d
  | d, segment :: path => (d.child? segment).bind fun child => child.get? path

@[simp] theorem get?_nil (d : Document) : d.get? [] = some d := by
  cases d <;> rfl

theorem get?_append (d : Document) (p q : Path) :
    d.get? (p ++ q) = (d.get? p).bind fun child => child.get? q := by
  induction p generalizing d with
  | nil => simp
  | cons s p ih =>
    simp only [List.cons_append, get?]
    cases d.child? s with
    | none => rfl
    | some child => exact ih child

/-- The document with `value` at the path, if there is a value to replace. -/
def set? : Document → Path → Document → Option Document
  | _, [], value => some value
  | d, segment :: path, value => do
    let child ← d.child? segment
    return d.setChild segment (← child.set? path value)

/-- The document without the value at the path, if there is one; the whole document cannot be
deleted. -/
def delete? : Document → Path → Option Document
  | _, [] => none
  | d, [segment] => d.eraseChild? segment
  | d, segment :: path => do
    let child ← d.child? segment
    return d.setChild segment (← child.delete? path)

/-- Deletes one path after the other, skipping those that lead nowhere, and counts the deletions. -/
def strip (d : Document) (paths : List Path) : Document × Nat :=
  paths.foldl (fun (d, count) path => ((d.delete? path).map (·, count + 1)).getD (d, count)) (d, 0)

end JsonDelta.Document
