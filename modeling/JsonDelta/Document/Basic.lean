import JsonDelta.Number
/-!
JSON documents. Objects keep their members in order, and no key of a document that was read occurs
twice in one object.
-/

namespace JsonDelta

inductive Document where
  | null
  | bool (b : Bool)
  | number (n : Number)
  | string (s : String)
  | array (items : List Document)
  | object (members : List (String × Document))

/-- The kinds of values; all numbers are one kind. -/
inductive Kind where
  | null | boolean | number | string | array | object
  deriving DecidableEq

def Kind.isContainer : Kind → Bool
  | .array | .object => true
  | _ => false

namespace Document

def kind : Document → Kind
  | null => .null
  | bool _ => .boolean
  | number _ => .number
  | string _ => .string
  | array _ => .array
  | object _ => .object

/-- What holds of scalars, and of containers when it holds of their values, holds of every
document. -/
theorem induction {P : Document → Prop} (scalar : ∀ d, d.kind.isContainer = false → P d)
    (array : ∀ items, (∀ d ∈ items, P d) → P (array items))
    (object : ∀ members, (∀ m ∈ members, P m.2) → P (object members)) (d : Document) : P d :=
  @Document.rec P (fun items => ∀ d ∈ items, P d) (fun members => ∀ m ∈ members, P m.2)
    (fun m => P m.2) (scalar _ rfl) (fun _ => scalar _ rfl) (fun _ => scalar _ rfl)
    (fun _ => scalar _ rfl) array object (fun _ h => nomatch h)
    (fun _ _ h hs => List.forall_mem_cons.2 ⟨h, hs⟩) (fun _ h => nomatch h)
    (fun _ _ h hs => List.forall_mem_cons.2 ⟨h, hs⟩) (fun _ _ h => h) d

/-- Two documents are walked together as long as both are arrays or both are objects. -/
theorem pairInduction {P : Document → Document → Prop}
    (whole : ∀ a b, a.kind.isContainer = false ∨ a.kind ≠ b.kind → P a b)
    (array : ∀ items others, (∀ a ∈ items, ∀ b ∈ others, P a b) → P (array items) (array others))
    (object : ∀ members others, (∀ m ∈ members, ∀ o ∈ others, P m.2 o.2) →
      P (object members) (object others)) (a b : Document) : P a b := by
  induction a using Document.induction generalizing b with
  | scalar a h => exact whole a b (.inl h)
  | array items ih =>
    by_cases h : (Document.array items).kind = b.kind
    · cases b with
      | array others => exact array items others fun a ha b _ => ih a ha b
      | _ => cases h
    · exact whole _ b (.inr h)
  | object members ih =>
    by_cases h : (Document.object members).kind = b.kind
    · cases b with
      | object others => exact object members others fun m hm o _ => ih m hm o.2
      | _ => cases h
    · exact whole _ b (.inr h)

end Document

/-! Members of an object, found by key. -/

namespace Members

/-- Gives a key its value: in place if the key is there, at the end otherwise. -/
def put (key : String) (value : Document) : List (String × Document) → List (String × Document)
  | [] => [(key, value)]
  | (k, v) :: rest => if k = key then (key, value) :: rest else (k, v) :: put key value rest

def erase (key : String) : List (String × Document) → List (String × Document)
  | [] => []
  | (k, v) :: rest => if k = key then rest else (k, v) :: erase key rest

theorem lookup_put (key other : String) (value : Document) (members : List (String × Document)) :
    (put key value members).lookup other =
      if other = key then some value else members.lookup other := by
  induction members with
  | nil =>
    by_cases h : other = key
    · simp [put, h]
    · simp [put, List.lookup_cons, h, beq_false_of_ne h]
  | cons m rest ih =>
    obtain ⟨k, v⟩ := m
    rw [put]
    by_cases hk : k = key
    · subst hk
      by_cases h : other = k
      · simp [h]
      · simp [List.lookup_cons, h, beq_false_of_ne h]
    · by_cases h : other = k
      · subst h
        simp [hk]
      · simp [hk, List.lookup_cons, beq_false_of_ne h, ih]

end Members

end JsonDelta
