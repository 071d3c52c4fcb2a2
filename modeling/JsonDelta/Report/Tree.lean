import JsonDelta.Report.Entry
import JsonDelta.Report.Preview
/-!
Report trees: entries grouped by location. A node holds the records made at exactly its place, and
below it one child per key, in the order in which the keys came up.
-/

namespace JsonDelta.Report

structure Leaf where
  tag : ChangeTag
  text : String
  deriving DecidableEq

inductive Tree where
  | node (leaves : List Leaf) (children : List (String × Tree))

namespace Tree

def empty : Tree := .node [] []

def leaves : Tree → List Leaf
  | .node leaves _ => leaves

def children : Tree → List (String × Tree)
  | .node _ children => children

def isLeaf (tree : Tree) : Bool := tree.children.isEmpty

def isBranch (tree : Tree) : Bool := !tree.isLeaf

/-- The node at the end of a walk from the root. -/
def find? : Tree → List String → Option Tree
  | tree, [] => some tree
  | tree, key :: keys => (tree.children.lookup key).bind fun child => child.find? keys

/-- Changes the child at a key, which is appended empty if it is missing. -/
def updateChild (key : String) (change : Tree → Tree) :
    List (String × Tree) → List (String × Tree)
  | [] => [(key, change empty)]
  | (k, child) :: rest =>
    if k = key then (k, change child) :: rest else (k, child) :: updateChild key change rest

theorem lookup_updateChild (key other : String) (change : Tree → Tree)
    (children : List (String × Tree)) :
    (updateChild key change children).lookup other =
      if other = key then some (change ((children.lookup key).getD empty))
      else children.lookup other := by
  induction children with
  | nil =>
    by_cases h : other = key
    · simp [updateChild, h]
    · simp [updateChild, List.lookup_cons, h, beq_false_of_ne h]
  | cons c rest ih =>
    obtain ⟨k, child⟩ := c
    rw [updateChild]
    by_cases hk : k = key
    · subst hk
      by_cases h : other = k
      · simp [h]
      · simp [List.lookup_cons, h, beq_false_of_ne h]
    · by_cases h : other = k
      · subst h
        simp [hk]
      · simp [hk, List.lookup_cons, beq_false_of_ne h, beq_false_of_ne (Ne.symm hk), ih]

/-- Changes the node at the end of a walk; missing nodes are made on the way. -/
def update : List String → (Tree → Tree) → Tree → Tree
  | [], change, tree => change tree
  | key :: keys, change, .node leaves children =>
    .node leaves (updateChild key (update keys change) children)

def ensure (tree : Tree) (keys : List String) : Tree := update keys id tree

def addLeaf (tree : Tree) (keys : List String) (leaf : Leaf) : Tree :=
  update keys (fun node => .node (node.leaves ++ [leaf]) node.children) tree

end Tree

/-- The walk to an entry's node. The whole document stands under the key `root`. -/
def Entry.walk (entry : Entry) : List String :=
  if entry.path = [] then [rootMarker] else entry.path.map Segment.text

def nest (limit : Nat) (entries : List Entry) : Tree :=
  entries.foldl (fun tree entry =>
    tree.addLeaf entry.walk ⟨entry.tag, entry.value.preview limit⟩) .empty

end JsonDelta.Report
