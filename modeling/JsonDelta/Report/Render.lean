import JsonDelta.Report.Tree
/-!
Reports as text. The nested layout has a line of bracketed keys for each node, with its records
below; a chain of nodes that hold nothing but one child takes a single line. The flat layout has a
line for each record.
-/

namespace JsonDelta.Report

inductive Layout where
  | nested | flat
  deriving DecidableEq

structure RenderOptions where
  color : Bool := false
  /-- Characters of a preview. -/
  lengthLimit : Nat := 100

/-- Lines before the first text that is not empty leave no break. -/
def joinLines (lines : List String) : String :=
  lines.foldl (fun text line => if text = "" then line else text ++ "\n" ++ line) ""

/-- The lines, and the note below them if there is one. -/
def withNote (lines : List String) (note : String) : String :=
  joinLines (if note = "" then lines else lines ++ [note])

def indentation (level : Nat) : String := String.join (List.replicate level "    ")

def keyText (key : String) : String := "[" ++ key ++ "]"

namespace Tree

variable (color : Bool)

def leafLine (level : Nat) (leaf : Leaf) : String :=
  leaf.tag.color.paint color (leaf.tag.leader ++ indentation level ++ leaf.text)

/-- A line of keys takes the color of the record it leads to, if that is the only one. -/
def keyLine (line : String) : Tree → String
  | .node [leaf] [] => leaf.tag.color.paint color line
  | _ => line

mutual

def lines (level : Nat) : Tree → List String
  | .node leaves children => leaves.map (leafLine color level) ++ childLines level children

def childLines (level : Nat) : List (String × Tree) → List String
  | [] => []
  | (key, child) :: rest =>
    chainLines level ("  " ++ indentation level ++ keyText key) child ++ childLines level rest

/-- The lines of a node whose keys so far are in `line`. -/
def chainLines (level : Nat) (line : String) : Tree → List String
  | .node [] [(key, child)] => chainLines level (line ++ keyText key) child
  | .node leaves children =>
    keyLine color line (.node leaves children) ::
      (leaves.map (leafLine color (level + 1)) ++ childLines (level + 1) children)

end

end Tree

def renderNested (options : RenderOptions) (note : String) (tree : Tree) : String :=
  withNote (tree.lines options.color 0) note

def entryLine (options : RenderOptions) (entry : Entry) : String :=
  entry.tag.color.paint options.color
    (entry.tag.leader ++ entry.path.accessor ++ ": " ++ entry.value.preview options.lengthLimit)

def renderFlat (options : RenderOptions) (note : String) (entries : List Entry) : String :=
  withNote (entries.map (entryLine options)) note

def render (layout : Layout) (options : RenderOptions) (listing : Listing) : String :=
  match layout with
  | .nested => renderNested options listing.note (nest options.lengthLimit listing.entries)
  | .flat => renderFlat options listing.note listing.entries

/-- The report of a change set, with at most `limit` entries unless it is zero. -/
def format (set : ChangeSet) (limit : Nat) (options : RenderOptions) (layout : Layout) : String :=
  render layout options (Listing.flatten set limit)

end JsonDelta.Report
