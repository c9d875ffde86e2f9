import GraphQuery.Selection.Basic

/-!
# Selection.Normal — selections without repetitions

In a normal tree no two children of a node merge, and no subtype selects a field that the node
selects anyway.

- `Selection.mergeInto`, `Selection.mergeAll` : children that merge become one
- `Selection.foldSubtypes` : fields of subtypes move to equal fields beside the subtype
- `Selection.normalize` : both, at every level down to a limit
-/

set_option autoImplicit false

namespace GraphQuery

namespace Selection

/-! ## Merging -/

/-- Merges a node into the first one that it merges with, or puts it last. -/
def mergeInto (merged : List Selection) (child : Selection) :
    Except CompileError (List Selection) :=
  match merged with
  | [] => .ok [child]
  | other :: rest =>
      if other.label.mergesWith child.label then do
        return (← other.absorb child) :: rest
      else do
        return other :: (← mergeInto rest child)

def mergeAll (children : List Selection) : Except CompileError (List Selection) :=
  children.foldlM mergeInto []

/-! ## Folding subtypes -/

/-- Whether a node is a field that one of the siblings of its subtype selects as well. -/
def selectedBy (siblings : List Selection) (node : Selection) : Bool :=
  node.label.isField &&
    siblings.any fun field => field.label.isField && field.label.sameSelection node.label

/-- What stays of a child when its siblings select some of its fields. -/
def keepUnselected (siblings : List Selection) : Selection → Selection
  | .node label children =>
      if label.isSubtype then .node label (children.filter fun node => !selectedBy siblings node)
      else .node label children

/-- The fields of subtypes that siblings select as well, in tree order. -/
def selectedElsewhere (siblings : List Selection) : List Selection :=
  siblings.flatMap fun child =>
    if child.label.isSubtype then child.children.filter (selectedBy siblings) else []

/-- Adds the children of a node to the first field that selects the same. -/
def addToField (node : Selection) : List Selection → List Selection
  | [] => []
  | child :: rest =>
      if child.label.isField && child.label.sameSelection node.label then
        .node child.label (child.children ++ node.children) :: rest
      else child :: addToField node rest

def foldSubtypes (children : List Selection) : List Selection :=
  (selectedElsewhere children).foldl (fun found node => addToField node found)
    (children.map (keepUnselected children))

/-! ## All levels -/

/-- The children of a node in normal form. `levels` counts the levels that the limit leaves. -/
def normalize (limit : Nat) : Nat → List Selection → Except CompileError (List Selection)
  | 0, _ => .error (.recursionLimitExceeded limit)
  | levels + 1, children => do
      let merged ← mergeAll children
      -- Folding adds children to fields, so each child is brought into normal form after it.
      (foldSubtypes merged).mapM fun child => do
        return .node child.label (← normalize limit levels child.children)

end Selection

end GraphQuery
