import GraphQuery.Selection.Basic

/-!
# Selection.Fragments — definitions and spreads of fragments

- `FragmentDefinition` : a fragment taken out of the tree
- `Selection.extract` : definitions become spreads, those of one name become one definition
- `Selection.covers` : whether the children of a fragment select all that a node does
- `Selection.substitute` : every selection of a fragment's type spreads it
-/

set_option autoImplicit false

namespace GraphQuery

structure FragmentDefinition where
  name : String
  type : GraphType
  children : List Selection

namespace Selection

/-! ## Extraction -/

/-- Adds a definition to those before it. Two definitions of one name are one, with the children
of both; they have to be of one type. -/
def define (fragment : FragmentDefinition) :
    List FragmentDefinition → Except CompileError (List FragmentDefinition)
  | [] => .ok [fragment]
  | other :: rest =>
      if other.name = fragment.name then
        if other.type = fragment.type then
          .ok ({ other with children := other.children ++ fragment.children } :: rest)
        else .error (.conflictingFieldShape other.name other.type fragment.type)
      else do
        return other :: (← define fragment rest)

mutual

/-- Replaces every definition in a tree by a spread and collects it, those inside it first. -/
def extract (found : List FragmentDefinition) :
    Selection → Except CompileError (Selection × List FragmentDefinition)
  | .node label children => do
      -- Inner definitions come first in the document.
      let (children, found) ← extractAll found children
      match label with
      | .fragment name type =>
          return (.node (.spread name type) [], ← define ⟨name, type, children⟩ found)
      | label => return (.node label children, found)

def extractAll (found : List FragmentDefinition) :
    List Selection → Except CompileError (List Selection × List FragmentDefinition)
  | [] => return ([], found)
  | child :: rest => do
      let (child, found) ← extract found child
      let (rest, found) ← extractAll found rest
      return (child :: rest, found)

end

/-! ## Substitution -/

mutual

/-- Whether one of the candidates selects the same as a node, and all that is below the node. -/
def covers (candidates : List Selection) : Selection → Bool
  | .node label children =>
      candidates.any fun candidate =>
        candidate.label.sameSelection label && coversAll candidate.children children

def coversAll (candidates : List Selection) : List Selection → Bool
  | [] => true
  | child :: rest => covers candidates child && coversAll candidates rest

end

/-- Spreads a fragment among children: those that it covers go, and the spread comes last unless
it is there. -/
def spread (fragment : FragmentDefinition) (children : List Selection) : List Selection :=
  let kept := children.filter fun child =>
    child.label.isSpread || !covers fragment.children child
  -- Spreads stay, even where the fragment itself spreads the same.
  let label : Label := .spread fragment.name fragment.type
  if kept.any fun child => child.label.mergesWith label then kept else kept ++ [.node label []]

/-- Spreads every fragment of a node's own type among its children. -/
def spreadAll (fragments : List FragmentDefinition) (label : Label) (children : List Selection) :
    List Selection :=
  if label.needsChildren then
    fragments.foldl (fun children fragment =>
      if fragment.type.typeRef = label.type.typeRef then spread fragment children
      else children) children
  else children

mutual

/-- Spreads the fragments wherever their types are selected, from the leaves up. -/
def substitute (fragments : List FragmentDefinition) : Selection → Selection
  | .node label children =>
      .node label (spreadAll fragments label (substituteAll fragments children))

def substituteAll (fragments : List FragmentDefinition) : List Selection → List Selection
  | [] => []
  | child :: rest => substitute fragments child :: substituteAll fragments rest

end

end Selection

end GraphQuery
