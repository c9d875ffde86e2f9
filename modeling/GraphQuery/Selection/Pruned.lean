import GraphQuery.Selection.Fragments
import GraphQuery.Selection.Normal

/-!
# Selection.Pruned — the least selection a tree stands for

- `Selection.elide` : composite selections without children disappear
- `Pruned` : an operation and the fragments it uses
- `Selection.prune` : the tree in normal form, its fragments taken out, spread and put in normal
  form themselves, and nothing empty left
-/

set_option autoImplicit false

namespace GraphQuery

namespace Selection

/-- A field or subtype of composite type that selects nothing. -/
def isVoid (s : Selection) : Bool :=
  s.label.needsChildren && s.children.isEmpty

mutual

def elide : Selection → Selection
  | .node label children => .node label (elideAll children)

/-- Leaves out what selects nothing, also what selects nothing but such selections. -/
def elideAll : List Selection → List Selection
  | [] => []
  | child :: rest =>
      let child := elide child
      if child.isVoid then elideAll rest else child :: elideAll rest

end

end Selection

structure Pruned where
  root : Selection
  fragments : List FragmentDefinition

/-- A definition in normal form: one that was merged from several may repeat fields. -/
def FragmentDefinition.normalize (limit : Nat) (fragment : FragmentDefinition) :
    Except CompileError FragmentDefinition := do
  return { fragment with children := ← Selection.normalize limit (limit + 1) fragment.children }

/-- A definition without empty selections. It has to select something. -/
def FragmentDefinition.elide (fragment : FragmentDefinition) :
    Except CompileError FragmentDefinition :=
  let children := Selection.elideAll fragment.children
  if children.isEmpty then .error (.emptySelection fragment.name)
  else .ok { fragment with children }

/-- The pruned form of a tree, whose root is at depth 0 of the limit. -/
def Selection.prune (limit : Nat) (tree : Selection) : Except CompileError Pruned := do
  let children ← normalize limit (limit + 1) tree.children
  let (children, fragments) ← extractAll [] children
  -- Definitions of one name were put together, so they are brought into normal form again.
  let fragments ← fragments.mapM (FragmentDefinition.normalize limit)
  let root := elide (substitute fragments (.node tree.label children))
  if root.isVoid then throw (.emptySelection root.label.name)
  return { root, fragments := ← fragments.mapM FragmentDefinition.elide }

end GraphQuery
