import GraphQuery.Selection.Basic

/-!
# Selection.Focused — trees with the node that later steps apply to

- `Focused` : a tree and the path to its head
- `Focused.attach` : a tree added below the head
-/

set_option autoImplicit false

namespace GraphQuery

/-- The tree that an expression selects. The next step of the expression applies to the head. -/
structure Focused where
  root : Selection
  path : List Nat

namespace Focused

/-- A tree whose head is its root. -/
def ofRoot (root : Selection) : Focused := ⟨root, []⟩

def head (s : Focused) : Selection :=
  (s.root.descendant? s.path).getD s.root

/-- The definition that the type of the head refers to. -/
def owner (s : Focused) : TypeRef := s.head.label.type.typeRef

/-- Adds a tree as the last child of the head. When the head moves, it becomes that of the tree. -/
def attach (s other : Focused) (moveHead : Bool) : Focused where
  root := s.root.modifyAt (Selection.push other.root) s.path
  path := if moveHead then s.path ++ s.head.children.length :: other.path else s.path

end Focused

end GraphQuery
