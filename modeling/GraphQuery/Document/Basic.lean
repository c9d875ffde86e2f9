import GraphQuery.Document.Outline
import GraphQuery.Schema.Type

/-!
# Document — query documents as they are printed

- `DocumentNode` : what is printed of a selection
- `FragmentBlock`, `Document` : an operation with its variables, and the fragments it uses
- `Document.text` : the text of a document
-/

set_option autoImplicit false

namespace GraphQuery

inductive DocumentNode where
  /-- A field with its arguments, each passing a variable. -/
  | field (name : String) (arguments : List (String × String)) (children : List DocumentNode)
  | spread (name : String)
  | subtype (typeName : String) (children : List DocumentNode)
  deriving Repr, Inhabited

structure FragmentBlock where
  name : String
  typeName : String
  children : List DocumentNode
  deriving Repr

structure Document where
  /-- Names and types of the declared variables. -/
  declared : List (String × TypeExpr)
  root : DocumentNode
  fragments : List FragmentBlock
  deriving Repr

namespace DocumentNode

/-- Items between parentheses, and nothing where there are none. -/
def parenthesized (items : List String) : String :=
  if items.isEmpty then "" else "(" ++ ", ".intercalate items ++ ")"

def argumentText (argument : String × String) : String :=
  argument.1 ++ ": $" ++ argument.2

/-- A line, or a block where something is selected below. -/
def entry (heading : String) (body : List Outline) : Outline :=
  if body.isEmpty then .line heading else .block heading body

mutual

def outline : DocumentNode → Outline
  | .field name arguments children =>
      entry (name ++ parenthesized (arguments.map argumentText)) (outlines children)
  | .spread name => .line ("... " ++ name)
  | .subtype typeName children => entry ("... on " ++ typeName) (outlines children)

def outlines : List DocumentNode → List Outline
  | [] => []
  | node :: rest => outline node :: outlines rest

end

end DocumentNode

namespace Document

def declarationText (v : String × TypeExpr) : String :=
  "$" ++ v.1 ++ ": " ++ v.2.text

def operationOutline (document : Document) : Outline :=
  .block ("query" ++ DocumentNode.parenthesized (document.declared.map declarationText))
    [document.root.outline]

def fragmentOutline (fragment : FragmentBlock) : Outline :=
  .block ("fragment " ++ fragment.name ++ " on " ++ fragment.typeName)
    (DocumentNode.outlines fragment.children)

/-- The operation, and each fragment behind an empty line. -/
def text (document : Document) : String :=
  document.operationOutline.text 0 ++
    String.join (document.fragments.map fun fragment => "\n" ++ (fragmentOutline fragment).text 0)

end Document

end GraphQuery
