import GraphQuery.Schema.Basic
import GraphQuery.Selection.Error

/-!
# Selection — trees of selected fields

- `Label` : what a node selects
- `Selection` : a node with the selections below it
- `Label.mergesWith`, `Label.sameSelection` : when two nodes are one, or one stands in for another
- `Selection.absorb` : two nodes merged into one
- `Selection.descendant?`, `Selection.modifyAt` : nodes by the path of child positions to them
-/

set_option autoImplicit false

namespace GraphQuery

inductive Label where
  /-- A field with the arguments it declares and the source of their values. -/
  | field (name : String) (type : GraphType) (arguments : List Argument)
      (source : Option ArgumentSource)
  /-- The discriminator of an abstract selection, tagged with its type. -/
  | typename (type : GraphType)
  /-- What is selected for values of a type only. -/
  | subtype (type : GraphType)
  /-- The definition of a fragment, at the place it is applied. -/
  | fragment (name : String) (type : GraphType)
  /-- The use of a fragment that is defined elsewhere. -/
  | spread (name : String) (type : GraphType)

inductive Selection where
  | node (label : Label) (children : List Selection)

namespace Label

/-- The name of a field or fragment. Subtypes have none. -/
def name : Label → String
  | .field name _ _ _ => name
  | .typename _ => Name.discriminator
  | .subtype _ => ""
  | .fragment name _ => name
  | .spread name _ => name

def type : Label → GraphType
  | .field _ type _ _ => type
  | .typename type => type
  | .subtype type => type
  | .fragment _ type => type
  | .spread _ type => type

def arguments : Label → List Argument
  | .field _ _ arguments _ => arguments
  | _ => []

def source? : Label → Option ArgumentSource
  | .field _ _ _ source => source
  | _ => none

/-- Fields and the discriminator, which merge by name. -/
def isField : Label → Bool
  | .field _ _ _ _ | .typename _ => true
  | _ => false

def isTypename : Label → Bool
  | .typename _ => true
  | _ => false

def isSubtype : Label → Bool
  | .subtype _ => true
  | _ => false

def isSpread : Label → Bool
  | .spread _ _ => true
  | _ => false

/-- Fields and subtypes of composite type, which are nothing without children. -/
def needsChildren : Label → Bool
  | .field _ type _ _ => type.isComposite
  | .subtype type => type.isComposite
  | _ => false

/-! ## Comparing labels -/

/-- Nodes of one kind merge by name; subtypes merge by type. -/
def mergesWith : Label → Label → Bool
  | .field a _ _ _, .field b _ _ _ => a == b
  | .typename _, .typename _ => true
  | .subtype s, .subtype t => s.typeRef == t.typeRef
  | .fragment a _, .fragment b _ => a == b
  | .spread a _, .spread b _ => a == b
  | _, _ => false

def sameSource (a b : Label) : Bool :=
  match a.source?, b.source? with
  | none, none => true
  | some x, some y => x.sameAs y
  | _, _ => false

/-- The type tag of a discriminator does not count. -/
def sameType (a b : Label) : Bool :=
  a.isTypename || a.type == b.type

/-- Of one kind, name, type and argument source: one can stand in for the other. -/
def sameSelection (a b : Label) : Bool :=
  a.mergesWith b && a.sameType b && a.sameSource b

end Label

namespace Selection

def label : Selection → Label
  | .node label _ => label

def children : Selection → List Selection
  | .node _ children => children

/-- Merges a node into one that it merges with: the children follow its own. Two nodes of
different types or argument sources are in conflict. -/
def absorb (a b : Selection) : Except CompileError Selection :=
  if !a.label.sameType b.label then
    .error (.conflictingFieldShape a.label.name a.label.type b.label.type)
  else if !a.label.sameSource b.label then
    .error (.conflictingArguments a.label.name)
  else .ok (.node a.label (a.children ++ b.children))

/-! ## Paths -/

def descendant? : List Nat → Selection → Option Selection
  | [], s => some s
  | i :: path, .node _ children =>
      match children[i]? with
      | some child => descendant? path child
      | none => none

/-- Changes the node at the end of a path, and nothing if there is none. -/
def modifyAt (f : Selection → Selection) : List Nat → Selection → Selection
  | [], s => f s
  | i :: path, .node label children => .node label (children.modify i (modifyAt f path))

/-- Adds a child behind the others. -/
def push (child : Selection) : Selection → Selection
  | .node label children => .node label (children ++ [child])

end Selection

end GraphQuery
