import GraphQuery.Keyed
import GraphQuery.Name

/-!
# Schema.Type — references to types

A schema numbers its definitions. A reference carries the number and the name of what it points
at, and two references are equal when both agree.

- `TypeKind` : the six kinds of definitions
- `TypeRef` : a reference to a definition
- `GraphType` : a reference under list and non-null wrappers
- `TypeExpr` : a type as it is written, with names in place of references
- `TypeExpr.name` : the name that is wrapped
- `TypeExpr.text`, `GraphType.text` : the notation `[T!]!`
-/

set_option autoImplicit false

namespace GraphQuery

inductive TypeKind where
  | scalar
  | object
  | interface
  | union
  | enum
  | inputObject
  deriving DecidableEq, Repr

namespace TypeKind

/-- Values without a selection of their own. -/
def isLeaf : TypeKind → Bool
  | .scalar | .enum => true
  | _ => false

/-- Types that need a selection. -/
def isComposite : TypeKind → Bool
  | .object | .interface | .union => true
  | _ => false

/-- Types that stand for several object types. -/
def isAbstract : TypeKind → Bool
  | .interface | .union => true
  | _ => false

/-- The kind as error messages name it. -/
def withArticle : TypeKind → String
  | .scalar => "a scalar"
  | .object => "an object"
  | .interface => "an interface"
  | .union => "a union"
  | .enum => "an enum"
  | .inputObject => "an input object"

end TypeKind

/-- A type as it is written. -/
inductive TypeExpr where
  | named (name : String)
  | list (item : TypeExpr)
  | nonNull (type : TypeExpr)
  deriving DecidableEq, Repr

/-- The name inside of all wrappers. -/
def TypeExpr.name : TypeExpr → String
  | .named name => name
  | .list item => name item
  | .nonNull type => name type

def TypeExpr.text : TypeExpr → String
  | .named name => name
  | .list item => "[" ++ text item ++ "]"
  | .nonNull type => text type ++ "!"

structure TypeRef where
  index : Nat
  name : String
  deriving DecidableEq, Repr

/-- The type of a field, an argument or a selection. The kind is that of the definition the
reference points at. -/
inductive GraphType where
  | named (kind : TypeKind) (type : TypeRef)
  | list (item : GraphType)
  | nonNull (type : GraphType)
  deriving DecidableEq, Repr

namespace GraphType

/-- The type without its wrappers. -/
def terminal : GraphType → GraphType
  | .named kind type => .named kind type
  | .list item => terminal item
  | .nonNull type => terminal type

def kind : GraphType → TypeKind
  | .named kind _ => kind
  | .list item => kind item
  | .nonNull type => kind type

/-- The definition the type refers to in the end. -/
def typeRef : GraphType → TypeRef
  | .named _ type => type
  | .list item => typeRef item
  | .nonNull type => typeRef type

def name (type : GraphType) : String := type.typeRef.name

def isLeaf (type : GraphType) : Bool := type.kind.isLeaf

def isComposite (type : GraphType) : Bool := type.kind.isComposite

def isAbstract (type : GraphType) : Bool := type.kind.isAbstract

/-- Whether the values are lists, be they nullable or not. -/
def isList : GraphType → Bool
  | .named _ _ => false
  | .list _ => true
  | .nonNull type => isList type

/-- The type without the non-null wrappers outside. -/
def nullable : GraphType → GraphType
  | .nonNull type => nullable type
  | type => type

/-- The type as it is written. -/
def expr : GraphType → TypeExpr
  | .named _ type => .named type.name
  | .list item => .list (expr item)
  | .nonNull type => .nonNull (expr type)

def text (type : GraphType) : String := type.expr.text

end GraphType

end GraphQuery
