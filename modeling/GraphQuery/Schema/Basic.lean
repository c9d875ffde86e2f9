import GraphQuery.Schema.Type

/-!
# Schema — type definitions and the questions asked of them

- `Field`, `Argument` : fields of objects and interfaces, and what they take
- `TypeDefinition` : the definitions, one constructor per kind
- `Schema` : the definitions in order, and the root of queries
- `Schema.isPossibleType`, `Schema.isSubtype` : which types can stand where another is expected
-/

set_option autoImplicit false

namespace GraphQuery

/-- An argument of a field, or a field of an input object. -/
structure Argument where
  name : String
  type : GraphType
  deriving DecidableEq, Repr

structure Field where
  name : String
  type : GraphType
  arguments : List Argument
  deriving DecidableEq, Repr

structure ObjectType where
  name : String
  fields : List Field
  interfaces : List TypeRef
  /-- Every union that lists this type as a member, in the order of the schema. -/
  unions : List TypeRef
  deriving DecidableEq, Repr

structure InterfaceType where
  name : String
  fields : List Field
  interfaces : List TypeRef
  /-- Every object type that declares this interface, in the order of the schema. -/
  possibleTypes : List TypeRef
  deriving DecidableEq, Repr

structure UnionType where
  name : String
  members : List TypeRef
  deriving DecidableEq, Repr

structure EnumType where
  name : String
  values : List String
  deriving DecidableEq, Repr

structure InputObjectType where
  name : String
  fields : List Argument
  deriving DecidableEq, Repr

inductive TypeDefinition where
  | scalar (name : String)
  | object (type : ObjectType)
  | interface (type : InterfaceType)
  | union (type : UnionType)
  | enum (type : EnumType)
  | inputObject (type : InputObjectType)
  deriving DecidableEq, Repr

namespace TypeDefinition

def name : TypeDefinition → String
  | .scalar name => name
  | .object type => type.name
  | .interface type => type.name
  | .union type => type.name
  | .enum type => type.name
  | .inputObject type => type.name

def kind : TypeDefinition → TypeKind
  | .scalar _ => .scalar
  | .object _ => .object
  | .interface _ => .interface
  | .union _ => .union
  | .enum _ => .enum
  | .inputObject _ => .inputObject

/-- Fields of objects and interfaces. -/
def fields? : TypeDefinition → Option (List Field)
  | .object type => some type.fields
  | .interface type => some type.fields
  | _ => none

/-- Object types that an abstract type can stand for. -/
def possibleTypes? : TypeDefinition → Option (List TypeRef)
  | .interface type => some type.possibleTypes
  | .union type => some type.members
  | _ => none

/-- Interfaces that an object or interface implements. -/
def interfaces : TypeDefinition → List TypeRef
  | .object type => type.interfaces
  | .interface type => type.interfaces
  | _ => []

def unions : TypeDefinition → List TypeRef
  | .object type => type.unions
  | _ => []

end TypeDefinition

/-- The definitions in order, which numbers them, and the object type that queries start at. -/
structure Schema where
  types : List TypeDefinition
  queryType : TypeRef
  deriving DecidableEq, Repr

namespace Schema

/-! ## Look-ups -/

def typeRef? (s : Schema) (name : String) : Option TypeRef :=
  (s.types.findIdx? fun type => type.name == name).map fun index => ⟨index, name⟩

/-- The definition with the number of a reference. A reference into another schema may point
past the last one. -/
def definition? (s : Schema) (type : TypeRef) : Option TypeDefinition :=
  s.types[type.index]?

def typeNamed? (s : Schema) (name : String) : Option TypeDefinition :=
  s.types.find? fun type => type.name == name

/-- The type without wrappers that a name stands for. -/
def graphType? (s : Schema) (name : String) : Option GraphType := do
  let type ← s.typeRef? name
  let definition ← s.definition? type
  return .named definition.kind type

def fields? (s : Schema) (type : TypeRef) : Option (List Field) :=
  (s.definition? type).bind TypeDefinition.fields?

def field? (s : Schema) (type : TypeRef) (name : String) : Option Field :=
  (s.fields? type).bind (Keyed.find? Field.name name)

/-- The field with exactly this name, or else the first one that differs in case only. -/
def findField? (s : Schema) (type : TypeRef) (name : String) : Option Field := do
  let fields ← s.fields? type
  Keyed.find? Field.name name fields <|>
    fields.find? fun field => Name.sameIgnoringCase field.name name

def possibleTypes (s : Schema) (type : TypeRef) : List TypeRef :=
  ((s.definition? type).bind TypeDefinition.possibleTypes?).getD []

def interfaces (s : Schema) (type : TypeRef) : List TypeRef :=
  ((s.definition? type).map TypeDefinition.interfaces).getD []

def unions (s : Schema) (type : TypeRef) : List TypeRef :=
  ((s.definition? type).map TypeDefinition.unions).getD []

/-- The scalar whose fields identify entities, if the schema defines it. -/
def identityScalar? (s : Schema) (name : String) : Option TypeRef := do
  let type ← s.typeRef? name
  match s.definition? type with
  | some (.scalar _) => some type
  | _ => none

/-! ## Possible types -/

/-- Whether a value of the candidate can stand where the abstract type is expected: an object
that is listed, or an interface that implements the abstract type or has implementers, all of
them listed. -/
def isPossibleType (s : Schema) (abstractType candidate : TypeRef) : Bool :=
  match (s.definition? abstractType).bind TypeDefinition.possibleTypes? with
  | none => false
  | some possible =>
      match s.definition? candidate with
      | some (.object _) => decide (candidate ∈ possible)
      | some (.interface type) =>
          decide (abstractType ∈ type.interfaces) ||
            (!type.possibleTypes.isEmpty &&
              type.possibleTypes.all fun object => decide (object ∈ possible))
      | _ => false

def isSubtype (s : Schema) (expected type : TypeRef) : Bool :=
  decide (expected = type) || s.isPossibleType expected type

end Schema

end GraphQuery
