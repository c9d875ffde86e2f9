import GraphQuery.Schema.Basic
import GraphQuery.Schema.Error

/-!
# Schema.Declaration — from declarations to a schema

Sources declare types with references by name. Building numbers the declarations, resolves every
reference in the order of the declarations, and then ties implementers and members back to
their interfaces and unions.

- `FieldDeclaration`, `TypeDeclaration` : fields and types as they are declared
- `Declarations` : types with distinct names, and the name of the query root
- `Declarations.build` : the schema, or the first reference that does not resolve
-/

set_option autoImplicit false

namespace GraphQuery

structure ArgumentDeclaration where
  name : String
  type : TypeExpr
  deriving DecidableEq, Repr

structure FieldDeclaration where
  name : String
  type : TypeExpr
  arguments : List ArgumentDeclaration
  deriving DecidableEq, Repr

inductive TypeDeclaration where
  | scalar (name : String)
  | object (name : String) (fields : List FieldDeclaration) (interfaces : List String)
  | interface (name : String) (fields : List FieldDeclaration) (interfaces : List String)
  | union (name : String) (members : List String)
  | enum (name : String) (values : List String)
  | inputObject (name : String) (fields : List ArgumentDeclaration)
  deriving DecidableEq, Repr

namespace TypeDeclaration

def name : TypeDeclaration → String
  | .scalar name => name
  | .object name _ _ => name
  | .interface name _ _ => name
  | .union name _ => name
  | .enum name _ => name
  | .inputObject name _ => name

def kind : TypeDeclaration → TypeKind
  | .scalar _ => .scalar
  | .object _ _ _ => .object
  | .interface _ _ _ => .interface
  | .union _ _ => .union
  | .enum _ _ => .enum
  | .inputObject _ _ => .inputObject

end TypeDeclaration

/-- Declared types in order, no two of one name. Without an explicit root, queries start at the
type called `Query`. -/
structure Declarations where
  types : List TypeDeclaration
  queryType : Option String
  distinct : (types.map TypeDeclaration.name).Nodup
  deriving Repr

namespace Declarations

def empty : Declarations := ⟨[], none, by simp⟩

/-- Declares one more type, unless its name is taken. -/
def add (d : Declarations) (type : TypeDeclaration) : Except SchemaError Declarations :=
  if h : type.name ∈ d.types.map TypeDeclaration.name then .error (.duplicateType type.name)
  else
    .ok {
      types := d.types ++ [type]
      queryType := d.queryType
      distinct := by
        have hd := d.distinct
        simp only [List.map_append, List.map_cons, List.map_nil]
        rw [List.nodup_append]
        refine ⟨hd, by simp, ?_⟩
        intro a ha b hb hab
        simp only [List.mem_singleton] at hb
        exact h (hb ▸ hab ▸ ha) }

def withQueryType (d : Declarations) (name : String) : Declarations :=
  { d with queryType := some name }

/-! ## Resolving references -/

/-- The kind and the reference of a declared name. -/
def find? (d : Declarations) (name : String) : Option (TypeKind × TypeRef) := do
  let index ← d.types.findIdx? fun type => type.name == name
  let type ← d.types[index]?
  return (type.kind, ⟨index, name⟩)

/-- The type an expression stands for; `owner` is the declaration that holds it. -/
def resolve (d : Declarations) (owner : String) : TypeExpr → Except SchemaError GraphType
  | .named name =>
      match d.find? name with
      | some (kind, type) => .ok (.named kind type)
      | none => .error (.unresolvedType name owner)
  | .list item => (resolve d owner item).map .list
  | .nonNull type => (resolve d owner type).map .nonNull

/-- The reference of a name that has to be of the given kind. -/
def resolveKind (d : Declarations) (owner : String) (expected : TypeKind) (name : String) :
    Except SchemaError TypeRef :=
  match d.find? name with
  | some (kind, type) =>
      if kind = expected then .ok type else .error (.invalidReference name owner expected)
  | none => .error (.unresolvedType name owner)

def resolveArgument (d : Declarations) (owner : String) (argument : ArgumentDeclaration) :
    Except SchemaError Argument := do
  return ⟨argument.name, ← d.resolve owner argument.type⟩

def resolveArguments (d : Declarations) (owner : String) (arguments : List ArgumentDeclaration) :
    Except SchemaError (List Argument) := do
  return Keyed.ofList Argument.name (← arguments.mapM (d.resolveArgument owner))

/-- A field's arguments are resolved before its type. -/
def resolveField (d : Declarations) (owner : String) (field : FieldDeclaration) :
    Except SchemaError Field := do
  let arguments ← d.resolveArguments owner field.arguments
  let type ← d.resolve owner field.type
  return ⟨field.name, type, arguments⟩

def resolveFields (d : Declarations) (owner : String) (fields : List FieldDeclaration) :
    Except SchemaError (List Field) := do
  return Keyed.ofList Field.name (← fields.mapM (d.resolveField owner))

def resolveKinds (d : Declarations) (owner : String) (expected : TypeKind)
    (names : List String) : Except SchemaError (List TypeRef) := do
  return Keyed.distinct (← names.mapM (d.resolveKind owner expected))

/-- A definition whose references are resolved; implementers and unions are tied back later. -/
def define (d : Declarations) : TypeDeclaration → Except SchemaError TypeDefinition
  | .scalar name => return .scalar name
  | .object name fields interfaces => do
      let fields ← d.resolveFields name fields
      let interfaces ← d.resolveKinds name .interface interfaces
      return .object { name, fields, interfaces, unions := [] }
  | .interface name fields interfaces => do
      let fields ← d.resolveFields name fields
      let interfaces ← d.resolveKinds name .interface interfaces
      return .interface { name, fields, interfaces, possibleTypes := [] }
  | .union name members => do
      return .union { name, members := ← d.resolveKinds name .object members }
  | .enum name values => return .enum { name, values := Keyed.distinct values }
  | .inputObject name fields => do
      return .inputObject { name, fields := ← d.resolveArguments name fields }

/-! ## Tying back -/

/-- The object types that declare the interface with number `index`. -/
def implementers (types : List TypeDefinition) (index : Nat) : List TypeRef :=
  types.zipIdx.filterMap fun (type, i) =>
    match type with
    | .object object =>
        if object.interfaces.any fun interface => interface.index == index then
          some ⟨i, object.name⟩
        else none
    | _ => none

/-- The unions that list the type with number `index`. -/
def memberships (types : List TypeDefinition) (index : Nat) : List TypeRef :=
  types.zipIdx.filterMap fun (type, i) =>
    match type with
    | .union union =>
        if union.members.any fun member => member.index == index then some ⟨i, union.name⟩
        else none
    | _ => none

def tieBack (types : List TypeDefinition) (index : Nat) : TypeDefinition → TypeDefinition
  | .object type => .object { type with unions := memberships types index }
  | .interface type => .interface { type with possibleTypes := implementers types index }
  | type => type

/-- The schema the declarations describe. The query root is looked up last. -/
def build (d : Declarations) : Except SchemaError Schema := do
  let types ← d.types.mapM d.define
  -- Only objects can be the root; a name of another kind counts as missing.
  match d.find? (d.queryType.getD "Query") with
  | some (.object, queryType) =>
      return { types := types.zipIdx.map fun (type, i) => tieBack types i type, queryType }
  | _ => throw .missingQueryType

end Declarations

end GraphQuery
