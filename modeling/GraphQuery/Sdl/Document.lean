import GraphQuery.Schema.Declaration

/-!
# Sdl.Document — what a schema document holds

- `Sdl.Definition` : definitions and extensions in the order they are written
- `Sdl.Fault` : why a document describes no schema
- `Sdl.declarations` : the declared types with their extensions applied

Descriptions, directives and default values have no place here: a schema does not depend on them.
-/

set_option autoImplicit false

namespace GraphQuery

namespace Sdl

inductive Operation where
  | query
  | mutation
  | subscription
  deriving DecidableEq, Repr

/-- A definition of a document. An extension holds the parts that it adds. -/
inductive Definition where
  | schema (roots : List (Operation × String))
  | schemaExtension (roots : List (Operation × String))
  | type (declaration : TypeDeclaration)
  | typeExtension (declaration : TypeDeclaration)
  | directive (name : String)
  deriving DecidableEq, Repr

inductive Fault where
  | invalidToken
  | invalidDefinition
  | duplicateType (name : String)
  | duplicatePart (type part : String)
  | duplicateDirective (name : String)
  | duplicateSchema
  | duplicateRoot
  | extendsNothing (name : String)
  | extendsOtherKind (name : String)
  | extendsNoSchema
  deriving DecidableEq, Repr

def Fault.message : Fault → String
  | .invalidToken => "the text holds something that is no token"
  | .invalidDefinition => "the text is not a list of definitions"
  | .duplicateType name => "type '" ++ name ++ "' is defined more than once"
  | .duplicatePart type part => "type '" ++ type ++ "' lists '" ++ part ++ "' more than once"
  | .duplicateDirective name => "directive '" ++ name ++ "' is defined more than once"
  | .duplicateSchema => "the schema is defined more than once"
  | .duplicateRoot => "an operation has more than one root"
  | .extendsNothing name => "type '" ++ name ++ "' is extended and not defined"
  | .extendsOtherKind name => "type '" ++ name ++ "' is extended as another kind"
  | .extendsNoSchema => "the schema is extended and not defined"

/-! ## What is defined beforehand -/

/-- The scalars every schema starts with. -/
def standardScalars : List TypeDeclaration :=
  ["Int", "Float", "String", "Boolean", "ID"].map .scalar

/-- An object type of the introspection system. The types of its fields are of no use here. -/
def systemObject (name : String) (fields : List String) : TypeDeclaration :=
  .object name (fields.map fun field => ⟨field, .named "String", []⟩) []

/-- The types of the introspection system, which can be extended but not redefined. -/
def systemTypes : List TypeDeclaration :=
  [ systemObject "__Schema"
      ["description", "types", "queryType", "mutationType", "subscriptionType", "directives"],
    systemObject "__Type"
      ["kind", "name", "description", "fields", "interfaces", "possibleTypes", "enumValues",
        "inputFields", "ofType", "specifiedByURL"],
    .enum "__TypeKind"
      ["SCALAR", "OBJECT", "INTERFACE", "UNION", "ENUM", "INPUT_OBJECT", "LIST", "NON_NULL"],
    systemObject "__Field"
      ["name", "description", "args", "type", "isDeprecated", "deprecationReason"],
    systemObject "__InputValue"
      ["name", "description", "type", "defaultValue", "isDeprecated", "deprecationReason"],
    systemObject "__EnumValue" ["name", "description", "isDeprecated", "deprecationReason"],
    systemObject "__Directive" ["name", "description", "isRepeatable", "locations", "args"],
    .enum "__DirectiveLocation"
      ["QUERY", "MUTATION", "SUBSCRIPTION", "FIELD", "FRAGMENT_DEFINITION", "FRAGMENT_SPREAD",
        "INLINE_FRAGMENT", "VARIABLE_DEFINITION", "SCHEMA", "SCALAR", "OBJECT",
        "FIELD_DEFINITION", "ARGUMENT_DEFINITION", "INTERFACE", "UNION", "ENUM", "ENUM_VALUE",
        "INPUT_OBJECT", "INPUT_FIELD_DEFINITION"] ]

/-! ## Extensions -/

/-- A type with the parts of an extension of its own kind behind its own parts. -/
def extend : TypeDeclaration → TypeDeclaration → TypeDeclaration
  | .object name fields interfaces, .object _ more others =>
      .object name (fields ++ more) (interfaces ++ others)
  | .interface name fields interfaces, .interface _ more others =>
      .interface name (fields ++ more) (interfaces ++ others)
  | .union name members, .union _ more => .union name (members ++ more)
  | .enum name values, .enum _ more => .enum name (values ++ more)
  | .inputObject name fields, .inputObject _ more => .inputObject name (fields ++ more)
  | type, _ => type

/-- The lists of names in a type that hold no name twice. -/
def partLists : TypeDeclaration → List (List String)
  | .scalar _ => []
  | .object _ fields interfaces => [fields.map FieldDeclaration.name, interfaces]
  | .interface _ fields interfaces => [fields.map FieldDeclaration.name, interfaces]
  | .union _ members => [members]
  | .enum _ values => [values]
  | .inputObject _ fields => [fields.map ArgumentDeclaration.name]

/-- The first element that occurs again behind itself. -/
def firstRepeated {α : Type} [DecidableEq α] : List α → Option α
  | [] => none
  | x :: xs => if x ∈ xs then some x else firstRepeated xs

/-- A type with all its extensions, unless one of its lists then holds a name twice. -/
def extendAll (type : TypeDeclaration) (extensions : List TypeDeclaration) :
    Except Fault TypeDeclaration :=
  let extended := (extensions.filter fun e => e.name == type.name).foldl extend type
  match (partLists extended).findSome? firstRepeated with
  | some part => .error (.duplicatePart type.name part)
  | none => .ok extended

/-! ## The whole document -/

def types : List Definition → List TypeDeclaration :=
  List.filterMap fun
    | .type declaration => some declaration
    | _ => none

def typeExtensions : List Definition → List TypeDeclaration :=
  List.filterMap fun
    | .typeExtension declaration => some declaration
    | _ => none

def schemas : List Definition → List (List (Operation × String)) :=
  List.filterMap fun
    | .schema roots => some roots
    | _ => none

def schemaExtensions : List Definition → List (List (Operation × String)) :=
  List.filterMap fun
    | .schemaExtension roots => some roots
    | _ => none

def directives : List Definition → List String :=
  List.filterMap fun
    | .directive name => some name
    | _ => none

/-- Every extension needs a definition. One that stands behind the definition has to be of its
kind; one in front of a definition of another kind adds nothing. -/
def checkExtensions (defined : List TypeDeclaration) : List Definition → Except Fault Unit
  | [] => .ok ()
  | .type type :: rest => checkExtensions (defined ++ [type]) rest
  | .typeExtension e :: rest =>
      match defined.find? fun type => type.name == e.name with
      | some type =>
          if type.kind = e.kind then checkExtensions defined rest
          else .error (.extendsOtherKind e.name)
      | none =>
          if (types rest).any fun type => type.name == e.name then checkExtensions defined rest
          else .error (.extendsNothing e.name)
  | _ :: rest => checkExtensions defined rest

/-- A document defines a directive once. -/
def checkDirectives (names : List String) : Except Fault Unit :=
  match firstRepeated names with
  | some name => .error (.duplicateDirective name)
  | none => .ok ()

/-- The roots of a document that does not define its schema: the object types that have the name
of an operation. -/
def impliedRoots (document : List Definition) : List (Operation × String) :=
  [(.query, "Query"), (.mutation, "Mutation"), (.subscription, "Subscription")].filter
    fun root => (types document).any fun type => type.name == root.2 && type.kind == .object

/-- The roots of the schema before its extensions. A schema that is neither defined nor implied
cannot be extended. -/
def ownRoots (document : List Definition) : Except Fault (List (Operation × String)) :=
  match schemas document, impliedRoots document with
  | [], [] => if (schemaExtensions document).isEmpty then .ok [] else .error .extendsNoSchema
  | [], implied => .ok implied
  | [roots], _ => .ok roots
  | _ :: _ :: _, _ => .error .duplicateSchema

/-- The roots of the schema with its extensions, one for each operation. -/
def roots (document : List Definition) : Except Fault (List (Operation × String)) := do
  let all := (← ownRoots document) ++ (schemaExtensions document).flatten
  match firstRepeated (all.map Prod.fst) with
  | some _ => throw .duplicateRoot
  | none => return all

/-- The types of a document, each with its extensions: first the standard scalars, then the
definitions in order. Types of the introspection system are left out. -/
def allTypes (document : List Definition) : Except Fault (List TypeDeclaration) := do
  let defined := standardScalars ++ systemTypes ++ types document
  match firstRepeated (defined.map TypeDeclaration.name) with
  | some name => throw (.duplicateType name)
  | none =>
      checkExtensions (standardScalars ++ systemTypes) document
      let extended ← defined.mapM fun type => extendAll type (typeExtensions document)
      return extended.filter fun type => !Name.reserved type.name

/-- The declarations of a document, with the root of its queries if it names one. -/
def declarations (document : List Definition) : Except Fault Declarations := do
  checkDirectives (directives document)
  let roots ← roots document
  let types ← allTypes document
  let declared ← types.foldlM (fun d type => match d.add type with
    | .ok d => .ok d
    | .error _ => .error (.duplicateType type.name)) Declarations.empty
  match roots.find? fun root => root.1 == .query with
  | some (_, name) => return declared.withQueryType name
  | none => return declared

end Sdl

end GraphQuery
