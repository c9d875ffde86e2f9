import GraphQuery.Json.Basic
import GraphQuery.Schema.Declaration

/-!
# Schema.Introspection — schemas described by the server itself

An introspection result lists types as JSON records. It is read in two steps: the whole result
is first given its shape, and then turned into declarations in the order of its types.

- `Introspection.TypeNode` : a type reference as a chain of wrappers
- `Introspection.TypeRecord`, `Introspection.Result` : the parts of a result that are used
- `Introspection.readResult` : the shape of a JSON value
- `Introspection.declare` : the declarations of a result
- `Schema.ofIntrospection` : the schema a result describes
-/

set_option autoImplicit false

namespace GraphQuery

namespace Introspection

/-! ## The parts of a result -/

inductive TypeNode where
  | node (kind : IntrospectionKind) (name : Option String) (ofType : Option TypeNode)
  deriving Repr

structure InputRecord where
  name : String
  type : TypeNode
  deriving Repr

structure FieldRecord where
  name : String
  arguments : List InputRecord
  type : TypeNode
  deriving Repr

/-- A type; a list that is missing or null is empty. -/
structure TypeRecord where
  kind : IntrospectionKind
  name : String
  fields : List FieldRecord
  inputFields : List InputRecord
  interfaces : List TypeNode
  enumValues : List String
  possibleTypes : List TypeNode
  deriving Repr

structure Result where
  queryType : Option String
  types : List TypeRecord
  deriving Repr

/-! ## Records

A record is written as an object, or as an array of its members in order. -/

/-- What a record has at one of its members. An array may end before the member. -/
inductive Slot where
  | given (value : Json)
  | omitted
  | cutOff

inductive Record where
  | named (members : List (String × Json))
  | ordered (items : List Json)

/-- The record that a value writes, if it has at most `size` members in order. -/
def record? (size : Nat) : Json → Option Record
  | .object members => some (.named members)
  | .array items => if items.length ≤ size then some (.ordered items) else none
  | _ => none

def Record.slot (record : Record) (position : Nat) (name : String) : Slot :=
  match record with
  | .named members =>
      match Json.lookup name members with
      | some value => .given value
      | none => .omitted
  | .ordered items =>
      match items[position]? with
      | some value => .given value
      | none => .cutOff

section Slots

variable {α : Type}

def Slot.required (read : Json → Option α) : Slot → Option α
  | .given value => read value
  | _ => none

/-- A member that may be omitted from an object, or be null. -/
def Slot.optional (read : Json → Option α) : Slot → Option (Option α)
  | .given value => if value.isNull then some none else (read value).map some
  | .omitted => some none
  | .cutOff => none

/-- A list that may be left out, but is not null. -/
def Slot.listOrNone (read : Json → Option (List α)) : Slot → Option (List α)
  | .given value => read value
  | _ => some []

/-- A list that may be left out, or be null. -/
def Slot.listOrNull (read : Json → Option (List α)) : Slot → Option (List α)
  | .given value => if value.isNull then some [] else read value
  | _ => some []

def readList (read : Json → Option α) : Json → Option (List α)
  | .array items => items.mapM read
  | _ => none

end Slots

def readString : Json → Option String
  | .string s => some s
  | _ => none

/-- The names of the kinds. -/
def kindNamed? : String → Option IntrospectionKind
  | "SCALAR" => some (.definition .scalar)
  | "OBJECT" => some (.definition .object)
  | "INTERFACE" => some (.definition .interface)
  | "UNION" => some (.definition .union)
  | "ENUM" => some (.definition .enum)
  | "INPUT_OBJECT" => some (.definition .inputObject)
  | "LIST" => some .list
  | "NON_NULL" => some .nonNull
  | _ => none

/-- A kind is a name, also written as the only member of an object, with the value null. -/
def readKind : Json → Option IntrospectionKind
  | .string name => kindNamed? name
  | .object [(name, .null)] => kindNamed? name
  | _ => none

/-- The `name` of a type reference. -/
def readNodeName : Option Json → Option (Option String)
  | none => some none
  | some .null => some none
  | some value => (readString value).map some

mutual

def readTypeNode : Json → Option TypeNode
  | .object members => do
      let kind ← (Json.lookup "kind" members).bind readKind
      let name ← readNodeName (Json.lookup "name" members)
      return .node kind name (← readOfType members)
  | .array [kind, name, ofType] => do
      let kind ← readKind kind
      let name ← readNodeName (some name)
      let inner ← if ofType.isNull then some none else (readTypeNode ofType).map some
      return .node kind name inner
  | _ => none

/-- The `ofType` among the members of a type reference. -/
def readOfType : List (String × Json) → Option (Option TypeNode)
  | [] => some none
  | (key, value) :: rest =>
      if key = "ofType" then
        if value.isNull then some none else (readTypeNode value).map some
      else readOfType rest

end

/-- A record with a `name` and nothing else that is used. -/
def readNamed (json : Json) : Option String := do
  let record ← record? 1 json
  (record.slot 0 "name").required readString

def readInput (json : Json) : Option InputRecord := do
  let record ← record? 2 json
  let name ← (record.slot 0 "name").required readString
  let type ← (record.slot 1 "type").required readTypeNode
  return { name, type }

def readField (json : Json) : Option FieldRecord := do
  let record ← record? 3 json
  let name ← (record.slot 0 "name").required readString
  let arguments ← (record.slot 1 "args").listOrNone (readList readInput)
  let type ← (record.slot 2 "type").required readTypeNode
  return { name, arguments, type }

def readType (json : Json) : Option TypeRecord := do
  let record ← record? 7 json
  let kind ← (record.slot 0 "kind").required readKind
  let name ← (record.slot 1 "name").required readString
  let fields ← (record.slot 2 "fields").listOrNull (readList readField)
  let inputFields ← (record.slot 3 "inputFields").listOrNull (readList readInput)
  let interfaces ← (record.slot 4 "interfaces").listOrNull (readList readTypeNode)
  let enumValues ← (record.slot 5 "enumValues").listOrNull (readList readNamed)
  let possibleTypes ← (record.slot 6 "possibleTypes").listOrNull (readList readTypeNode)
  return { kind, name, fields, inputFields, interfaces, enumValues, possibleTypes }

def readSchema (json : Json) : Option Result := do
  let record ← record? 2 json
  let queryType ← (record.slot 0 "queryType").optional readNamed
  let types ← (record.slot 1 "types").required (readList readType)
  return { queryType, types }

def readData (json : Json) : Option Result := do
  let record ← record? 1 json
  (record.slot 0 "__schema").required readSchema

/-- The shape of a whole response, or of its `data`. All of it has to be well-formed, also a
`__schema` beside `data`, which is not used. -/
def readResult (json : Json) : Except IntrospectionFault Result :=
  let read : Option (Option Result × Option Result) := do
    let record ← record? 2 json
    let data ← (record.slot 0 "data").optional readData
    let schema ← (record.slot 1 "__schema").optional readSchema
    return (data, schema)
  match read with
  | none => .error .illTyped
  | some (some result, _) => .ok result
  | some (none, some result) => .ok result
  | some (none, none) => .error .missingSchema

/-! ## Declarations -/

def checkName (name : String) : Except SchemaError String :=
  if Name.valid name then .ok name else .error (.invalidName name)

/-- The reference that a chain of wrappers stands for. -/
def TypeNode.expr : TypeNode → Except SchemaError TypeExpr
  | .node (.definition kind) name _ =>
      match name with
      | some name => (checkName name).map .named
      | none => .error (.introspection (.missingName (.definition kind)))
  | .node .list _ ofType =>
      match ofType with
      | some inner => (expr inner).map .list
      | none => .error (.introspection (.missingInnerType .list))
  | .node .nonNull _ ofType =>
      match ofType with
      | some inner => (expr inner).map .nonNull
      | none => .error (.introspection (.missingInnerType .nonNull))

/-- The name in a list of interfaces or members, whatever the kind of the reference. -/
def TypeNode.typeName : TypeNode → Except SchemaError String
  | .node _ (some name) _ => checkName name
  | .node _ none _ => .error (.introspection .missingTypeName)

def InputRecord.declaration (record : InputRecord) : Except SchemaError ArgumentDeclaration := do
  let name ← checkName record.name
  return ⟨name, ← record.type.expr⟩

/-- The faults of arguments are met before those of the field itself. -/
def FieldRecord.declaration (record : FieldRecord) : Except SchemaError FieldDeclaration := do
  let arguments ← record.arguments.mapM InputRecord.declaration
  let name ← checkName record.name
  return ⟨name, ← record.type.expr, arguments⟩

/-- The declaration of a type of the given kind. The faults of all its lists count, also of those
that types of its kind do not use. An input object takes its fields from both lists, and so
does a type with a selection. -/
def TypeRecord.declaration (record : TypeRecord) (kind : TypeKind) :
    Except SchemaError TypeDeclaration := do
  let fields ← record.fields.mapM FieldRecord.declaration
  let inputs ← record.inputFields.mapM InputRecord.declaration
  let interfaces ← record.interfaces.mapM TypeNode.typeName
  let values ← record.enumValues.mapM checkName
  let members ← if kind = .union then record.possibleTypes.mapM TypeNode.typeName else pure []
  let outputs := fields ++ inputs.map fun input => ⟨input.name, input.type, []⟩
  return match kind with
    | .scalar => .scalar record.name
    | .object => .object record.name outputs interfaces
    | .interface => .interface record.name outputs interfaces
    | .union => .union record.name members
    | .enum => .enum record.name values
    | .inputObject => .inputObject record.name (outputs.map fun field => ⟨field.name, field.type⟩)

/-- Declares a type, unless it belongs to the introspection system. A wrapper is no type, and the
name is checked before the parts. -/
def declareType (d : Declarations) (record : TypeRecord) : Except SchemaError Declarations :=
  if Name.reserved record.name then .ok d
  else
    match record.kind with
    | .definition kind => do
        let name ← checkName record.name
        if name ∈ d.types.map TypeDeclaration.name then throw (.duplicateType name)
        d.add (← record.declaration kind)
    | _ => .error (.introspection (.wrappingType record.name))

def declare (result : Result) : Except SchemaError Declarations := do
  let d ← result.types.foldlM declareType Declarations.empty
  match result.queryType with
  | some name => return d.withQueryType (← checkName name)
  | none => return d

end Introspection

/-- The schema described by an introspection result: the whole response or its `data`. -/
def Schema.ofIntrospection (json : Json) : Except SchemaError Schema :=
  match Introspection.readResult json with
  | .error fault => .error (.introspection fault)
  | .ok result => (Introspection.declare result).bind Declarations.build

end GraphQuery
