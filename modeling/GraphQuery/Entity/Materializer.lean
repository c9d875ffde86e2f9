import GraphQuery.Configuration
import GraphQuery.Entity.Store
import GraphQuery.Schema.Basic

/-!
# Entity.Materializer — from JSON to entities

An object with an identity becomes the entity its cache key is bound to, so that an identity met
twice, in one response or in several, is one entity. The entity is registered before its fields
are read: a reference to it from below leads back to it.

- `Materializer` : a schema, options, and the types to build for abstract types
- `Materializer.discriminate`, `Materializer.identity` : what an object says it is
- `Materializer.resolve` : the entity of an object
- `Materializer.materialize` : the value of a JSON value
-/

set_option autoImplicit false

namespace GraphQuery

structure Materializer where
  schema : Schema
  configuration : Configuration
  /-- Object types by the abstract types they are built for. -/
  factories : List (TypeRef × TypeRef)

namespace Materializer

def ofSchema (schema : Schema) (configuration : Configuration) : Materializer :=
  ⟨schema, configuration, []⟩

/-- Builds entities of an object type where an abstract type is expected and the response does
not say what it sent. -/
def constructWith (m : Materializer) (abstractName concreteName : String) :
    Except MaterializeError Materializer := do
  let some abstractType := m.schema.typeRef? abstractName
    | throw (.unknownDiscriminator abstractName)
  let some concrete := m.schema.typeRef? concreteName
    | throw (.unknownDiscriminator concreteName)
  let isObject := (m.schema.definition? concrete).map TypeDefinition.kind == some .object
  if isObject && m.schema.isPossibleType abstractType concrete then
    return { m with factories := (abstractType, concrete) :: m.factories }
  else
    throw (.notAPossibleType concreteName abstractName)

def mismatch (type : GraphType) (json : Json) : MaterializeError :=
  .invalidValue type.text json.description

/-! ## What an object is -/

/-- The type an object names, if it names one. -/
def discriminate (m : Materializer) (expected : TypeRef) (members : List (String × Json)) :
    Except MaterializeError (Option TypeRef) :=
  match Json.lookup Name.discriminator members with
  | none => return none
  | some (.string name) =>
      match m.schema.typeRef? name with
      | none => throw (.unknownDiscriminator name)
      | some type =>
          if m.schema.isSubtype expected type then return some type
          else throw (.notAPossibleType name expected.name)
  | some other => throw (.invalidValue "String" other.description)

/-- Whether a field holds the identity of the entity it belongs to. A list of identities never
identifies what contains it. -/
def isIdentityField (m : Materializer) (field : Field) : Bool :=
  !field.type.isList && field.type.kind == .scalar &&
    field.type.name == m.configuration.identityScalar

/-- The members of an object that are identity fields of a type. -/
def identityMembers (m : Materializer) (type : TypeRef) (members : List (String × Json)) :
    List (String × Json) :=
  members.filter fun (key, _) => (m.schema.field? type key).any m.isIdentityField

/-- The text of the one identity field among the members of an object. -/
def identity (m : Materializer) (type : TypeRef) (members : List (String × Json)) :
    Except MaterializeError (Option String) :=
  match m.identityMembers type members with
  | [] => return none
  | [(_, .null)] => return none
  | [(_, .string id)] => return some id
  | [(_, .number id)] => return some id.text
  | [(_, other)] => throw (.invalidValue m.configuration.identityScalar other.description)
  | several => throw (.ambiguousIdentity type.name (several.map Prod.fst))

/-- The object type that is built for a type. -/
def concreteType (m : Materializer) (type : TypeRef) : Except MaterializeError TypeRef :=
  match m.schema.definition? type with
  | some (.object _) => return type
  | _ =>
      match m.factories.lookup type with
      | some concrete => return concrete
      | none => throw (.cannotConstructAbstractType type.name)

/-! ## The entity of an object -/

/-- The types a new entity is registered under besides its own: the type it was resolved to, and
the interfaces of its own type. -/
def aliases (m : Materializer) (type concrete : TypeRef) : List TypeRef :=
  (if type = concrete then [] else [type]) ++ m.schema.interfaces concrete

/-- Registers an entity under further types. Each has to have no other entity. -/
def registerAliases (id : String) (entity : EntityId) : List TypeRef → Materialization Unit
  | [] => return ()
  | type :: rest => do
      let registered ← Materialization.register type id entity
      if registered = entity then registerAliases id entity rest
      else throw (.duplicateEntity type.name id)

/-- An identity that is registered under the expected type must not belong to an entity of
another type than the object names. -/
def checkRegistered (expected type : TypeRef) (id : String) : Materialization Unit := do
  if type = expected then return ()
  let store ← get
  match store.cache.get? expected id with
  | none => return ()
  | some present =>
      match store.typeOf? present with
      | none => return ()
      | some existing =>
          if existing = type then return ()
          else throw (.typeMismatch id existing.name type.name)

/-- A new entity for an identity that the cache does not have. -/
def construct (m : Materializer) (type : TypeRef) (id : String) : Materialization EntityId := do
  let concrete ← m.concreteType type
  let created ← Materialization.create concrete
  -- The object type may have an entity of this identity already, which then is the one.
  let entity ← Materialization.register concrete id created
  registerAliases id entity (m.aliases type concrete)
  return entity

/-- The entity of an object, and its identity. -/
def resolve (m : Materializer) (expected : TypeRef) (members : List (String × Json)) :
    Materialization (EntityId × Option String) := do
  let type := (← m.discriminate expected members).getD expected
  match ← m.identity type members with
  | none => do
      let concrete ← m.concreteType type
      return (← Materialization.create concrete, none)
  | some id => do
      checkRegistered expected type id
      match (← get).cache.get? type id with
      | some present => return (present, some id)
      | none => return (← m.construct type id, some id)

/-- The fields that the members of an object give values to: those of the entity's type, which
has to be the one that the object names. -/
def fieldsOf (m : Materializer) (entity : EntityId) (id : Option String)
    (members : List (String × Json)) : Materialization (List Field) := do
  match (← get).typeOf? entity with
  | none => return []
  | some type =>
      match Json.lookup Name.discriminator members with
      | some (.string found) =>
          -- A cached entity may have another type than the object that refers to it.
          if found ≠ type.name then throw (.typeMismatch (id.getD "") type.name found)
      | _ => pure ()
      return (m.schema.fields? type).getD []

/-! ## Values -/

/-- The value of JSON that is neither null nor holds further values of the schema. -/
def leaf (m : Materializer) (type : GraphType) (json : Json) : Except MaterializeError Value :=
  match type with
  | .named .scalar _ => return .leaf json
  | .named .enum ref =>
      match m.schema.definition? ref, json with
      | some (.enum definition), .string name =>
          if name ∈ definition.values then return .leaf json else throw (mismatch type json)
      | _, _ => throw (mismatch type json)
  | .named .inputObject ref => throw (.notAnOutputType ref.name)
  | _ => throw (mismatch type json)

/-- Nothing is materialized below the greatest depth. -/
def checkDepth (m : Materializer) (depth : Nat) : Except MaterializeError Unit :=
  if m.configuration.recursionLimit < depth then
    throw (.recursionLimitExceeded m.configuration.recursionLimit)
  else return ()

mutual

/-- The value of a JSON value where a type is expected. Items and fields lie one level below. -/
def value (m : Materializer) (type : GraphType) (depth : Nat) : Json → Materialization Value
  | .null => do
      m.checkDepth depth
      if type = type.nullable then return .null else throw (mismatch type .null)
  | .array elements => do
      m.checkDepth depth
      match type.nullable with
      | .list item => return .list (← items m item (depth + 1) elements)
      | other => m.leaf other (.array elements)
  | .object members => do
      m.checkDepth depth
      match type.nullable with
      | .named kind expected =>
          if kind.isComposite then do
            -- Registered before its fields are set, an entity is found by references back to it.
            let (entity, id) ← m.resolve expected members
            let fields ← m.fieldsOf entity id members
            populate m entity fields (depth + 1) members
            return .object entity
          else m.leaf (.named kind expected) (.object members)
      | other => m.leaf other (.object members)
  | other => do
      m.checkDepth depth
      m.leaf type.nullable other

def items (m : Materializer) (type : GraphType) (depth : Nat) :
    List Json → Materialization (List Value)
  | [] => return []
  | json :: rest => do
      let first ← value m type depth json
      return first :: (← items m type depth rest)

/-- Gives the fields of an entity the values of the members with their names, in the order of the
members. The discriminator and members without a field are passed over. -/
def populate (m : Materializer) (entity : EntityId) (fields : List Field) (depth : Nat) :
    List (String × Json) → Materialization Unit
  | [] => return ()
  | (key, json) :: rest => do
      match if key = Name.discriminator then none else Keyed.find? Field.name key fields with
      | none => populate m entity fields depth rest
      | some field => do
          let v ← value m field.type depth json
          Materialization.assign entity field.name v
          populate m entity fields depth rest

end

/-- The value of a response where a type is expected. -/
def materialize (m : Materializer) (json : Json) (type : GraphType) : Materialization Value :=
  m.value type 0 json

end Materializer

end GraphQuery
