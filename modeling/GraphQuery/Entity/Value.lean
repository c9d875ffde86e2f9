import GraphQuery.Json.Basic
import GraphQuery.Keyed
import GraphQuery.Name
import GraphQuery.Schema.Type

/-!
# Entity.Value — materialized values and entities

Values refer to entities by number, so that values may lead back to the entity that holds them.

- `EntityId` : the number of an entity
- `Value` : leaves, references to entities, and lists of values
- `Entity` : a type and populated fields, in the order of their first population
-/

set_option autoImplicit false

namespace GraphQuery

structure EntityId where
  index : Nat
  deriving DecidableEq, Repr

inductive Value where
  | null
  /-- A scalar or enum value, as received. -/
  | leaf (json : Json)
  | object (entity : EntityId)
  | list (items : List Value)
  deriving Repr, Inhabited

namespace Value

mutual

/-- Equality of values: leaves are compared as JSON, entities by identity. -/
def equal : Value → Value → Bool
  | .null, .null => true
  | .leaf a, .leaf b => a.equal b
  | .object a, .object b => a == b
  | .list xs, .list ys => equalItems xs ys
  | _, _ => false

def equalItems : List Value → List Value → Bool
  | [], [] => true
  | x :: xs, y :: ys => equal x y && equalItems xs ys
  | _, _ => false

end

end Value

structure Entity where
  /-- The object type of the entity. -/
  type : TypeRef
  fields : List (String × Value)
  deriving Repr

namespace Entity

def get? (entity : Entity) (field : String) : Option Value :=
  (Keyed.find? Prod.fst field entity.fields).map Prod.snd

/-- The field with exactly this name, or else the first one that differs in case only. -/
def getIgnoringCase? (entity : Entity) (field : String) : Option Value :=
  entity.get? field <|>
    (entity.fields.find? fun f => Name.sameIgnoringCase f.1 field).map Prod.snd

def fieldNames (entity : Entity) : List String :=
  entity.fields.map Prod.fst

/-- Gives a field a value. A field that has one keeps its position. -/
def set (entity : Entity) (field : String) (value : Value) : Entity :=
  { entity with fields := Keyed.put Prod.fst (field, value) entity.fields }

/-- What debugging output shows of an entity. Values are left out: they may lead back to it. -/
def debugText (entity : Entity) : String :=
  "Entity \x7b type: " ++ Name.inQuotes entity.type.name ++ ", fields: " ++
    Name.listText entity.fieldNames ++ " \x7d"

/-! ## Laws -/

theorem get?_set (entity : Entity) (field other : String) (value : Value) :
    (entity.set field value).get? other =
      if field = other then some value else entity.get? other := by
  by_cases h : field = other <;> simp [get?, set, Keyed.find?_put, h]

theorem fieldNames_set (entity : Entity) (field : String) (value : Value) :
    (entity.set field value).fieldNames =
      if field ∈ entity.fieldNames then entity.fieldNames
      else entity.fieldNames ++ [field] := by
  unfold fieldNames set
  rw [Keyed.map_key_put]

end Entity

end GraphQuery
