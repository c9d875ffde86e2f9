import GraphQuery.Entity.Heap
import GraphQuery.Expression
import GraphQuery.Schema.Basic

/-!
# Expression.Evaluation — what an expression selects from materialized values

- `Evaluation` : what evaluation looks at: entities, a schema and the names of its types and fields
- `Evaluation.member` : the values of a field, at any depth of lists
- `Evaluation.value` : what an expression selects from the value of its root

Filters, inclusions and fragments say what is fetched, and nothing about what is selected.
-/

set_option autoImplicit false

namespace GraphQuery

structure Evaluation where
  heap : Heap
  schema : Schema
  naming : Naming

namespace Evaluation

/-- The value of a field of an entity, and null if it is not populated. -/
def field (ev : Evaluation) (m : Member) (entity : EntityId) : Value :=
  ((ev.heap.entity? entity).bind fun e => e.getIgnoringCase? (ev.naming.fieldName m)).getD .null

mutual

def member (ev : Evaluation) (m : Member) : Value → Value
  | .object entity => ev.field m entity
  | .list items => .list (members ev m items)
  | .null => .null
  | .leaf _ => .null

def members (ev : Evaluation) (m : Member) : List Value → List Value
  | [] => []
  | item :: rest => member ev m item :: members ev m rest

end

/-- Whether a value is an entity of a type, or of a type that can stand for it. -/
def isInstance (ev : Evaluation) (domainType : String) : Value → Bool
  | .object entity =>
      match ev.heap.entity? entity, ev.schema.typeRef? (ev.naming.typeName domainType) with
      | some e, some target => ev.schema.isSubtype target e.type
      | _, _ => false
  | _ => false

/-! ## Steps -/

/-- Applies a selector to each item of a list, or to a single value. -/
def each (select : Value → Value) : Value → Value
  | .list items => .list (items.map select)
  | .null => .null
  | value => select value

/-- The values selected from one item, in place of the item. -/
def spread : Value → List Value
  | .list selected => selected
  | .null => []
  | value => [value]

/-- Applies a selector like `each`, and puts what it selects into one list. -/
def flattened (select : Value → Value) : Value → Value
  | .list items => .list (items.flatMap fun item => spread (select item))
  | .null => .null
  | value => select value

/-- The items of a list that pass, or a single value that does. -/
def kept (keep : Value → Bool) : Value → Value
  | .list items => .list (items.filter keep)
  | value => if keep value then value else .null

/-- What an expression selects, when its root or current element has a value. -/
def value (ev : Evaluation) (input : Value) : Expression → Value
  | .root _ _ => input
  | .current => input
  | .member target m => ev.member m (value ev input target)
  | .project source selector =>
      each (fun item => value ev item selector) (value ev input source)
  | .projectMany source selector =>
      flattened (fun item => value ev item selector) (value ev input source)
  | .filter source _ => value ev input source
  | .including source _ => value ev input source
  | .withFragment source _ _ _ => value ev input source
  | .cast source domainType => kept (ev.isInstance domainType) (value ev input source)

end Evaluation

end GraphQuery
