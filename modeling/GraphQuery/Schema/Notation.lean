import GraphQuery.Schema.Basic

/-!
# Schema.Notation — types from their notation

- `Schema.typeOfText?` : the type that a notation such as `[T!]!` stands for
-/

set_option autoImplicit false

namespace GraphQuery

/-- The wrapper that a mark behind a type adds. -/
def GraphType.wrap? (type : GraphType) : Char → Option GraphType
  | '!' => some (.nonNull type)
  | ']' => some (.list type)
  | _ => none

/-- The type that a notation stands for: opening brackets, the name of a type of the schema, then
closing brackets and exclamation marks. `none` when there is no such type. -/
def Schema.typeOfText? (s : Schema) (text : String) : Option GraphType := do
  let cs := text.toList
  let opening := cs.takeWhile (· == '[')
  let rest := cs.dropWhile (· == '[')
  let isNamePart (c : Char) : Bool := c != '!' && c != ']'
  let type ← s.graphType? (String.ofList (rest.takeWhile isNamePart))
  let wrappers := rest.dropWhile isNamePart
  if wrappers.count ']' = opening.length then wrappers.foldlM GraphType.wrap? type else none

end GraphQuery
