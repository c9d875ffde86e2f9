/-!
# Entity.Error — why a response does not materialize

- `MaterializeError` : the causes
- `MaterializeError.message` : their texts
-/

set_option autoImplicit false

namespace GraphQuery

inductive MaterializeError where
  | cannotConstructAbstractType (typeName : String)
  | ambiguousIdentity (typeName : String) (fields : List String)
  | unknownDiscriminator (name : String)
  | notAPossibleType (typeName expected : String)
  | typeMismatch (id existing found : String)
  | duplicateEntity (typeName id : String)
  /-- What was expected is a type in its notation; what was found is a kind of value in words. -/
  | invalidValue (expected found : String)
  | notAnOutputType (typeName : String)
  | recursionLimitExceeded (limit : Nat)
  deriving DecidableEq, Repr

def MaterializeError.message : MaterializeError → String
  | .cannotConstructAbstractType typeName =>
      "cannot construct abstract type '" ++ typeName ++ "' without a discriminator or a factory"
  | .ambiguousIdentity typeName fields =>
      "type '" ++ typeName ++ "' carries several identity fields: " ++ ", ".intercalate fields
  | .unknownDiscriminator name => "discriminator '" ++ name ++ "' does not name a schema type"
  | .notAPossibleType typeName expected =>
      "'" ++ typeName ++ "' is not a possible type of '" ++ expected ++ "'"
  | .typeMismatch id existing found =>
      "entity '" ++ id ++ "' is a '" ++ existing ++ "' but the response says '" ++ found ++ "'"
  | .duplicateEntity typeName id =>
      "an entity of type '" ++ typeName ++ "' with id '" ++ id ++ "' is already registered"
  | .invalidValue expected found =>
      "expected a value of type '" ++ expected ++ "', found " ++ found
  | .notAnOutputType typeName => "'" ++ typeName ++ "' is not an output type"
  | .recursionLimitExceeded limit =>
      "query recursion limit (" ++ toString limit ++ ") exceeded"

end GraphQuery
