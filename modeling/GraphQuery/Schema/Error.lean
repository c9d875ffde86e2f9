import GraphQuery.Schema.Type

/-!
# Schema.Error — why a schema cannot be built

- `IntrospectionFault` : what is wrong with an introspection result
- `SchemaError` : all causes, and `SchemaError.message` for their texts
-/

set_option autoImplicit false

namespace GraphQuery

/-- The kinds an introspection result distinguishes: definitions and wrappers. -/
inductive IntrospectionKind where
  | definition (kind : TypeKind)
  | list
  | nonNull
  deriving DecidableEq, Repr

def IntrospectionKind.label : IntrospectionKind → String
  | .definition .scalar => "Scalar"
  | .definition .object => "Object"
  | .definition .interface => "Interface"
  | .definition .union => "Union"
  | .definition .enum => "Enum"
  | .definition .inputObject => "InputObject"
  | .list => "List"
  | .nonNull => "NonNull"

inductive IntrospectionFault where
  /-- Members that are missing or hold values of another kind. -/
  | illTyped
  | missingSchema
  | missingName (kind : IntrospectionKind)
  | missingTypeName
  | missingInnerType (kind : IntrospectionKind)
  | wrappingType (name : String)
  deriving DecidableEq, Repr

def IntrospectionFault.message : IntrospectionFault → String
  | .illTyped => "unexpected shape"
  | .missingSchema => "missing __schema"
  | .missingName kind => kind.label ++ " type reference without a name"
  | .missingTypeName => "named type reference without a name"
  | .missingInnerType kind => kind.label ++ " type reference without ofType"
  | .wrappingType name => "'" ++ name ++ "' is declared as a wrapping type"

inductive SchemaError where
  | unreadable (detail : String)
  | unresolvedType (name referencedBy : String)
  | invalidReference (name referencedBy : String) (expected : TypeKind)
  | duplicateType (name : String)
  | missingQueryType
  | invalidName (name : String)
  | introspection (fault : IntrospectionFault)
  deriving DecidableEq, Repr

def SchemaError.message : SchemaError → String
  | .unreadable detail => "could not parse schema: " ++ detail
  | .unresolvedType name referencedBy =>
      "type '" ++ name ++ "' referenced by '" ++ referencedBy ++ "' is not defined"
  | .invalidReference name referencedBy expected =>
      "'" ++ referencedBy ++ "' references '" ++ name ++ "' which is not " ++ expected.withArticle
  | .duplicateType name => "type '" ++ name ++ "' is defined more than once"
  | .missingQueryType => "schema does not define a query root type"
  | .invalidName name => "'" ++ name ++ "' is not a valid GraphQL name"
  | .introspection fault => "invalid introspection result: " ++ fault.message

end GraphQuery
