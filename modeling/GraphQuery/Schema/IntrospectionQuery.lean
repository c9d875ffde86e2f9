import GraphQuery.Document.Outline

/-!
# Schema.IntrospectionQuery — the query that asks an endpoint for its schema

- `Schema.introspectionQuery` : its text; `Schema.ofIntrospection` reads the result
-/

set_option autoImplicit false

namespace GraphQuery

namespace Schema

namespace IntrospectionQuery

open Outline (line block)

def operation : Outline :=
  block "query IntrospectionQuery" [
    block "__schema" [
      block "queryType" [line "name"],
      block "types" [line "...FullType"]]]

def fullType : Outline :=
  block "fragment FullType on __Type" [
    line "kind",
    line "name",
    block "fields(includeDeprecated: true)" [
      line "name",
      block "args" [line "...InputValue"],
      block "type" [line "...TypeRef"]],
    block "inputFields" [line "...InputValue"],
    block "interfaces" [line "...TypeRef"],
    block "enumValues(includeDeprecated: true)" [line "name"],
    block "possibleTypes" [line "...TypeRef"]]

def inputValue : Outline :=
  block "fragment InputValue on __InputValue" [line "name", block "type" [line "...TypeRef"]]

/-- The kind and name of a type, and those of the types it wraps up to some depth. -/
def typeRefBody : Nat → List Outline
  | 0 => [line "kind", line "name"]
  | depth + 1 => [line "kind", line "name", block "ofType" (typeRefBody depth)]

/-- Seven wrappers are as many as the usual introspection queries ask for. -/
def typeRef : Outline :=
  block "fragment TypeRef on __Type" (typeRefBody 7)

end IntrospectionQuery

/-- An operation and the fragments it uses, with an empty line between them. -/
def introspectionQuery : String :=
  "\n".intercalate
    ([IntrospectionQuery.operation, IntrospectionQuery.fullType, IntrospectionQuery.inputValue,
      IntrospectionQuery.typeRef].map (Outline.text 0))

end Schema

end GraphQuery
