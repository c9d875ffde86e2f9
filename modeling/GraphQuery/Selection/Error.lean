import GraphQuery.ArgumentSource
import GraphQuery.Naming
import GraphQuery.Schema.Type

/-!
# Selection.Error — why an expression has no query document

- `CompileError` : all causes, and `CompileError.message` for their texts
-/

set_option autoImplicit false

namespace GraphQuery

inductive CompileError where
  | unknownType (domainType typeName : String)
  | unmappedMember (member : Member) (graphType : String)
  | notAPossibleType (typeName parentType : String)
  | conflictingFieldShape (field : String) (first second : GraphType)
  | conflictingArguments (field : String)
  | missingArgumentSource (field : String)
  /-- No query field takes exactly these arguments, or none where there is no filter. -/
  | noEntryPoint (typeName : String) (arguments : Option (List String))
  | ambiguousEntryPoint (typeName : String) (candidates : List String)
  | invalidEntryPoint (entryPoint typeName : String)
  | notAComplexType (typeName : String)
  | emptySelector
  | emptySelection (name : String)
  | recursionLimitExceeded (limit : Nat)
  | bind (error : BindError)
  deriving DecidableEq, Repr

namespace CompileError

/-- The arguments that an entry point was looked for with. -/
def argumentsText : Option (List String) → String
  | none => " without arguments"
  | some names => " with arguments (" ++ ", ".intercalate names ++ ")"

def message : CompileError → String
  | .unknownType domainType typeName =>
      "type '" ++ domainType ++ "' maps to '" ++ typeName ++ "' which is not defined in the schema"
  | .unmappedMember member graphType =>
      "member '" ++ member.name ++ "' of '" ++ member.declaringType ++
        "' does not map to a field of '" ++ graphType ++ "'"
  | .notAPossibleType typeName parentType =>
      "'" ++ typeName ++ "' is not a possible type of '" ++ parentType ++ "'"
  | .conflictingFieldShape field first second =>
      "field '" ++ field ++ "' is selected both as '" ++ first.text ++ "' and as '" ++
        second.text ++ "'"
  | .conflictingArguments field =>
      "field '" ++ field ++ "' is selected twice with different argument sources"
  | .missingArgumentSource field =>
      "field '" ++ field ++ "' takes arguments but no argument source was provided"
  | .noEntryPoint typeName arguments =>
      "no query field returns '" ++ typeName ++ "'" ++ argumentsText arguments
  | .ambiguousEntryPoint typeName candidates =>
      "several query fields return '" ++ typeName ++ "': " ++ ", ".intercalate candidates
  | .invalidEntryPoint entryPoint typeName =>
      "query field '" ++ entryPoint ++ "' does not return '" ++ typeName ++ "'"
  | .notAComplexType typeName => "'" ++ typeName ++ "' has no fields to select from"
  | .emptySelector => "selector does not access any member"
  | .emptySelection name => "selection of '" ++ name ++ "' is empty"
  | .recursionLimitExceeded limit =>
      "query recursion limit (" ++ toString limit ++ ") exceeded"
  | .bind error => error.message

end CompileError

end GraphQuery
