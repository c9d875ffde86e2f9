/-!
# Configuration — options of compiling and materializing

- `Configuration` : the options
- `Configuration.standard` : what holds where nothing else is said
-/

set_option autoImplicit false

namespace GraphQuery

structure Configuration where
  /-- What variable names start with; their number follows. -/
  variablePrefix : String
  /-- The scalar whose fields identify entities. -/
  identityScalar : String
  /-- The greatest depth of expressions, selections and materialized values. -/
  recursionLimit : Nat
  /-- Whether roots and inclusions select the leaf fields of their type. -/
  defaultScalars : Bool
  deriving DecidableEq, Repr

def Configuration.standard : Configuration where
  variablePrefix := "var_"
  identityScalar := "ID"
  recursionLimit := 512
  defaultScalars := true

end GraphQuery
