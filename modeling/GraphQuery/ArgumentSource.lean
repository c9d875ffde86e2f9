import GraphQuery.Json.Basic
import GraphQuery.Name

/-!
# ArgumentSource — what a filter reads its arguments from

A source has an identity. Arguments of one name read from one source are one query variable,
while two sources with equal contents give two variables.

- `ArgumentSource` : the names a source lists, and the values it has
- `ArgumentSource.ofJson` : the source of an object
- `BindError` : why arguments have no values
-/

set_option autoImplicit false

namespace GraphQuery

/-- A source of argument values. The names it lists and those it has a value for may differ. -/
structure ArgumentSource where
  identity : Nat
  fields : List String
  value : String → Option Json

inductive BindError where
  | noSuchArgument (argument : String)
  | notAnObject (found : String)
  deriving DecidableEq, Repr

def BindError.message : BindError → String
  | .noSuchArgument argument => "argument source has no member named '" ++ argument ++ "'"
  | .notAnObject found => "argument source must serialize to an object: found " ++ found

namespace ArgumentSource

/-- The source with the members of an object. -/
def ofMembers (identity : Nat) (members : List (String × Json)) : ArgumentSource where
  identity := identity
  fields := members.map Prod.fst
  value name := Json.lookup name members

def ofJson (identity : Nat) : Json → Except BindError ArgumentSource
  | .object members => .ok (ofMembers identity members)
  | other => .error (.notAnObject other.description)

def sameAs (a b : ArgumentSource) : Bool :=
  a.identity == b.identity

/-- What debugging output shows of a source. -/
def debugText (source : ArgumentSource) : String :=
  "ArgumentSource \x7b fields: " ++ Name.listText source.fields ++ " \x7d"

end ArgumentSource

end GraphQuery
