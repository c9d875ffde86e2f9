import GraphQuery.ArgumentSource
import GraphQuery.Naming

/-!
# Expression — queries over domain types

- `Expression` : what to fetch, as a chain of steps from a root

A chain at the level of the query starts at a root. A selector, which is what a step applies to
each element, starts at the element itself, `current`. So does the selection of a fragment.
-/

set_option autoImplicit false

namespace GraphQuery

inductive Expression where
  /-- All values of a domain type, through a query field that is named or else inferred. -/
  | root (domainType : String) (entryPoint : Option String)
  /-- The element a selector is applied to. -/
  | current
  | member (target : Expression) (member : Member)
  /-- Narrows each element to the selected value. -/
  | project (source selector : Expression)
  /-- Narrows each element to the selected values and flattens the result. -/
  | projectMany (source selector : Expression)
  /-- Passes arguments to the field selected last. -/
  | filter (source : Expression) (arguments : ArgumentSource)
  /-- Also fetches what is selected. -/
  | including (source selector : Expression)
  /-- Keeps the values of a type. -/
  | cast (source : Expression) (domainType : String)
  /-- Selects the fields of a named fragment on a type. -/
  | withFragment (source : Expression) (name domainType : String) (selection : Expression)

end GraphQuery
