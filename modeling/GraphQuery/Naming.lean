/-!
# Naming — from domain names to names of the schema

- `Member` : a member of a domain type
- `Naming` : the type name of a domain type, and the field name of a member
- `MappedNames` : explicit names, with the domain name for all others
-/

set_option autoImplicit false

namespace GraphQuery

/-- A member of a domain type, as a query refers to it. -/
structure Member where
  declaringType : String
  name : String
  deriving DecidableEq, Repr

def Member.text (m : Member) : String :=
  m.declaringType ++ "." ++ m.name

structure Naming where
  typeName : String → String
  fieldName : Member → String

/-- Domain names are names of the schema. -/
def Naming.identity : Naming where
  typeName := id
  fieldName := Member.name

/-- Names given one by one; a later one replaces an earlier one for the same domain name. -/
structure MappedNames where
  types : List (String × String)
  fields : List (Member × String)
  deriving Repr

namespace MappedNames

def empty : MappedNames := ⟨[], []⟩

def withType (names : MappedNames) (domainType typeName : String) : MappedNames :=
  { names with types := (domainType, typeName) :: names.types }

def withField (names : MappedNames) (member : Member) (fieldName : String) : MappedNames :=
  { names with fields := (member, fieldName) :: names.fields }

/-- The given names, and the domain name where none is given. -/
def naming (names : MappedNames) : Naming where
  typeName domainType := (names.types.lookup domainType).getD domainType
  fieldName member := (names.fields.lookup member).getD member.name

end MappedNames

end GraphQuery
