import GraphQuery.Character

/-!
# Name — names of types, fields and arguments

- `Name.valid` : the names GraphQL allows
- `Name.reserved` : names of the introspection system
- `Name.discriminator` : the field that tells which type a value has
- `Name.sameIgnoringCase` : equality up to the case of ASCII letters
- `Name.inQuotes` : a name as debugging texts show it
-/

set_option autoImplicit false

namespace GraphQuery

namespace Name

def isStart (c : Char) : Bool :=
  c.isAlpha || c == '_'

def isContinue (c : Char) : Bool :=
  c.isAlphanum || c == '_'

/-- A letter or an underscore, then letters, digits and underscores; all ASCII. -/
def valid (name : String) : Bool :=
  match name.toList with
  | [] => false
  | c :: cs => isStart c && cs.all isContinue

/-- Names that start with two underscores belong to the introspection system. -/
def reserved (name : String) : Bool :=
  match name.toList with
  | '_' :: '_' :: _ => true
  | _ => false

/-- The field that tells which type a value has. -/
def discriminator : String := "__typename"

def sameIgnoringCase (a b : String) : Bool :=
  a.toList.map Char.toLower == b.toList.map Char.toLower

/-- A character of a quoted name. What cannot be seen is written by number. -/
def escaped (c : Char) : List Char :=
  if c = '"' ∨ c = '\\' then ['\\', c]
  else if c = '\n' then ['\\', 'n']
  else if c = '\r' then ['\\', 'r']
  else if c = '\t' then ['\\', 't']
  else if c.toNat = 0 then ['\\', '0']
  else if c.toNat < 32 ∨ c.toNat = 127 ∨ Character.isHidden c then
    ['\\', 'u', '{'] ++ Nat.toDigits 16 c.toNat ++ ['}']
  else [c]

def inQuotes (name : String) : String :=
  "\"" ++ String.ofList (name.toList.flatMap escaped) ++ "\""

/-- A list of quoted names between brackets. -/
def listText (names : List String) : String :=
  "[" ++ ", ".intercalate (names.map inQuotes) ++ "]"

end Name

end GraphQuery
