import GraphQuery.Decimal.Layout

/-!
# Json — ordered JSON values

The members of an object keep the order they were written in: the order in which the fields of
an entity are populated and the order in which errors are met depend on it.

- `Json.Number` : integers and finite doubles, which never equal each other
- `Json` : the values
- `Json.member?` : access to the members of an object
- `Json.description` : what kind of value it is, in words
- `Json.equal` : equality up to the order of members
-/

set_option autoImplicit false

namespace GraphQuery

/-- A number as it was written: an integer that fits 64 bits, or else a double. -/
inductive Json.Number where
  | integer (value : Int)
  | double (value : Binary64)
  deriving DecidableEq, Repr

inductive Json where
  | null
  | bool (value : Bool)
  | number (value : Json.Number)
  | string (value : String)
  | array (items : List Json)
  | object (members : List (String × Json))
  deriving Repr, Inhabited

namespace Json

/-- The integers that fit an unsigned or a signed word of 64 bits. -/
def Number.fits (n : Int) : Bool :=
  if n < 0 then n.natAbs ≤ Nat.pow 2 63 else n.natAbs < Nat.pow 2 64

/-- Doubles are written positionally from `0.00001` up to sixteen digits before the point. -/
def Number.layout : Decimal.Layout := ⟨-5, 16⟩

/-- The text of a number: integers in decimal, doubles with the fewest digits that read back. -/
def Number.text : Number → String
  | .integer n => toString n
  | .double x => x.text layout

def Number.equal : Number → Number → Bool
  | .integer m, .integer n => m == n
  | .double x, .double y => x.sameValue y
  | _, _ => false

/-! ## Members -/

/-- The value of a member, of the first one if the name is repeated. -/
def lookup (name : String) : List (String × Json) → Option Json
  | [] => none
  | (key, value) :: rest => if key = name then some value else lookup name rest

/-- The value of a member of an object. Other values have no members. -/
def member? (name : String) : Json → Option Json
  | .object members => lookup name members
  | _ => none

def isNull : Json → Bool
  | .null => true
  | _ => false

/-- The kind of a value in words, as error messages name it. -/
def description : Json → String
  | .null => "null"
  | .bool _ => "a boolean"
  | .number _ => "a number"
  | .string _ => "a string"
  | .array _ => "an array"
  | .object _ => "an object"

/-! ## Equality -/

mutual

/-- Equality up to the order of members. Numbers are compared within their own kind. -/
def equal : Json → Json → Bool
  | .null, .null => true
  | .bool a, .bool b => a == b
  | .number a, .number b => a.equal b
  | .string a, .string b => a == b
  | .array xs, .array ys => equalItems xs ys
  | .object ms, .object ns => ms.length == ns.length && includesMembers ms ns
  | _, _ => false

def equalItems : List Json → List Json → Bool
  | [], [] => true
  | x :: xs, y :: ys => equal x y && equalItems xs ys
  | _, _ => false

/-- Whether every member of the first object is an equal member of the second. -/
def includesMembers : List (String × Json) → List (String × Json) → Bool
  | [], _ => true
  | (name, value) :: rest, others =>
      (match lookup name others with
        | some other => equal value other
        | none => false) && includesMembers rest others

end

end Json

end GraphQuery
