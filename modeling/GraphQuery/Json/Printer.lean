import GraphQuery.Hexadecimal
import GraphQuery.Json.Basic

/-!
# Json.Printer — writing JSON text

- `Json.quoted` : a string between quotes
- `Json.text` : a value without blanks, members in their order
-/

set_option autoImplicit false

namespace GraphQuery

namespace Json

/-- A character inside quotes: quotes and backslashes get a backslash, control characters are
written by number. -/
def escaped (c : Char) : List Char :=
  if c = '"' ∨ c = '\\' then ['\\', c]
  else if c.toNat < 32 then
    ['\\', 'u', '0', '0', Hexadecimal.digit (c.toNat / 16), Hexadecimal.digit (c.toNat % 16)]
  else [c]

def quoted (s : String) : String :=
  "\"" ++ String.ofList (s.toList.flatMap escaped) ++ "\""

mutual

/-- The text of a value. -/
def text : Json → String
  | .null => "null"
  | .bool value => if value then "true" else "false"
  | .number n => n.text
  | .string s => quoted s
  | .array [] => "[]"
  | .array (x :: xs) => "[" ++ text x ++ textItems xs
  | .object [] => "\x7b\x7d"
  | .object ((name, x) :: ms) => "\x7b" ++ quoted name ++ ":" ++ text x ++ textMembers ms

/-- The items after the first, and the closing bracket. -/
def textItems : List Json → String
  | [] => "]"
  | x :: xs => "," ++ text x ++ textItems xs

/-- The members after the first, and the closing brace. -/
def textMembers : List (String × Json) → String
  | [] => "\x7d"
  | (name, x) :: ms => "," ++ quoted name ++ ":" ++ text x ++ textMembers ms

end

end Json

end GraphQuery
