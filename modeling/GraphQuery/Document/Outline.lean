/-!
# Document.Outline — indented text with braces

- `Outline` : lines, and blocks of them under a heading
- `Outline.text` : one line per heading and closing brace, two blanks per level
-/

set_option autoImplicit false

namespace GraphQuery

inductive Outline where
  | line (text : String)
  | block (heading : String) (body : List Outline)
  deriving Repr

namespace Outline

/-- The blanks in front of a line. -/
def indentation (level : Nat) : String :=
  String.ofList (List.replicate (2 * level) ' ')

mutual

/-- The lines of an outline. The braces of an empty block stay on one line. -/
def text (level : Nat) : Outline → String
  | .line text => indentation level ++ text ++ "\n"
  | .block heading [] => indentation level ++ heading ++ " \x7b\x7d\n"
  | .block heading (first :: rest) =>
      indentation level ++ heading ++ " \x7b\n" ++ text (level + 1) first ++
        textAll (level + 1) rest ++ indentation level ++ "\x7d\n"

def textAll (level : Nat) : List Outline → String
  | [] => ""
  | first :: rest => text level first ++ textAll level rest

end

end Outline

end GraphQuery
