/-!
# Yaml.Text — characters and their places

Indentation decides what belongs together, so every character is read with its line and column.

- `Yaml.Placed` : a character with its place
- `Yaml.placed?` : the characters of a text, `none` when one of them is not allowed

All line ends but the two separators of Unicode are read as line feeds.
-/

set_option autoImplicit false

namespace GraphQuery

namespace Yaml

def isBreak (c : Char) : Bool :=
  c == '\n' || c == '\u2028' || c == '\u2029'

def isBlank (c : Char) : Bool :=
  c == ' ' || c == '\t'

/-- Blanks and line ends, which words do not contain. -/
def isSpace (c : Char) : Bool :=
  isBlank c || isBreak c

/-- Letters, digits, underscores and hyphens, of which handles and anchors consist. -/
def isWordPart (c : Char) : Bool :=
  c.isAlphanum || c == '_' || c == '-'

/-- The printable characters, tabs and line ends. -/
def isAllowed (c : Char) : Bool :=
  let n := c.toNat
  n == 0x09 || n == 0x0A || n == 0x0D || (0x20 ≤ n && n ≤ 0x7E) || n == 0x85 ||
    (0xA0 ≤ n && n ≤ 0xD7FF) || (0xE000 ≤ n && n ≤ 0xFFFD) || 0x10000 ≤ n

/-- Writes line ends of one or two characters as line feeds. -/
def unified : List Char → List Char
  | [] => []
  | '\r' :: '\n' :: rest => '\n' :: unified rest
  | '\r' :: rest => '\n' :: unified rest
  | '\u0085' :: rest => '\n' :: unified rest
  | c :: rest => c :: unified rest

structure Placed where
  char : Char
  line : Nat
  column : Nat
  deriving Repr

def placedFrom (line column : Nat) : List Char → List Placed
  | [] => []
  | c :: rest =>
      ⟨c, line, column⟩ ::
        if isBreak c then placedFrom (line + 1) 0 rest else placedFrom line (column + 1) rest

def placed? (text : String) : Option (List Placed) :=
  let cs := unified text.toList
  if cs.all isAllowed then some (placedFrom 0 0 cs) else none

/-! ## What comes next -/

def startsWith (c : Char) : List Placed → Bool
  | [] => false
  | p :: _ => p.char == c

/-- Whether a word cannot go on. -/
def endsWord : List Placed → Bool
  | [] => true
  | p :: _ => isSpace p.char

/-- Three times a character at the start of a line, as a word of its own. -/
def isTriple (mark : Char) : List Placed → Bool
  | a :: b :: c :: rest =>
      a.column == 0 && a.char == mark && b.char == mark && c.char == mark && endsWord rest
  | _ => false

/-- Whether a document starts or ends here. -/
def isDocumentMark (ps : List Placed) : Bool :=
  isTriple '-' ps || isTriple '.' ps

end Yaml

end GraphQuery
