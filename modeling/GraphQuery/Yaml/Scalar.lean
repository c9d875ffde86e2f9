import GraphQuery.Hexadecimal
import GraphQuery.Yaml.Text

/-!
# Yaml.Scalar — the texts of scalars

- `Yaml.Gap` : blanks and line ends between words, and the text they fold to
- `Yaml.plainText`, `Yaml.singleText`, `Yaml.doubleText` : scalars that fold their lines
- `Yaml.blockText` : scalars that consist of indented lines
-/

set_option autoImplicit false

namespace GraphQuery

namespace Yaml

inductive ScalarStyle where
  | plain
  | quoted
  | literal
  | folded
  deriving DecidableEq, Repr

/-! ## Folding -/

/-- What was read between two words: nothing, blanks, or a first line end and those after it. -/
inductive Gap where
  | nothing
  | blanks (cs : List Char)
  | lines (first more : List Char)
  deriving DecidableEq, Repr

namespace Gap

def blank (c : Char) : Gap → Gap
  | .nothing => .blanks [c]
  | .blanks cs => .blanks (cs ++ [c])
  | .lines first more => .lines first more

def lineEnd (c : Char) : Gap → Gap
  | .lines first more => .lines first (more ++ [c])
  | _ => .lines [c] []

def isBroken : Gap → Bool
  | .lines _ _ => true
  | _ => false

/-- A single line feed becomes a blank, and of several the first is dropped. -/
def text : Gap → List Char
  | .nothing => []
  | .blanks cs => cs
  | .lines ['\n'] [] => [' ']
  | .lines ['\n'] more => more
  | .lines first more => first ++ more

end Gap

/-! ## Plain scalars -/

def isFlowMark (c : Char) : Bool :=
  ",[]\x7b\x7d".toList.contains c

/-- Whether a plain scalar ends in front of a character that is no space. -/
def endsPlain (inFlow : Bool) : List Placed → Bool
  | [] => true
  | p :: rest => (p.char == ':' && endsWord rest) || (inFlow && isFlowMark p.char)

/-- A colon that a mark of flow collections follows. Plain scalars between braces do not hold it. -/
def isMisplacedColon : List Placed → Bool
  | p :: q :: _ => p.char == ':' && (isFlowMark q.char || q.char == '?')
  | _ => false

/-- The rest of a plain scalar, whether lines end behind it, and what follows. Outside of flow
collections the lines after the first are indented by the least column. -/
def plainText (inFlow : Bool) (least : Nat) (gap : Gap) :
    List Placed → Option (List Char × Bool × List Placed)
  | [] => some ([], gap.isBroken, [])
  | p :: rest =>
      if isBlank p.char then
        if gap.isBroken && p.char == '\t' && p.column < least then none
        else plainText inFlow least (gap.blank p.char) rest
      else if isBreak p.char then plainText inFlow least (gap.lineEnd p.char) rest
      else if gap != .nothing &&
          ((!inFlow && p.column < least) || isDocumentMark (p :: rest) || p.char == '#') then
        some ([], gap.isBroken, p :: rest)
      else if inFlow && isMisplacedColon (p :: rest) then none
      else if endsPlain inFlow (p :: rest) then some ([], gap.isBroken, p :: rest)
      else
        match plainText inFlow least .nothing rest with
        | none => none
        | some (cs, broken, following) => some (gap.text ++ p.char :: cs, broken, following)

/-! ## Quoted scalars -/

/-- The rest of a scalar in single quotes, in which two quotes stand for one. -/
def singleText (gap : Gap) : List Placed → Option (List Char × List Placed)
  | [] => none
  | p :: rest =>
      if isBlank p.char then singleText (gap.blank p.char) rest
      else if isBreak p.char then singleText (gap.lineEnd p.char) rest
      else if isDocumentMark (p :: rest) then none
      else if p.char == '\'' then
        match rest with
        | [] => some (gap.text, [])
        | q :: following =>
            if q.char == '\'' then
              (singleText .nothing following).map fun (cs, after) => (gap.text ++ '\'' :: cs, after)
            else some (gap.text, q :: following)
      else (singleText .nothing rest).map fun (cs, after) => (gap.text ++ p.char :: cs, after)

/-- The character that an escape of one character stands for. -/
def escape? : Char → Option Char
  | '0' => some '\u0000'
  | 'a' => some '\u0007'
  | 'b' => some '\u0008'
  | 't' | '\t' => some '\t'
  | 'n' => some '\n'
  | 'v' => some '\u000b'
  | 'f' => some '\u000c'
  | 'r' => some '\r'
  | 'e' => some '\u001b'
  | ' ' => some ' '
  | '"' => some '"'
  | '/' => some '/'
  | '\\' => some '\\'
  | 'N' => some '\u0085'
  | '_' => some '\u00a0'
  | 'L' => some '\u2028'
  | 'P' => some '\u2029'
  | _ => none

/-- How many digits an escape by number has. -/
def escapeLength? : Char → Option Nat
  | 'x' => some 2
  | 'u' => some 4
  | 'U' => some 8
  | _ => none

/-- The character with a number, unless it is that of a surrogate or too great. -/
def character? (n : Nat) : Option Char :=
  if h : n.isValidChar then some (Char.ofNatAux n h) else none

inductive QuoteMode where
  | text (gap : Gap)
  | escape
  | code (digits value : Nat)

/-- The rest of a scalar in double quotes. An escaped line end is dropped. -/
def doubleText : QuoteMode → List Placed → Option (List Char × List Placed)
  | _, [] => none
  | .text gap, p :: rest =>
      if isBlank p.char then doubleText (.text (gap.blank p.char)) rest
      else if isBreak p.char then doubleText (.text (gap.lineEnd p.char)) rest
      else if isDocumentMark (p :: rest) then none
      else if p.char == '"' then some (gap.text, rest)
      else if p.char == '\\' then
        (doubleText .escape rest).map fun (cs, after) => (gap.text ++ cs, after)
      else
        (doubleText (.text .nothing) rest).map fun (cs, after) => (gap.text ++ p.char :: cs, after)
  | .escape, p :: rest =>
      if isBreak p.char then doubleText (.text (.lines [] [])) rest
      else
        match escapeLength? p.char, escape? p.char with
        | some digits, _ => doubleText (.code digits 0) rest
        | none, some c => (doubleText (.text .nothing) rest).map fun (cs, after) => (c :: cs, after)
        | none, none => none
  | .code digits value, p :: rest =>
      match Hexadecimal.value? p.char with
      | none => none
      | some d =>
          -- The number is complete with its last digit, and has to be a character.
          if 1 < digits then doubleText (.code (digits - 1) (16 * value + d)) rest
          else
            match character? (16 * value + d) with
            | none => none
            | some c => (doubleText (.text .nothing) rest).map fun (cs, after) => (c :: cs, after)

/-! ## Block scalars -/

/-- What becomes of the line ends behind the last line. -/
inductive Chomping where
  | strip
  | clip
  | keep
  deriving DecidableEq, Repr

def chomping? : Char → Option Chomping
  | '-' => some .strip
  | '+' => some .keep
  | _ => none

def increment? (c : Char) : Option Nat :=
  if c.isDigit && c != '0' then some (c.toNat - 48) else none

structure BlockHeader where
  chomping : Chomping
  /-- How much deeper than the surrounding block the lines are, if that is said. -/
  increment : Option Nat

/-- The indicators behind the first character of a block scalar, in either order. -/
def blockIndicators (cs : List Char) : BlockHeader × List Char :=
  match cs with
  | [] => (⟨.clip, none⟩, [])
  | c :: rest =>
      match chomping? c, increment? c with
      | some chomping, _ =>
          match rest with
          | d :: rest' =>
              match increment? d with
              | some n => (⟨chomping, some n⟩, rest')
              | none => (⟨chomping, none⟩, rest)
          | [] => (⟨chomping, none⟩, [])
      | none, some n =>
          match rest with
          | d :: rest' =>
              match chomping? d with
              | some chomping => (⟨chomping, some n⟩, rest')
              | none => (⟨.clip, some n⟩, rest)
          | [] => (⟨.clip, some n⟩, [])
      | none, none => (⟨.clip, none⟩, cs)

/-- Nothing but blanks and possibly a comment. -/
def isRestOfLine (cs : List Char) : Bool :=
  match cs.dropWhile isBlank with
  | [] => true
  | c :: _ => c == '#'

/-- The first line of a block scalar, without the character that starts it. -/
def blockHeader? (cs : List Char) : Option BlockHeader :=
  let (header, rest) := blockIndicators cs
  if isRestOfLine rest then some header else none

/-- The greatest column that blanks in front of the first line reach, those of empty lines and at
the end of the text included. A tab among them is an error. -/
def deepest? (deepest : Nat) : List Placed → Option Nat
  | [] => some deepest
  | p :: rest =>
      if isBreak p.char then deepest? deepest rest
      else if p.char == ' ' then deepest? (max deepest (p.column + 1)) rest
      else if p.char == '\t' then none
      else some deepest

/-- A line, its end, and the ends of the empty lines below. -/
structure BlockLine where
  text : List Char
  ending : Option Char
  more : List Char

inductive BlockMode where
  | inside (text : List Char)
  | between (line : BlockLine)

/-- The lines from a column on, up to the first line that is less indented. -/
def blockLines (column : Nat) : BlockMode → List Placed → Option (List BlockLine × List Placed)
  | .inside text, [] => some ([⟨text, none, []⟩], [])
  | .inside text, p :: rest =>
      if isBreak p.char then blockLines column (.between ⟨text, some p.char, []⟩) rest
      else blockLines column (.inside (text ++ [p.char])) rest
  | .between line, [] => some ([line], [])
  | .between line, p :: rest =>
      if isBreak p.char then
        blockLines column (.between { line with more := line.more ++ [p.char] }) rest
      else if p.column < column then
        if p.char == ' ' then blockLines column (.between line) rest
        else if p.char == '\t' then none
        else some ([line], p :: rest)
      else
        (blockLines column (.inside [p.char]) rest).map fun (lines, after) => (line :: lines, after)

def startsBlank : List Char → Bool
  | [] => false
  | c :: _ => isBlank c

/-- What stands between two lines. In a folded scalar the line feed between two lines that start
with no blank becomes one, or is dropped if empty lines follow it. -/
def separator (isFolded : Bool) (line next : BlockLine) : List Char :=
  if isFolded && line.ending == some '\n' && !startsBlank line.text && !startsBlank next.text then
    if line.more.isEmpty then [' '] else line.more
  else line.ending.toList ++ line.more

def joined (isFolded : Bool) (chomping : Chomping) : List BlockLine → List Char
  | [] => []
  | [line] =>
      line.text ++
        match chomping with
        | .strip => []
        | .clip => line.ending.toList
        | .keep => line.ending.toList ++ line.more
  | line :: next :: rest =>
      line.text ++ separator isFolded line next ++ joined isFolded chomping (next :: rest)

/-- A block scalar behind its first character, and what follows. Its lines are indented, by as
much as the header says or else like the first of them, and deeper than the surrounding block,
whose column is given if there is one. -/
def blockText (isFolded : Bool) (block : Option Nat) (ps : List Placed) :
    Option (List Char × List Placed) := do
  let inLine (p : Placed) : Bool := !isBreak p.char
  let header ← blockHeader? ((ps.takeWhile inLine).map Placed.char)
  let body := (ps.dropWhile inLine).drop 1
  let least := match block with
    | none => 1
    | some column => column + 1
  let column ← match header.increment with
    | some n => some (block.getD 0 + n)
    | none => (deepest? 0 body).map fun found => max found least
  -- An empty line in front holds the line ends above the first line of text.
  let (lines, rest) ← blockLines column (.between ⟨[], none, []⟩) body
  return (joined isFolded header.chomping lines, rest)

end Yaml

end GraphQuery
