import GraphQuery.CodeUnit
import GraphQuery.Name

/-!
# Sdl.Token — the words of the schema definition language

- `Sdl.Token` : punctuation, names, numbers and strings
- `Sdl.tokens?` : the tokens of a text, `none` when some part of it is no token

Blanks, line ends, byte order marks and comments separate tokens and are dropped. Commas are
tokens. The values of numbers and strings do not matter to a schema, only their form does.
-/

set_option autoImplicit false

namespace GraphQuery

namespace Sdl

inductive Token where
  | mark (c : Char)
  | name (text : String)
  | number
  | string
  deriving DecidableEq, Repr

def isIgnored (c : Char) : Bool :=
  c == ' ' || c == '\t' || c == '\n' || c == '\r' || c == '\ufeff'

def isLineEnd (c : Char) : Bool :=
  c == '\n' || c == '\r'

def isMark (c : Char) : Bool :=
  "!$&(),:=@[]|\x7b\x7d".toList.contains c

/-! ## Numbers -/

/-- Drops digits, of which there has to be at least one. -/
def skipDigits? (cs : List Char) : Option (List Char) :=
  let rest := cs.dropWhile Char.isDigit
  if rest.length < cs.length then some rest else none

/-- Drops the whole part of a number: a zero, or digits that do not start with one. -/
def skipWhole? : List Char → Option (List Char)
  | '0' :: rest => some rest
  | cs => skipDigits? cs

def skipFraction? : List Char → Option (List Char)
  | '.' :: rest => skipDigits? rest
  | cs => some cs

def skipExponent? : List Char → Option (List Char)
  | e :: rest =>
      if e = 'e' ∨ e = 'E' then
        match rest with
        | '+' :: rest | '-' :: rest => skipDigits? rest
        | _ => skipDigits? rest
      else some (e :: rest)
  | [] => some []

/-- Drops a number. It may not run into a name, a digit or a point. -/
def skipNumber? (cs : List Char) : Option (List Char) := do
  let cs := match cs with
    | '-' :: rest => rest
    | _ => cs
  let cs ← skipWhole? cs
  let cs ← skipFraction? cs
  let cs ← skipExponent? cs
  match cs with
  | [] => some []
  | c :: rest => if Name.isContinue c || c == '.' then none else some (c :: rest)

/-! ## Strings -/

/-- Whether the characters start with the number of a character and a closing brace. Surrogates
are no characters, and leading zeros do not count. -/
def isBracedNumber (cs : List Char) : Bool :=
  let isDigit (c : Char) : Bool := (Hexadecimal.value? c).isSome
  let digits := cs.takeWhile isDigit
  match cs.dropWhile isDigit with
  | '}' :: _ => !digits.isEmpty && decide (Hexadecimal.ofDigits digits).isValidChar
  | _ => false

/-- Drops a string after its opening quote. It ends on its line. -/
def skipString? : List Char → Option (List Char)
  | [] => none
  | '"' :: rest => some rest
  | '\\' :: 'u' :: '{' :: rest => if isBracedNumber rest then skipString? rest else none
  | '\\' :: 'u' :: a :: b :: c :: d :: rest =>
      match CodeUnit.ofDigits? a b c d with
      | none => none
      | some unit =>
          if CodeUnit.isHigh unit then
            match rest with
            | '\\' :: 'u' :: a :: b :: c :: d :: rest =>
                match CodeUnit.ofDigits? a b c d with
                | none => none
                | some low => if CodeUnit.isLow low then skipString? rest else none
            | _ => none
          else if CodeUnit.isLow unit then none
          else skipString? rest
  | '\\' :: c :: rest =>
      if "\"\\/bfnrt".toList.contains c then skipString? rest else none
  | c :: rest => if isLineEnd c ∨ c = '\\' then none else skipString? rest

/-- Drops the line end that a string may have right behind its opening quote. -/
def skipLineEnd : List Char → List Char
  | [] => []
  | c :: rest => if isLineEnd c then rest else c :: rest

/-- Drops a block string after its opening quotes. Only three quotes can be escaped. -/
def skipBlock? : List Char → Option (List Char)
  | [] => none
  | '\\' :: '"' :: '"' :: '"' :: rest => skipBlock? rest
  | '"' :: '"' :: '"' :: rest => some rest
  | _ :: rest => skipBlock? rest

/-! ## Tokens -/

/-- The first token of a text that starts with neither a blank nor a comment. -/
def nextToken? : List Char → Option (Token × List Char)
  | [] => none
  | '"' :: '"' :: '"' :: rest => (skipBlock? rest).map fun rest => (.string, rest)
  | '"' :: rest => (skipString? (skipLineEnd rest)).map fun rest => (.string, rest)
  | c :: rest =>
      if isMark c then some (.mark c, rest)
      else if Name.isStart c then
        let cs := c :: rest
        some (.name (String.ofList (cs.takeWhile Name.isContinue)), cs.dropWhile Name.isContinue)
      else if c.isDigit || c == '-' then
        (skipNumber? (c :: rest)).map fun rest => (.number, rest)
      else none

/-- The tokens of a text, read with one unit of fuel per character. -/
def tokensFrom? : Nat → List Token → List Char → Option (List Token)
  | 0, done, cs => if cs.isEmpty then some done.reverse else none
  | fuel + 1, done, cs =>
      match cs.dropWhile isIgnored with
      | [] => some done.reverse
      | '#' :: rest => tokensFrom? fuel done (rest.dropWhile fun c => !isLineEnd c)
      | cs =>
          match nextToken? cs with
          | some (token, rest) => tokensFrom? fuel (token :: done) rest
          | none => none

def tokens? (text : String) : Option (List Token) :=
  let cs := text.toList
  tokensFrom? cs.length [] cs

end Sdl

end GraphQuery
