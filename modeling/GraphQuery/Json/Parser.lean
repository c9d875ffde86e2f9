import GraphQuery.CodeUnit
import GraphQuery.Json.Basic

/-!
# Json.Parser — reading JSON text

- `Json.Token` : punctuation, literals, numbers and strings
- `Json.tokens?` : the tokens of a text
- `Json.parse?` : the value a text denotes, `none` when it is no JSON text

The token reader walks the characters once. The value reader is given two units of fuel per
token, which it cannot exhaust: of two calls inside each other one consumes a token.
-/

set_option autoImplicit false

namespace GraphQuery

namespace Json

inductive Token where
  | openArray
  | closeArray
  | openObject
  | closeObject
  | colon
  | comma
  | literal (value : Json)
  deriving Repr

/-! ## Numbers -/

/-- The digits at the front of a text. -/
def splitDigits (cs : List Char) : List Char × List Char :=
  (cs.takeWhile Char.isDigit, cs.dropWhile Char.isDigit)

def digitsValue (cs : List Char) : Nat :=
  cs.foldl (fun n c => 10 * n + (c.toNat - 48)) 0

/-- An exponent after its letter: a sign or none, and at least one digit. -/
def readExponent? (cs : List Char) : Option (Int × List Char) :=
  let (negative, rest) := match cs with
    | '-' :: rest => (true, rest)
    | '+' :: rest => (false, rest)
    | _ => (false, cs)
  match splitDigits rest with
  | ([], _) => none
  | (digits, rest) =>
      let n : Int := digitsValue digits
      some (if negative then -n else n, rest)

/-- The number with integer digits, fraction digits and an exponent. -/
def decimalNumber? (negative : Bool) (whole fraction : List Char) (exponent : Int) :
    Option Number :=
  (Binary64.ofDecimal? negative (digitsValue (whole ++ fraction)) (exponent - fraction.length)).map
    Number.double

/-- The number written by integer digits alone. Minus zero and integers that do not fit are
doubles. -/
def integerNumber? (negative : Bool) (whole : List Char) : Option Number :=
  let n : Int := digitsValue whole
  let signed := if negative then -n else n
  if Number.fits signed && !(negative && n == 0) then some (.integer signed)
  else decimalNumber? negative whole [] 0

/-- A number after its sign: no zero in front of other digits, digits after a point. -/
def readMagnitude? (negative : Bool) (cs : List Char) : Option (Number × List Char) :=
  let (whole, rest) := splitDigits cs
  if whole.isEmpty || (whole.head? == some '0' && whole.length != 1) then none
  else
    let fraction? := match rest with
      | '.' :: rest =>
          match splitDigits rest with
          | ([], _) => none
          | (digits, rest) => some (digits, rest, true)
      | _ => some ([], rest, false)
    match fraction? with
    | none => none
    | some (fraction, rest, isDecimal) =>
        match rest with
        | 'e' :: more | 'E' :: more => do
            let (exponent, rest) ← readExponent? more
            let n ← decimalNumber? negative whole fraction exponent
            return (n, rest)
        | _ => do
            let n ← if isDecimal then decimalNumber? negative whole fraction 0
              else integerNumber? negative whole
            return (n, rest)

def readNumber? : List Char → Option (Number × List Char)
  | '-' :: rest => readMagnitude? true rest
  | cs => readMagnitude? false cs

/-! ## Strings -/

/-- The characters that a backslash and a letter stand for. -/
def shortEscape? : Char → Option Char
  | '"' => some '"'
  | '\\' => some '\\'
  | '/' => some '/'
  | 'b' => some '\x08'
  | 'f' => some '\x0c'
  | 'n' => some '\n'
  | 'r' => some '\r'
  | 't' => some '\t'
  | _ => none

/-- The rest of a string after its opening quote. `done` holds the characters before, last one
first. A character outside the basic plane is escaped as two surrogates, which stand for
nothing alone. -/
def readString? (done : List Char) : List Char → Option (String × List Char)
  | [] => none
  | '"' :: rest => some (String.ofList done.reverse, rest)
  | '\\' :: 'u' :: a :: b :: c :: d :: rest =>
      match CodeUnit.ofDigits? a b c d with
      | none => none
      | some unit =>
          if CodeUnit.isHigh unit then
            match rest with
            | '\\' :: 'u' :: a :: b :: c :: d :: rest =>
                match CodeUnit.ofDigits? a b c d with
                | none => none
                | some low =>
                    if CodeUnit.isLow low then readString? (CodeUnit.pair unit low :: done) rest
                    else none
            | _ => none
          else if CodeUnit.isLow unit then none
          else readString? (Char.ofNat unit :: done) rest
  | '\\' :: c :: rest =>
      match shortEscape? c with
      | some e => readString? (e :: done) rest
      | none => none
  | c :: rest => if c.toNat < 32 ∨ c = '\\' then none else readString? (c :: done) rest

/-! ## Tokens -/

def isBlank (c : Char) : Bool :=
  c == ' ' || c == '\t' || c == '\n' || c == '\r'

/-- The first token of a text and the text behind it; blanks in front are skipped. -/
def nextToken? : List Char → Option (Token × List Char)
  | [] => none
  | '[' :: rest => some (.openArray, rest)
  | ']' :: rest => some (.closeArray, rest)
  | '{' :: rest => some (.openObject, rest)
  | '}' :: rest => some (.closeObject, rest)
  | ':' :: rest => some (.colon, rest)
  | ',' :: rest => some (.comma, rest)
  | 'n' :: 'u' :: 'l' :: 'l' :: rest => some (.literal .null, rest)
  | 't' :: 'r' :: 'u' :: 'e' :: rest => some (.literal (.bool true), rest)
  | 'f' :: 'a' :: 'l' :: 's' :: 'e' :: rest => some (.literal (.bool false), rest)
  | '"' :: rest => (readString? [] rest).map fun (s, rest) => (.literal (.string s), rest)
  | cs => (readNumber? cs).map fun (n, rest) => (.literal (.number n), rest)

/-- The tokens of a text, read with one unit of fuel per character. -/
def tokensFrom? : Nat → List Token → List Char → Option (List Token)
  | 0, done, cs => if cs.isEmpty then some done.reverse else none
  | fuel + 1, done, cs =>
      match cs.dropWhile isBlank with
      | [] => some done.reverse
      | cs =>
          match nextToken? cs with
          | some (token, rest) => tokensFrom? fuel (token :: done) rest
          | none => none

def tokens? (text : String) : Option (List Token) :=
  let cs := text.toList
  tokensFrom? cs.length [] cs

/-! ## Values -/

mutual

/-- The value at the front of the tokens. -/
def readValue? : Nat → List Token → Option (Json × List Token)
  | _ + 1, .literal value :: rest => some (value, rest)
  | _ + 1, .openArray :: .closeArray :: rest => some (.array [], rest)
  | fuel + 1, .openArray :: rest =>
      (readItems? fuel [] rest).map fun (items, rest) => (.array items, rest)
  | _ + 1, .openObject :: .closeObject :: rest => some (.object [], rest)
  | fuel + 1, .openObject :: rest =>
      (readMembers? fuel [] rest).map fun (members, rest) => (.object members, rest)
  | _, _ => none

/-- The items up to the closing bracket; `done` holds those before, last one first. -/
def readItems? : Nat → List Json → List Token → Option (List Json × List Token)
  | 0, _, _ => none
  | fuel + 1, done, tokens =>
      match readValue? fuel tokens with
      | some (item, .comma :: rest) => readItems? fuel (item :: done) rest
      | some (item, .closeArray :: rest) => some ((item :: done).reverse, rest)
      | _ => none

/-- The members up to the closing brace; `done` holds those before, last one first. -/
def readMembers? : Nat → List (String × Json) → List Token →
    Option (List (String × Json) × List Token)
  | fuel + 1, done, .literal (.string name) :: .colon :: tokens =>
      match readValue? fuel tokens with
      | some (value, .comma :: rest) => readMembers? fuel ((name, value) :: done) rest
      | some (value, .closeObject :: rest) => some (((name, value) :: done).reverse, rest)
      | _ => none
  | _, _, _ => none

end

/-- The value a text denotes, or `none` when it is not one JSON value. -/
def parse? (text : String) : Option Json := do
  let tokens ← tokens? text
  match readValue? (2 * tokens.length + 1) tokens with
  | some (value, []) => some value
  | _ => none

end Json

end GraphQuery
