import GraphQuery.Yaml.Scalar

/-!
# Yaml.Tag — tags and directives

- `Yaml.Tag` : a tag as it is written, a handle and a suffix
- `Yaml.tag?` : reads a tag
- `Yaml.Directive`, `Yaml.directive?` : the lines that give a version or a handle
- `Yaml.Tag.resolve?` : the full text of a tag
-/

set_option autoImplicit false

namespace GraphQuery

namespace Yaml

structure Tag where
  /-- Empty where the suffix is the whole tag. -/
  handle : String
  suffix : String
  deriving DecidableEq, Repr

inductive Directive where
  | version (major minor : Nat)
  | handle (handle expansion : String)
  deriving DecidableEq, Repr

/-! ## Texts of tags -/

def isTagPart (c : Char) : Bool :=
  isWordPart c || ";/?:@&=+$.!~*'()".toList.contains c

/-- How many octets follow the first one of a character. -/
def octetsBehind? (octet : Nat) : Option Nat :=
  if octet < 0x80 then some 0
  else if octet < 0xC0 then none
  else if octet < 0xE0 then some 1
  else if octet < 0xF0 then some 2
  else if octet < 0xF8 then some 3
  else none

/-- The part of a tag at the start of a text, and what follows. Octets can be written as a percent
sign and two digits, and each is read as the character with its number. So many octets as `behind`
says have to follow before the character they belong to is complete. -/
def tagText? (isPart : Char → Bool) : (behind : Nat) → List Char → Option (List Char × List Char)
  | 0, [] => some ([], [])
  | _ + 1, [] => none
  | behind, '%' :: a :: b :: rest => do
      let octet := 16 * (← Hexadecimal.value? a) + (← Hexadecimal.value? b)
      let left ← match behind with
        | 0 => octetsBehind? octet
        | n + 1 => if 0x80 ≤ octet && octet < 0xC0 then some n else none
      let (cs, after) ← tagText? isPart left rest
      return (Char.ofNat octet :: cs, after)
  | 0, c :: rest =>
      if isPart c then (tagText? isPart 0 rest).map fun (cs, after) => (c :: cs, after)
      else if c == '%' then none
      else some ([], c :: rest)
  | _ + 1, _ :: _ => none

/-- A tag between angle brackets may also hold brackets and commas. -/
def isVerbatimPart (c : Char) : Bool :=
  isTagPart c || c == ',' || c == '[' || c == ']'

/-- A handle behind its first exclamation mark, with the mark behind it if there is one. -/
def handleParts (cs : List Char) : List Char × Bool × List Char :=
  let word := cs.takeWhile isWordPart
  match cs.dropWhile isWordPart with
  | '!' :: rest => (word, true, rest)
  | rest => (word, false, rest)

/-- A part of a tag is cut in front of the first null character, which only an octet gives. -/
def beforeNull (cs : List Char) : String :=
  String.ofList (cs.takeWhile (· != '\u0000'))

/-- A tag behind its first exclamation mark, and what follows. -/
def tag? (cs : List Char) : Option (Tag × List Char) :=
  match cs with
  | '<' :: rest => do
      match ← tagText? isVerbatimPart 0 rest with
      | (c :: text, '>' :: after) => return (⟨"", beforeNull (c :: text)⟩, after)
      | _ => none
  | _ => do
      let (word, closed, rest) := handleParts cs
      let (text, after) ← tagText? isTagPart 0 rest
      if closed then
        if text.isEmpty then none
        else return (⟨String.ofList ('!' :: word ++ ['!']), beforeNull text⟩, after)
      else
        -- The mark alone is a tag without a handle.
        let suffix := beforeNull (word ++ text)
        return (if suffix.isEmpty then ⟨"", "!"⟩ else ⟨"!", suffix⟩, after)

/-! ## Directives -/

/-- The number that digits stand for in a base. -/
def number? (base : Nat) (digits : List Char) : Option Nat :=
  if digits.isEmpty then none
  else digits.foldlM (fun n c => do
    let d ← Hexadecimal.value? c
    if d < base then some (base * n + d) else none) 0

/-- The decimal number at the start of a text, of at most nine digits, and what follows. -/
def versionPart? (cs : List Char) : Option (Nat × List Char) :=
  let digits := cs.takeWhile Char.isDigit
  if 9 < digits.length then none
  else (number? 10 digits).map fun n => (n, cs.dropWhile Char.isDigit)

def versionDirective? (cs : List Char) : Option Directive := do
  match ← versionPart? (cs.dropWhile isBlank) with
  | (major, '.' :: rest) =>
      let (minor, rest) ← versionPart? rest
      if isRestOfLine rest then return .version major minor else none
  | _ => none

def handleDirective? (cs : List Char) : Option Directive := do
  match cs.dropWhile isBlank with
  | '!' :: rest =>
      let (word, closed, rest) := handleParts rest
      if !closed && !word.isEmpty then none
      let handle := if closed then '!' :: word ++ ['!'] else ['!']
      match rest with
      | [] => none
      | c :: _ =>
          if !isBlank c then none
          let (text, rest) ← tagText? isVerbatimPart 0 (rest.dropWhile isBlank)
          let ends := match rest with
            | [] => true
            | c :: _ => isBlank c
          if text.isEmpty || !ends || !isRestOfLine rest then none
          else return .handle (String.ofList handle) (beforeNull text)
  | _ => none

/-- A line behind the percent sign that starts it. -/
def directive? (cs : List Char) : Option Directive :=
  let rest := cs.dropWhile isWordPart
  let ends := match rest with
    | [] => true
    | c :: _ => isBlank c
  if !ends then none
  else
    match String.ofList (cs.takeWhile isWordPart) with
    | "YAML" => versionDirective? rest
    | "TAG" => handleDirective? rest
    | _ => none

/-! ## Meaning -/

/-- What handles stand for where no directive says otherwise. -/
def standardHandles : List (String × String) :=
  [("!", "!"), ("!!", "tag:yaml.org,2002:")]

def handleOf : Directive → Option (String × String)
  | .version _ _ => none
  | .handle handle expansion => some (handle, expansion)

def isVersion : Directive → Bool
  | .version _ _ => true
  | .handle _ _ => false

/-- Whether the directives of one document agree: at most one version, which is one of the two that
are known, and no handle twice. -/
def compatible (directives : List Directive) : Bool :=
  let handles := (directives.filterMap handleOf).map Prod.fst
  directives.all (fun d => !isVersion d || d == .version 1 1 || d == .version 1 2) &&
    directives.countP isVersion ≤ 1 && decide handles.Nodup

/-- What handles stand for in a document. -/
def handlesOf (directives : List Directive) : List (String × String) :=
  directives.filterMap handleOf ++ standardHandles

/-- The full text of a tag, if its handle is known. -/
def Tag.resolve? (handles : List (String × String)) (tag : Tag) : Option String :=
  if tag.handle.isEmpty then some tag.suffix
  else (handles.lookup tag.handle).map fun expansion => expansion ++ tag.suffix

end Yaml

end GraphQuery
