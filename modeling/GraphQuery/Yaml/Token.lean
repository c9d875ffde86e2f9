import GraphQuery.Yaml.Tag

/-!
# Yaml.Token — the tokens of settings

Settings are a mapping whose keys and values are scalars, in blocks or between braces. A text with
a sequence, or with a mapping inside another, has no tokens.

- `Yaml.Token` : the tokens
- `Yaml.Scanner` : the tokens so far, and what may come next
- `Yaml.tokens?` : the tokens of a text

A key is recognized late, by the colon behind it. So the scanner remembers where one may have
started, and a colon puts the token that announces a key in front of it.
-/

set_option autoImplicit false

namespace GraphQuery

namespace Yaml

inductive Token where
  | directive (content : Directive)
  | documentStart
  | documentEnd
  | mappingStart
  | mappingEnd
  | braceStart
  | braceEnd
  | entry
  | key
  | value
  | alias (name : String)
  | anchor (name : String)
  | tag (tag : Tag)
  | scalar (style : ScalarStyle) (text : String)
  deriving DecidableEq, Repr

/-- Where a key may have started. -/
structure Candidate where
  /-- The number of tokens in front of it. -/
  before : Nat
  line : Nat
  column : Nat
  /-- Nothing but a key can start there. -/
  required : Bool
  deriving Repr

structure Scanner where
  tokens : List Token
  /-- The column of the mapping, inside of one that has no braces. -/
  block : Option Nat
  inFlow : Bool
  keyAllowed : Bool
  candidate : Option Candidate

namespace Scanner

def start : Scanner where
  tokens := []
  block := none
  inFlow := false
  keyAllowed := true
  candidate := none

def emit (s : Scanner) (token : Token) : Scanner :=
  { s with tokens := s.tokens ++ [token] }

/-! ## Keys -/

/-- The place before a token may turn out to be the start of a key. -/
def save (s : Scanner) (p : Placed) : Scanner :=
  if s.keyAllowed then
    { s with candidate := some {
        before := s.tokens.length, line := p.line, column := p.column
        required := !s.inFlow && s.block == some p.column } }
  else s

/-- Gives up the last candidate, unless it is required. -/
def dismiss? (s : Scanner) : Option Scanner :=
  if (s.candidate.map Candidate.required).getD false then none
  else some { s with candidate := none }

/-- Gives up a candidate that does not end on its line within 1024 characters. -/
def expire? (s : Scanner) (p : Placed) : Option Scanner :=
  match s.candidate with
  | none => some s
  | some c => if c.line < p.line || c.column + 1024 < p.column then s.dismiss? else some s

/-! ## Indentation -/

/-- A mapping without braces ends where the indentation is less than its own. -/
def leave (s : Scanner) (column : Nat) : Scanner :=
  match s.block with
  | some own => if !s.inFlow && column < own then { s.emit .mappingEnd with block := none } else s
  | none => s

/-- Any mapping without braces ends here. -/
def leaveAll (s : Scanner) : Scanner :=
  match s.block with
  | some _ => { s.emit .mappingEnd with block := none }
  | none => s

/-- A key at a column starts a mapping, if none has started. The token goes in front of those from
a position on. Deeper mappings are none of ours. -/
def enter? (s : Scanner) (column position : Nat) : Option Scanner :=
  if s.inFlow then some s
  else
    match s.block with
    | none => some { s with
        tokens := s.tokens.take position ++ Token.mappingStart :: s.tokens.drop position
        block := some column }
    | some own => if own < column then none else some s

/-! ## Single tokens -/

/-- A token between documents: it ends a mapping, and no key starts behind it on its line. A
directive takes the end of its line with it. -/
def documentMark? (s : Scanner) (token : Token) : Option Scanner := do
  if s.inFlow then none
  let s ← s.leaveAll.dismiss?
  return { s.emit token with keyAllowed := false }

def openBrace? (s : Scanner) : Option Scanner :=
  if s.inFlow || s.block.isSome then none
  else some { s.emit .braceStart with inFlow := true, keyAllowed := true, candidate := none }

def closeBrace? (s : Scanner) : Option Scanner :=
  if s.inFlow then
    some { s.emit .braceEnd with inFlow := false, keyAllowed := false, candidate := none }
  else none

def comma? (s : Scanner) : Option Scanner :=
  if s.inFlow then some { s.emit .entry with keyAllowed := true, candidate := none } else none

def keyMark? (s : Scanner) (p : Placed) : Option Scanner := do
  let s ← if s.inFlow then some s
    else if s.keyAllowed then s.enter? p.column s.tokens.length else none
  let s ← s.dismiss?
  return { s.emit .key with keyAllowed := !s.inFlow }

/-- A colon ends the key that its candidate starts, or else stands for a value without one. -/
def valueMark? (s : Scanner) (p : Placed) : Option Scanner := do
  match s.candidate with
  | some c =>
      -- The key mark goes in front of what the candidate was saved for.
      let s := { s with tokens := s.tokens.take c.before ++ Token.key :: s.tokens.drop c.before }
      let s ← s.enter? c.column c.before
      return { s.emit .value with keyAllowed := false, candidate := none }
  | none =>
      let s ← if s.inFlow then some s
        else if s.keyAllowed then s.enter? p.column s.tokens.length else none
      return { s.emit .value with keyAllowed := !s.inFlow }

/-- A name behind its indicator. It runs up to a space or certain marks. -/
def name? (ps : List Placed) : Option (String × List Placed) :=
  let word := ps.takeWhile fun p => isWordPart p.char
  let rest := ps.dropWhile fun p => isWordPart p.char
  let ends := match rest with
    | [] => true
    | p :: _ => isSpace p.char || "?:,]\x7d%@\x60".toList.contains p.char
  if word.isEmpty || !ends then none else some (String.ofList (word.map Placed.char), rest)

/-- A token at which a key may start, and behind which none can. -/
def node (s : Scanner) (p : Placed) (token : Token) : Scanner :=
  { (s.save p).emit token with keyAllowed := false }

def tagToken? (s : Scanner) (p : Placed) (ps : List Placed) :
    Option (Scanner × List Placed) := do
  let word := (ps.takeWhile fun q => !isSpace q.char).map Placed.char
  let (tag, after) ← tag? word
  let ends := match after with
    | [] => true
    | c :: _ => s.inFlow && c == ','
  if ends then return (s.node p (.tag tag), ps.drop (word.length - after.length)) else none

def blockToken? (s : Scanner) (isFolded : Bool) (ps : List Placed) :
    Option (Scanner × List Placed) := do
  let s ← s.dismiss?
  let (text, rest) ← blockText isFolded s.block ps
  let style := if isFolded then ScalarStyle.folded else .literal
  return ({ s.emit (.scalar style (String.ofList text)) with keyAllowed := true }, rest)

/-- Characters that no plain scalar starts with, unless `startsPlain` says so. -/
def isIndicator (c : Char) : Bool :=
  "-?:,[]\x7b\x7d#&*!|>'\"%@\x60".toList.contains c

def startsPlain (inFlow : Bool) (p : Placed) (rest : List Placed) : Bool :=
  !(isSpace p.char || isIndicator p.char) ||
    (p.char == '-' && !(startsWith ' ' rest || startsWith '\t' rest)) ||
    (!inFlow && (p.char == '?' || p.char == ':') && !endsWord rest)

/-- The column that lines of a plain scalar have at least. -/
def continuation (s : Scanner) : Nat :=
  match s.block with
  | none => 0
  | some column => column + 1

/-- The token at a character that is neither a blank nor part of a comment. -/
def token? (s : Scanner) (p : Placed) (rest : List Placed) : Option (Scanner × List Placed) := do
  -- Marks that stand at the start of a line.
  if p.column == 0 && p.char == '%' then
    let inLine (q : Placed) : Bool := !isBreak q.char
    let content ← directive? ((rest.takeWhile inLine).map Placed.char)
    return (← s.documentMark? (.directive content), (rest.dropWhile inLine).drop 1)
  else if isTriple '-' (p :: rest) then return (← s.documentMark? .documentStart, rest.drop 2)
  else if isTriple '.' (p :: rest) then return (← s.documentMark? .documentEnd, rest.drop 2)
  -- Marks of mappings.
  else if p.char == '\x7b' then return (← s.openBrace?, rest)
  else if p.char == '\x7d' then return (← s.closeBrace?, rest)
  else if p.char == ',' then return (← s.comma?, rest)
  else if p.char == '[' || p.char == ']' then none
  else if p.char == '-' && endsWord rest then none
  else if p.char == '?' && (s.inFlow || endsWord rest) then return (← s.keyMark? p, rest)
  else if p.char == ':' && (s.inFlow || endsWord rest) then return (← s.valueMark? p, rest)
  -- Properties of nodes, and nodes.
  else if p.char == '*' then
    let (name, rest) ← name? rest
    return (s.node p (.alias name), rest)
  else if p.char == '&' then
    let (name, rest) ← name? rest
    return (s.node p (.anchor name), rest)
  else if p.char == '!' then s.tagToken? p rest
  else if p.char == '|' && !s.inFlow then s.blockToken? false rest
  else if p.char == '>' && !s.inFlow then s.blockToken? true rest
  else if p.char == '\'' then
    let (text, rest) ← singleText .nothing rest
    return (s.node p (.scalar .quoted (String.ofList text)), rest)
  else if p.char == '"' then
    let (text, rest) ← doubleText (.text .nothing) rest
    return (s.node p (.scalar .quoted (String.ofList text)), rest)
  else if startsPlain s.inFlow p rest then
    let (text, broken, rest) ← plainText s.inFlow s.continuation .nothing (p :: rest)
    let s := s.node p (.scalar .plain (String.ofList text))
    return ({ s with keyAllowed := broken }, rest)
  else none

/-! ## Texts -/

/-- Drops blanks, comments and line ends. Outside of braces a key may start on a new line. Tabs are
blanks where no key may start. A byte order mark may start a line, and takes a column there. -/
def skip (inFlow : Bool) : (keyAllowed inComment : Bool) → List Placed → Bool × List Placed
  | keyAllowed, _, [] => (keyAllowed, [])
  | keyAllowed, inComment, p :: rest =>
      if isBreak p.char then skip inFlow (keyAllowed || !inFlow) false rest
      else if inComment || p.char == '#' then skip inFlow keyAllowed true rest
      else if p.char == ' ' || (p.char == '\t' && (inFlow || !keyAllowed)) ||
          (p.char == '\ufeff' && p.column == 0) then
        skip inFlow keyAllowed false rest
      else (keyAllowed, p :: rest)

/-- The tokens of a text, read with one unit of fuel per token. Braces have to be closed. -/
def run? : Nat → Scanner → List Placed → Option (List Token)
  | 0, _, _ => none
  | fuel + 1, s, ps =>
      match skip s.inFlow s.keyAllowed false ps with
      -- The end of the text ends a mapping, and no required key may be open.
      | (_, []) => if s.inFlow then none else s.leaveAll.dismiss?.map Scanner.tokens
      | (keyAllowed, p :: rest) => do
          -- A key has to end on its line, so candidates expire before the next token.
          let s ← { s with keyAllowed }.expire? p
          let (s, rest) ← (s.leave p.column).token? p rest
          run? fuel s rest

end Scanner

def tokens? (text : String) : Option (List Token) := do
  let ps ← placed? text
  Scanner.start.run? (ps.length + 1) ps

end Yaml

end GraphQuery
