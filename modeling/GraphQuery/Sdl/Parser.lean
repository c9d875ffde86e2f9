import GraphQuery.Sdl.Document
import GraphQuery.Sdl.Token

/-!
# Sdl.Parser — reading schema documents

- `Sdl.Reader` : a reader of tokens that fails or leaves the tokens behind what it read
- `Sdl.type`, `Sdl.value` : types and constant values, nested up to `nestingLimit`
- `Sdl.definition` : one definition or extension
- `Schema.ofSdl` : the schema a text describes

Braces with declarations, parentheses and lists after `=` are never empty. Descriptions,
directives and default values are read and dropped. Commas stand anywhere but in front of the
keywords that follow a description or `extend`.
-/

set_option autoImplicit false

namespace GraphQuery

namespace Sdl

abbrev Reader := StateT (List Token) Option

/-- Lists in types nest no deeper than this, and no value is inside more others. -/
def nestingLimit : Nat := 500

/-! ## Single tokens -/

def isComma (token : Token) : Bool :=
  token == .mark ','

/-- The next token that is no comma. -/
def peek : Reader (Option Token) := do
  return ((← get).dropWhile isComma).head?

def next : Reader Token := do
  match (← get).dropWhile isComma with
  | [] => failure
  | token :: rest =>
      set rest
      return token

/-- Whether a token comes next, which is then dropped. -/
def accept (token : Token) : Reader Bool := do
  if (← peek) = some token then
    let _ ← next
    return true
  else return false

def expect (token : Token) : Reader Unit := do
  if !(← accept token) then failure

def name : Reader String := do
  match ← next with
  | .name text => return text
  | _ => failure

/-- Fails at a comma. -/
def noComma : Reader Unit := do
  if (← get).head?.any isComma then failure

/-- Reads items as long as one starts, with one unit of fuel per item. -/
def many {α : Type} (starts : Token → Bool) (item : Reader α) : Nat → Reader (List α)
  | 0 => return []
  | fuel + 1 => do
      match ← peek with
      | some token =>
          if starts token then
            let x ← item
            return x :: (← many starts item fuel)
          else return []
      | none => return []

/-- Reads items as long as one starts; every item consumes a token. -/
def zeroOrMore {α : Type} (starts : Token → Bool) (item : Reader α) : Reader (List α) := do
  many starts item (← get).length

def oneOrMore {α : Type} (starts : Token → Bool) (item : Reader α) : Reader (List α) := do
  match ← zeroOrMore starts item with
  | [] => failure
  | xs => return xs

def isName : Token → Bool
  | .name _ => true
  | _ => false

/-- Items of a definition start with a name or a description. -/
def isNameOrString : Token → Bool
  | .name _ | .string => true
  | _ => false

def description : Reader Unit := do
  let _ ← accept .string

/-- Names with a separator between them, and possibly one in front. -/
def separated (separator : Char) : Reader (List String) := do
  let _ ← accept (.mark separator)
  let first ← name
  let others ← zeroOrMore (· == .mark separator) do
    expect (.mark separator)
    name
  return first :: others

/-! ## Types and values -/

def nonNullMark (type : TypeExpr) : Reader TypeExpr := do
  if ← accept (.mark '!') then return .nonNull type else return type

/-- A type with at most so many lists inside each other. -/
def typeWithin : Nat → Reader TypeExpr
  | 0 => do nonNullMark (.named (← name))
  | depth + 1 => do
      if ← accept (.mark '[') then
        let item ← typeWithin depth
        expect (.mark ']')
        nonNullMark (.list item)
      else nonNullMark (.named (← name))

def type : Reader TypeExpr := typeWithin nestingLimit

/-- A constant that holds no others. -/
def plainValue : Reader Unit := do
  match ← next with
  | .name _ | .number | .string => return
  | .mark _ => failure

/-- A constant with less than so many levels of lists and objects; variables are none. A field of
an object may go without a value. -/
def valueWithin : Nat → Reader Unit
  | 0 => failure
  | levels + 1 => do
      if ← accept (.mark '[') then
        let _ ← zeroOrMore (· != .mark ']') (valueWithin levels)
        expect (.mark ']')
      else if ← accept (.mark '{') then
        let _ ← zeroOrMore isName do
          let _ ← name
          if ← accept (.mark ':') then valueWithin levels
        expect (.mark '}')
      else plainValue

/-- The outermost value is inside no other. -/
def value : Reader Unit := valueWithin (nestingLimit + 1)

/-- An argument of a directive may go without a value. -/
def directive : Reader Unit := do
  expect (.mark '@')
  let _ ← name
  if ← accept (.mark '(') then
    let _ ← oneOrMore isName do
      let _ ← name
      if ← accept (.mark ':') then value
    expect (.mark ')')

/-- Applied directives; whether there are any. -/
def appliedDirectives : Reader Bool := do
  return !(← zeroOrMore (· == .mark '@') directive).isEmpty

/-! ## Parts of definitions -/

/-- A name with a type: an argument or a field of an input object. -/
def inputValue : Reader ArgumentDeclaration := do
  description
  let name ← name
  expect (.mark ':')
  let type ← type
  if ← accept (.mark '=') then value
  let _ ← appliedDirectives
  return { name, type }

def argumentList : Reader (List ArgumentDeclaration) := do
  if ← accept (.mark '(') then
    let arguments ← oneOrMore isNameOrString inputValue
    expect (.mark ')')
    return arguments
  else return []

def field : Reader FieldDeclaration := do
  description
  let name ← name
  let arguments ← argumentList
  expect (.mark ':')
  let type ← type
  let _ ← appliedDirectives
  return { name, type, arguments }

/-- Items between braces, if a brace comes next. -/
def braced? {α : Type} (starts : Token → Bool) (item : Reader α) : Reader (Option (List α)) := do
  if ← accept (.mark '{') then
    let items ← oneOrMore starts item
    expect (.mark '}')
    return some items
  else return none

def enumValue : Reader String := do
  description
  let name ← name
  if name ∈ ["true", "false", "null"] then failure
  let _ ← appliedDirectives
  return name

def interfaceList? : Reader (Option (List String)) := do
  if ← accept (.name "implements") then return some (← separated '&') else return none

def memberList? : Reader (Option (List String)) := do
  if ← accept (.mark '=') then return some (← separated '|') else return none

/-- A root operation with its type, which may be left out. -/
def root : Reader (Operation × Option String) := do
  let operation ← match ← name with
    | "query" => pure Operation.query
    | "mutation" => pure Operation.mutation
    | "subscription" => pure Operation.subscription
    | _ => failure
  expect (.mark ':')
  if (← peek).any isName then return (operation, some (← name)) else return (operation, none)

/-- The operations that have a type. -/
def typedRoots (roots : List (Operation × Option String)) : List (Operation × String) :=
  roots.filterMap fun (operation, type?) => type?.map fun type => (operation, type)

/-- Where a directive can be applied. -/
def directiveLocations : List String :=
  ["QUERY", "MUTATION", "SUBSCRIPTION", "FIELD", "FRAGMENT_DEFINITION", "FRAGMENT_SPREAD",
    "INLINE_FRAGMENT", "VARIABLE_DEFINITION", "SCHEMA", "SCALAR", "OBJECT", "FIELD_DEFINITION",
    "ARGUMENT_DEFINITION", "INTERFACE", "UNION", "ENUM", "ENUM_VALUE", "INPUT_OBJECT",
    "INPUT_FIELD_DEFINITION"]

def directiveDefinition : Reader String := do
  expect (.mark '@')
  let name ← name
  let _ ← argumentList
  let _ ← accept (.name "repeatable")
  expect (.name "on")
  let locations ← separated '|'
  if locations.all (· ∈ directiveLocations) then return name else failure

/-! ## Definitions -/

/-- The body of a type after its keyword, and whether it has any part besides the name. -/
def typeBody : TypeKind → Reader (TypeDeclaration × Bool)
  | .scalar => do
      let name ← name
      let directives ← appliedDirectives
      return (.scalar name, directives)
  | .object => do
      let name ← name
      let interfaces ← interfaceList?
      let directives ← appliedDirectives
      let fields ← braced? isNameOrString field
      return (.object name (fields.getD []) (interfaces.getD []),
        interfaces.isSome || directives || fields.isSome)
  | .interface => do
      let name ← name
      let interfaces ← interfaceList?
      let directives ← appliedDirectives
      let fields ← braced? isNameOrString field
      return (.interface name (fields.getD []) (interfaces.getD []),
        interfaces.isSome || directives || fields.isSome)
  | .union => do
      let name ← name
      let directives ← appliedDirectives
      let members ← memberList?
      return (.union name (members.getD []), directives || members.isSome)
  | .enum => do
      let name ← name
      let directives ← appliedDirectives
      let values ← braced? isNameOrString enumValue
      return (.enum name (values.getD []), directives || values.isSome)
  | .inputObject => do
      let name ← name
      let directives ← appliedDirectives
      let fields ← braced? isNameOrString inputValue
      return (.inputObject name (fields.getD []), directives || fields.isSome)

def typeKeyword? : String → Option TypeKind
  | "scalar" => some .scalar
  | "type" => some .object
  | "interface" => some .interface
  | "union" => some .union
  | "enum" => some .enum
  | "input" => some .inputObject
  | _ => none

/-- The parts of an extension of the schema. Braces may be empty behind a directive. -/
def schemaExtension : Reader Definition := do
  let directives ← appliedDirectives
  if ← accept (.mark '{') then
    let roots ← zeroOrMore isName root
    expect (.mark '}')
    if directives || !roots.isEmpty then return .schemaExtension (typedRoots roots) else failure
  else if directives then return .schemaExtension []
  else failure

/-- An extension behind its first word. It has at least one part besides the name. -/
def extension : Reader Definition := do
  noComma
  let keyword ← name
  match keyword, typeKeyword? keyword with
  | "schema", _ => schemaExtension
  | _, some kind => do
      let (declaration, extended) ← typeBody kind
      if extended then return .typeExtension declaration else failure
  | _, none => failure

/-- A definition or an extension. Only definitions have a description. -/
def definition : Reader Definition := do
  let described ← accept .string
  if described then noComma
  let keyword ← name
  match keyword, typeKeyword? keyword with
  | "extend", _ => if described then failure else extension
  | "schema", _ => do
      let _ ← appliedDirectives
      -- The schema may be defined without roots, for extensions to add them.
      return .schema (typedRoots ((← braced? isName root).getD []))
  | "directive", _ => return .directive (← directiveDefinition)
  | _, some kind => return .type (← typeBody kind).1
  | _, none => failure

/-- A text that consists of definitions, at least one of them. -/
def document? (tokens : List Token) : Option (List Definition) :=
  match (oneOrMore isNameOrString definition).run tokens with
  | some (definitions, rest) => if rest.all isComma then some definitions else none
  | none => none

/-- The declarations that a text makes. -/
def read (text : String) : Except Fault Declarations :=
  match tokens? text with
  | none => .error .invalidToken
  | some tokens =>
      match document? tokens with
      | none => .error .invalidDefinition
      | some document => declarations document

end Sdl

/-- The schema described by a text in the schema definition language. -/
def Schema.ofSdl (text : String) : Except SchemaError Schema :=
  match Sdl.read text with
  | .error fault => .error (.unreadable fault.message)
  | .ok d => d.build

end GraphQuery
