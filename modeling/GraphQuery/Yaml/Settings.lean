import GraphQuery.Yaml.Anchor
import GraphQuery.Yaml.Token

/-!
# Yaml.Settings — documents that hold settings

- `Yaml.Scalar` : a scalar as settings give it
- `Yaml.Content` : what a text holds, a scalar or the keys and values of a mapping
- `Yaml.content?` : reads a text of at most one document

Scalars without a text may be left out wherever something else shows that they are meant. An alias
stands for the scalar that has its anchor, once the whole document is read.
-/

set_option autoImplicit false

namespace GraphQuery

namespace Yaml

structure Scalar where
  text : String
  style : ScalarStyle
  tag : Option String
  deriving DecidableEq, Repr

inductive Content where
  | scalar (content : Scalar)
  | mapping (entries : List (Scalar × Scalar))
  deriving DecidableEq, Repr

/-- A scalar that is not written. -/
def Scalar.empty : Scalar := ⟨"", .plain, none⟩

/-- A key or value as it is written: a scalar, or an alias by the number of its anchor. -/
inductive Node where
  | scalar (content : Scalar)
  | reference (number : Nat)
  deriving DecidableEq, Repr

/-- What is known while a document is read: the handles of tags, and what has anchors, which is a
scalar or else the mapping. -/
structure Context where
  handles : List (String × String)
  anchors : Anchors (Option Scalar)

/-! ## Nodes -/

structure Properties where
  anchor : Option String
  tag : Option Tag

def Properties.isEmpty (props : Properties) : Bool :=
  props.anchor.isNone && props.tag.isNone

/-- The anchor and the tag in front of a node, in either order. -/
def properties : List Token → Properties × List Token
  | .anchor a :: .tag t :: rest => (⟨some a, some t⟩, rest)
  | .tag t :: .anchor a :: rest => (⟨some a, some t⟩, rest)
  | .anchor a :: rest => (⟨some a, none⟩, rest)
  | .tag t :: rest => (⟨none, some t⟩, rest)
  | tokens => (⟨none, none⟩, tokens)

/-- The full text of a tag, if there is one. Its handle has to be known. -/
def Context.tagText? (context : Context) (tag : Option Tag) : Option (Option String) :=
  match tag with
  | none => some none
  | some tag => (tag.resolve? context.handles).map some

/-- Remembers what has an anchor, if it has one. -/
def Context.remember (context : Context) (props : Properties) (content : Option Scalar) :
    Context :=
  match props.anchor with
  | none => context
  | some name => { context with anchors := context.anchors.mark name content }

/-- The scalar that a node gives at the end of the document. An alias of the mapping gives none. -/
def Context.scalarOf? (context : Context) : Node → Option Scalar
  | .scalar content => some content
  | .reference number => (context.anchors.find? number).join

/-- A key or value, and what follows. Only properties can stand for a scalar that is not written. -/
def node? (context : Context) (tokens : List Token) :
    Option (Node × Context × List Token) := do
  match tokens with
  | .alias name :: rest => return (.reference (← context.anchors.number? name), context, rest)
  | _ =>
      let (props, rest) := properties tokens
      let tag ← context.tagText? props.tag
      match rest with
      | .scalar style text :: rest =>
          let content : Scalar := ⟨text, style, tag⟩
          return (.scalar content, context.remember props content, rest)
      | .mappingStart :: _ | .braceStart :: _ => none
      | _ =>
          if props.isEmpty then none
          else
            let content : Scalar := ⟨"", .plain, tag⟩
            return (.scalar content, context.remember props content, rest)

/-- A key or value that is not written if one of certain tokens comes next. -/
def optionalNode? (context : Context) (ends : List Token) (tokens : List Token) :
    Option (Node × Context × List Token) :=
  match tokens with
  | token :: _ =>
      if token ∈ ends then some (.scalar .empty, context, tokens) else node? context tokens
  | [] => none

/-- The value behind a key, if a colon shows that there is one. -/
def valueOf? (context : Context) (ends : List Token) (tokens : List Token) :
    Option (Node × Context × List Token) :=
  match tokens with
  | .value :: rest => optionalNode? context ends rest
  | _ => some (.scalar .empty, context, tokens)

/-! ## Mappings -/

/-- The entries of a mapping without braces, read with one unit of fuel per entry. -/
def blockEntries? : Nat → Context → List Token →
    Option (List (Node × Node) × Context × List Token)
  | 0, _, _ => none
  | _ + 1, context, .mappingEnd :: rest => some ([], context, rest)
  | fuel + 1, context, .key :: rest => do
      let ends := [Token.key, .value, .mappingEnd]
      let (name, context, rest) ← optionalNode? context ends rest
      let (value, context, rest) ← valueOf? context ends rest
      let (entries, context, rest) ← blockEntries? fuel context rest
      return ((name, value) :: entries, context, rest)
  | _ + 1, _, _ => none

/-- One entry between braces. A node without a mark in front is a key without a value. -/
def braceEntry? (context : Context) (tokens : List Token) :
    Option ((Node × Node) × Context × List Token) := do
  match tokens with
  | .key :: rest =>
      let (name, context, rest) ← optionalNode? context [.value, .entry, .braceEnd] rest
      let (value, context, rest) ← valueOf? context [.entry, .braceEnd] rest
      return ((name, value), context, rest)
  | _ =>
      let (name, context, rest) ← node? context tokens
      return ((name, .scalar .empty), context, rest)

/-- The entries between braces behind the first one, read with one unit of fuel per entry. A comma
may stand behind the last one. -/
def braceEntries? : Nat → Context → List Token →
    Option (List (Node × Node) × Context × List Token)
  | 0, _, _ => none
  | _ + 1, context, .braceEnd :: rest => some ([], context, rest)
  | _ + 1, context, .entry :: .braceEnd :: rest => some ([], context, rest)
  | fuel + 1, context, .entry :: rest => do
      let (first, context, rest) ← braceEntry? context rest
      let (entries, context, rest) ← braceEntries? fuel context rest
      return (first :: entries, context, rest)
  | _ + 1, _, _ => none

def braces? (context : Context) (tokens : List Token) :
    Option (List (Node × Node) × Context × List Token) :=
  match tokens with
  | .braceEnd :: rest => some ([], context, rest)
  | _ => do
      let (first, context, rest) ← braceEntry? context tokens
      let (entries, context, rest) ← braceEntries? tokens.length context rest
      return (first :: entries, context, rest)

/-! ## Documents -/

/-- The mapping that entries give at the end of the document. -/
def Context.mappingOf? (context : Context) (entries : List (Node × Node)) : Option Content := do
  let scalars ← entries.mapM fun (name, value) => do
    return (← context.scalarOf? name, ← context.scalarOf? value)
  return .mapping scalars

/-- The content of a document. -/
def root? (context : Context) (tokens : List Token) : Option (Content × List Token) := do
  let (props, rest) := properties tokens
  match rest with
  | .mappingStart :: rest => do
      let _ ← context.tagText? props.tag
      let (entries, context, rest) ← blockEntries? rest.length (context.remember props none) rest
      return (← context.mappingOf? entries, rest)
  | .braceStart :: rest => do
      let _ ← context.tagText? props.tag
      let (entries, context, rest) ← braces? (context.remember props none) rest
      return (← context.mappingOf? entries, rest)
  | _ => do
      let (node, context, rest) ← node? context tokens
      return (.scalar (← context.scalarOf? node), rest)

/-- Whether a document without content ends here. -/
def endsDocument : List Token → Bool
  | [] => true
  | .directive _ :: _ | .documentStart :: _ | .documentEnd :: _ => true
  | _ => false

def directives : List Token → List Directive × List Token
  | .directive d :: rest =>
      let (ds, rest) := directives rest
      (d :: ds, rest)
  | tokens => ([], tokens)

/-- The content of the one document. Directives have to be followed by the mark that starts a
document, and behind its content only marks that end it may stand. -/
def document? (tokens : List Token) : Option Content := do
  let (ds, rest) := directives tokens
  if !compatible ds then none
  let context : Context := ⟨handlesOf ds, .empty⟩
  let (content, rest) ← match rest with
    | .documentStart :: rest =>
        if endsDocument rest then some (Content.scalar .empty, rest) else root? context rest
    | _ => if ds.isEmpty then root? context rest else none
  if rest.all (· == .documentEnd) then return content else none

/-- What a text holds. A text without a document holds a scalar that is not written. -/
def content? (text : String) : Option Content := do
  match ← tokens? text with
  | [] => return .scalar .empty
  | tokens => document? tokens

end Yaml

end GraphQuery
