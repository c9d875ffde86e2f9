import GraphQuery.Configuration
import GraphQuery.Expression
import GraphQuery.Selection.Focused

/-!
# Selection.OfExpression — the tree that an expression selects

- `Scope` : what the element of a selector is, and what is handed down to a step
- `Schema.expansion` : the selections that a type brings along
- `Compiler.entryField` : the query field that a root is fetched through
- `Compiler.select` : the tree of an expression
-/

set_option autoImplicit false

namespace GraphQuery

/-- What expressions are compiled against. -/
structure Compiler where
  schema : Schema
  naming : Naming
  configuration : Configuration

/-- What `current` stands for. -/
inductive Current where
  /-- Nothing: the expression is no selector. -/
  | unbound
  /-- An element of a type that the enclosing expression selects. -/
  | element (owner : TypeRef)
  /-- The fragment that is being defined. -/
  | fragment (name : String) (type : GraphType)

structure Scope where
  current : Current
  /-- Whether leaf fields are selected by default. -/
  defaultScalars : Bool
  /-- The arguments for the field selected last. -/
  arguments : Option ArgumentSource
  depth : Nat

namespace Scope

def nested (scope : Scope) : Scope := { scope with depth := scope.depth + 1 }

/-- The scope of what comes before a member: no leaf fields and no arguments for it. -/
def inner (scope : Scope) : Scope :=
  { scope with depth := scope.depth + 1, defaultScalars := false, arguments := none }

/-- The type of the element, for an expression that is the element of a selector itself. -/
def elementOwner? (scope : Scope) : Expression → Option TypeRef
  | .current =>
      match scope.current with
      | .element owner => some owner
      | _ => none
  | _ => none

end Scope

/-! ## Expansion -/

namespace Schema

/-- The leaf fields of a type that take no arguments. -/
def leafFields (s : Schema) (type : TypeRef) : List Selection :=
  ((s.fields? type).getD []).filterMap fun field =>
    if field.type.isLeaf && field.arguments.isEmpty then
      some (.node (.field field.name field.type [] none) [])
    else none

/-- The interfaces that at least two possible types of an abstract type share, in the order they
are met. -/
def sharedInterfaces (s : Schema) (type : TypeRef) : List TypeRef :=
  let met := (s.possibleTypes type).flatMap fun object =>
    (s.interfaces object).filter fun interface => interface ≠ type
  (Keyed.distinct met).filter fun interface => 2 ≤ met.count interface

/-- A subtype with its leaf fields where these are selected by default. -/
def subtypeNode (s : Schema) (defaultScalars : Bool) (kind : TypeKind) (type : TypeRef) :
    Selection :=
  .node (.subtype (.named kind type)) (if defaultScalars then s.leafFields type else [])

/-- What a selection of a type starts with: its leaf fields and, for an abstract type, the
discriminator, a subtype per possible type and one per interface that these share. -/
def expansion (s : Schema) (type : GraphType) (defaultScalars : Bool) : List Selection :=
  let ref := type.typeRef
  let leaves := if defaultScalars then s.leafFields ref else []
  if type.isAbstract then
    leaves ++ .node (.typename type.terminal) [] ::
      ((s.possibleTypes ref).map (s.subtypeNode defaultScalars .object) ++
        (s.sharedInterfaces ref).map (s.subtypeNode defaultScalars .interface))
  else leaves

end Schema

namespace Compiler

/-! ## Names -/

def resolveType (c : Compiler) (domainType : String) : Except CompileError GraphType :=
  let typeName := c.naming.typeName domainType
  match c.schema.graphType? typeName with
  | some type => .ok type
  | none => .error (.unknownType domainType typeName)

def resolveMember (c : Compiler) (member : Member) (owner : TypeRef) : Except CompileError Field :=
  match c.schema.fields? owner with
  | none => .error (.notAComplexType owner.name)
  | some _ =>
      match c.schema.findField? owner (c.naming.fieldName member) with
      | some field => .ok field
      | none => .error (.unmappedMember member owner.name)

/-! ## Entry points -/

/-- Inserts a name into an ascending list, unless it is there. -/
def insertAscending (name : String) : List String → List String
  | [] => [name]
  | other :: rest =>
      if name < other then name :: other :: rest
      else if name = other then other :: rest
      else other :: insertAscending name rest

/-- The names of a list in ascending order, each once. -/
def ascending (names : List String) : List String :=
  names.foldl (fun found name => insertAscending name found) []

/-- Whether a field takes exactly the given arguments, or none where there is no filter. -/
def takesExactly (provided : Option (List String)) (field : Field) : Bool :=
  match provided with
  | none => field.arguments.isEmpty
  | some names =>
      field.arguments.length == names.length &&
        field.arguments.all fun argument => decide (argument.name ∈ names)

/-- The query field that returns the type: the one that is named, or else the only one that takes
exactly the arguments of the filter. -/
def entryField (c : Compiler) (type : GraphType) (entryPoint : Option String)
    (arguments : Option ArgumentSource) : Except CompileError Field :=
  let target := type.typeRef
  match entryPoint with
  | some name =>
      match c.schema.findField? c.schema.queryType name with
      | some field =>
          if field.type.typeRef = target then .ok field
          else .error (.invalidEntryPoint name target.name)
      | none => .error (.invalidEntryPoint name target.name)
  | none =>
      -- Sources may list a name twice and in any order, so sets are compared.
      let provided := arguments.map fun source => ascending source.fields
      let candidates := ((c.schema.fields? c.schema.queryType).getD []).filter fun field =>
        field.type.typeRef = target && takesExactly provided field
      match candidates with
      | [field] => .ok field
      | [] => .error (.noEntryPoint target.name provided)
      | several => .error (.ambiguousEntryPoint target.name (several.map Field.name))

/-! ## Nodes -/

/-- The node of a field. One that takes arguments needs a source of them. -/
def fieldNode (c : Compiler) (field : Field) (scope : Scope) : Except CompileError Selection := do
  let source ←
    if field.arguments.isEmpty then pure none
    else match scope.arguments with
      | some source => pure (some source)
      | none => throw (.missingArgumentSource field.name)
  let children :=
    if field.type.isComposite then c.schema.expansion field.type scope.defaultScalars else []
  return .node (.field field.name field.type field.arguments source) children

/-- Whether values of the parent can be narrowed to the target: the parent is abstract, and the
target is abstract too or one of its possible types. -/
def castable (c : Compiler) (parent target : GraphType) : Bool :=
  parent.isAbstract &&
    (target.isAbstract || c.schema.isPossibleType parent.typeRef target.typeRef)

/-- Whether a fragment on a type can be applied where another type is selected. -/
def applicable (c : Compiler) (head type : TypeRef) : Bool :=
  head == type || c.schema.isPossibleType head type || c.schema.isPossibleType type head

/-! ## Expressions -/

/-- The tree of an expression and its head. Every step takes its source one level deeper. -/
def select (c : Compiler) : Expression → Scope → Except CompileError Focused
  | e, scope =>
      if c.configuration.recursionLimit < scope.depth then
        .error (.recursionLimitExceeded c.configuration.recursionLimit)
      else
        match e with
        | .root domainType entryPoint => do
            let type ← c.resolveType domainType
            let field ← c.entryField type entryPoint scope.arguments
            return .ofRoot (← c.fieldNode field scope)
        | .current =>
            match scope.current with
            | .fragment name type =>
                .ok (.ofRoot (.node (.fragment name type)
                  (c.schema.expansion type c.configuration.defaultScalars)))
            | _ => .error .emptySelector
        | .member target member =>
            -- A member of the element itself starts a tree; any other is put below its source.
            match scope.elementOwner? target with
            | some owner => do
                let field ← c.resolveMember member owner
                return .ofRoot (← c.fieldNode field scope)
            | none => do
                let source ← select c target scope.inner
                let field ← c.resolveMember member source.owner
                return source.attach (.ofRoot (← c.fieldNode field scope)) true
        | .project source selector => do
            -- The filter that waits is for what the selector resolves, not for its source.
            let source ← select c source scope.inner
            let selected ← select c selector
              { scope.nested with current := .element source.owner }
            return source.attach selected true
        | .projectMany source selector => do
            let source ← select c source scope.inner
            let selected ← select c selector
              { scope.nested with current := .element source.owner }
            return source.attach selected true
        | .filter source arguments =>
            select c source { scope.nested with arguments := some arguments }
        | .including source selector => do
            let source ← select c source scope.nested
            -- What is included gets the configured default scalars, and no filter from outside.
            let selected ← select c selector {
              current := .element source.owner
              defaultScalars := c.configuration.defaultScalars
              arguments := none
              depth := scope.depth + 1 }
            return source.attach selected false
        | .cast source domainType => do
            let source ← select c source scope.nested
            let parent := source.head.label.type.terminal
            let target ← c.resolveType domainType
            if c.castable parent target then
              let node := .node (.subtype target) (c.schema.expansion target scope.defaultScalars)
              return source.attach (.ofRoot node) true
            else throw (.notAPossibleType target.name parent.name)
        | .withFragment source name domainType selection => do
            let source ← select c source scope.nested
            let type ← c.resolveType domainType
            if !type.isComposite then throw (.notAComplexType type.name)
            if !c.applicable source.owner type.typeRef then
              throw (.notAPossibleType type.name source.owner.name)
            let definition ← select c selection {
              current := .fragment name type
              defaultScalars := c.configuration.defaultScalars
              arguments := none
              depth := scope.depth + 1 }
            -- A selection that does not start at the element of the fragment is no definition.
            match definition.root.label with
            | .fragment _ _ => return source.attach (.ofRoot definition.root) false
            | _ => throw .emptySelector

/-- The tree of a whole query. -/
def tree (c : Compiler) (e : Expression) : Except CompileError Selection := do
  let selected ← c.select e {
    current := .unbound
    defaultScalars := c.configuration.defaultScalars
    arguments := none
    depth := 0 }
  return selected.root

end Compiler

end GraphQuery
