import GraphQuery.Document.Basic
import GraphQuery.Selection.Pruned

/-!
# Document.Binding — arguments become variables

A variable stands for one argument name of one source. Variables are numbered in the order in
which the document first uses them, so binding visits the nodes in the order of printing: fields
first, then spreads, then subtypes, each group in tree order.

- `Variable` : a variable with its type and value
- `Binder` : computations that declare variables
- `bindArgument` : the variable of an argument, declared at its first use
- `Pruned.bind` : the document of a pruned tree, and its variables
-/

set_option autoImplicit false

namespace GraphQuery

structure Variable where
  name : String
  type : GraphType
  value : Json
  /-- The identity of the source that the value was read from. -/
  source : Nat
  /-- The argument that the value was read for. -/
  argument : String

/-- The variables declared so far are the state. -/
abbrev Binder := StateT (List Variable) (Except CompileError)

/-- Whether the variable stands for an argument of a source. -/
def Variable.standsFor (v : Variable) (source : ArgumentSource) (argument : String) : Bool :=
  v.source == source.identity && v.argument == argument

/-- The name of the variable for an argument. At its first use the variable is declared with the
type of the argument; the value comes from the source. -/
def bindArgument (start : String) (source : ArgumentSource) (argument : Argument) :
    Binder String := do
  let declared ← get
  match declared.find? fun v => v.standsFor source argument.name with
  | some v => return v.name
  | none =>
      match source.value argument.name with
      | none => throw (.bind (.noSuchArgument argument.name))
      | some value =>
          -- Variables are counted in the order of their first uses.
          let name := start ++ toString declared.length
          set (declared ++ [{
            name, type := argument.type, value, source := source.identity,
            argument := argument.name }])
          return name

/-- The printed arguments of a field. -/
def bindArguments (start : String) (field : String) (source : Option ArgumentSource)
    (arguments : List Argument) : Binder (List (String × String)) :=
  if arguments.isEmpty then return []
  else
    match source with
    | none => throw (.missingArgumentSource field)
    | some source =>
        arguments.mapM fun argument => do
          return (argument.name, ← bindArgument start source argument)

/-- The groups that children are printed in. -/
inductive PrintGroup where
  | fields
  | spreads
  | subtypes
  deriving DecidableEq, Repr

/-- Definitions of fragments are not printed where they stand. -/
def Label.printGroup? : Label → Option PrintGroup
  | .field _ _ _ _ | .typename _ => some .fields
  | .spread _ _ => some .spreads
  | .subtype _ => some .subtypes
  | .fragment _ _ => none

namespace Selection

/-- What is printed of the three groups, one after the other. How a group is bound is an argument:
all three go over the same children, and the recursion below is on the nodes. -/
def inGroups (group : PrintGroup → Binder (List DocumentNode)) : Binder (List DocumentNode) := do
  let fields ← group .fields
  let spreads ← group .spreads
  let subtypes ← group .subtypes
  return fields ++ spreads ++ subtypes

mutual

/-- What is printed of a node. Its own arguments are bound before those below it. -/
def bind (start : String) : Selection → Binder DocumentNode
  | .node (.field name _ arguments source) children => do
      let arguments ← bindArguments start name source arguments
      return .field name arguments (← inGroups fun group => bindGroup start group children)
  | .node (.typename _) children => do
      return .field Name.discriminator [] (← inGroups fun group => bindGroup start group children)
  | .node (.subtype type) children => do
      return .subtype type.name (← inGroups fun group => bindGroup start group children)
  | .node (.spread name _) _ => return .spread name
  | .node (.fragment name _) _ => return .spread name

/-- The children of one group. -/
def bindGroup (start : String) (group : PrintGroup) :
    List Selection → Binder (List DocumentNode)
  | [] => return []
  | child :: rest => do
      if child.label.printGroup? = some group then
        let node ← bind start child
        return node :: (← bindGroup start group rest)
      else bindGroup start group rest

end

/-- What is printed of the children of a node. -/
def bindChildren (start : String) (children : List Selection) : Binder (List DocumentNode) :=
  inGroups fun group => bindGroup start group children

end Selection

/-- What is printed of the definition of a fragment. -/
def FragmentDefinition.bind (start : String) (fragment : FragmentDefinition) :
    Binder FragmentBlock := do
  return {
    name := fragment.name
    typeName := fragment.type.name
    children := ← Selection.bindChildren start fragment.children }

/-- The document of a pruned tree: first the operation is bound, then the fragments in order. -/
def Pruned.bind (start : String) (pruned : Pruned) :
    Except CompileError (Document × List Variable) := do
  let blocks : Binder (DocumentNode × List FragmentBlock) := do
    -- One state for all blocks: a fragment uses the variables of the operation.
    let root ← pruned.root.bind start
    return (root, ← pruned.fragments.mapM (FragmentDefinition.bind start))
  let ((root, fragments), bound) ← blocks.run []
  let declared := bound.map fun v => (v.name, v.type.expr)
  return ({ declared, root, fragments }, bound)

end GraphQuery
