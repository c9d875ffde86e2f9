import GraphQuery.Document.Binding
import GraphQuery.Selection.OfExpression

/-!
# Compiler — from expressions to query documents

- `CompiledQuery` : a document with its variables, and the field that holds the result
- `Compiler.compile` : the query of an expression
-/

set_option autoImplicit false

namespace GraphQuery

structure CompiledQuery where
  content : Document
  /-- The variables in the order of their declaration. -/
  declared : List Variable
  /-- The query field that holds the result. -/
  entryPoint : String
  entryType : GraphType

namespace CompiledQuery

def document (query : CompiledQuery) : String := query.content.text

/-- Values by variable name, as they are sent along with the document. -/
def variableValues (query : CompiledQuery) : List (String × Json) :=
  query.declared.map fun v => (v.name, v.value)

end CompiledQuery

/-- The query of an expression. Its tree has to start at a field. -/
def Compiler.compile (c : Compiler) (e : Expression) : Except CompileError CompiledQuery := do
  let tree ← c.tree e
  match tree.label with
  | .field name type _ _ => do
      let pruned ← tree.prune c.configuration.recursionLimit
      let (content, declared) ← pruned.bind c.configuration.variablePrefix
      return { content, declared, entryPoint := name, entryType := type }
  | _ => throw .emptySelector

end GraphQuery
