import GraphQuery.Compiler
import GraphQuery.Entity.Materializer
import GraphQuery.Expression.Evaluation
import GraphQuery.Schema.Introspection
import GraphQuery.Schema.IntrospectionQuery

/-!
# Context — running queries against an endpoint

- `Request` : a document and the values of its variables
- `QueryError` : why a query has no value
- `QueryContext` : a compiler and a materializer for one endpoint
- `QueryContext.execute` : compiles, sends, materializes and evaluates an expression

How a request is sent is a parameter: a computation that gives the data of the response, or the
text of a failure.
-/

set_option autoImplicit false

namespace GraphQuery

structure Request where
  document : String
  /-- By the names of the variables. -/
  values : List (String × Json)

inductive QueryError where
  | schema (cause : SchemaError)
  | compile (cause : CompileError)
  | materialize (cause : MaterializeError)
  | transport (text : String)
  | missingEntryPoint (name : String)

def QueryError.message : QueryError → String
  | .schema cause => cause.message
  | .compile cause => cause.message
  | .materialize cause => cause.message
  | .transport text => "transport failed: " ++ text
  | .missingEntryPoint name => "response has no data for entry point '" ++ name ++ "'"

structure QueryContext where
  compiler : Compiler
  materializer : Materializer

namespace QueryContext

/-- A context with standard options in which domain names are names of the schema. -/
def ofSchema (schema : Schema) : QueryContext where
  compiler := { schema, naming := Naming.identity, configuration := Configuration.standard }
  materializer := Materializer.ofSchema schema Configuration.standard

def withNaming (context : QueryContext) (naming : Naming) : QueryContext :=
  { context with compiler := { context.compiler with naming } }

def withConfiguration (context : QueryContext) (configuration : Configuration) : QueryContext where
  compiler := { context.compiler with configuration }
  materializer := { context.materializer with configuration }

/-- Builds entities of an object type where a response leaves the type open. -/
def constructWith (context : QueryContext) (abstractName concreteName : String) :
    Except MaterializeError QueryContext := do
  let materializer ← context.materializer.constructWith abstractName concreteName
  return { context with materializer }

def compile (context : QueryContext) (e : Expression) : Except CompileError CompiledQuery :=
  context.compiler.compile e

/-! ## Requests -/

variable {M : Type → Type} [Monad M]

def send (transport : Request → M (Except String Json)) (request : Request) :
    ExceptT QueryError M Json := do
  match ← transport request with
  | .ok data => return data
  | .error text => throw (.transport text)

/-- A context with the schema that the endpoint reports. -/
def ofIntrospection (transport : Request → M (Except String Json)) :
    ExceptT QueryError M QueryContext := do
  let data ← send transport { document := Schema.introspectionQuery, values := [] }
  match Schema.ofIntrospection data with
  | .ok schema => return ofSchema schema
  | .error cause => throw (.schema cause)

def request (query : CompiledQuery) : Request :=
  { document := query.document, values := query.variableValues }

/-- The part of a response that holds the result of a query. -/
def result (query : CompiledQuery) (data : Json) : Except QueryError Json :=
  match data.member? query.entryPoint with
  | some json => .ok json
  | none => .error (.missingEntryPoint query.entryPoint)

/-- The value of an expression in the heap of a store, given the value of its root. -/
def evaluate (context : QueryContext) (store : Store) (e : Expression) (root : Value) : Value :=
  Evaluation.value
    { heap := store.heap, schema := context.compiler.schema, naming := context.compiler.naming }
    root e

/-- The value of an expression. What is materialized stays in the store, also when the rest of
the response fails to materialize. -/
def execute (context : QueryContext) (transport : Request → M (Except String Json))
    (e : Expression) : ExceptT QueryError (StateT Store M) Value := do
  match context.compile e with
  | .error cause => throw (.compile cause)
  | .ok query => do
      -- Nothing is sent for an expression that does not compile.
      let data ← send (fun r => StateT.lift (transport r)) (request query)
      let json ← ExceptT.mk (pure (result query data))
      let (outcome, store) :=
        (context.materializer.materialize json query.entryType).run.run (← get)
      -- A failure does not take back what was registered before it.
      set store
      match outcome with
      | .error cause => throw (.materialize cause)
      | .ok root => return context.evaluate store e root

end QueryContext

end GraphQuery
