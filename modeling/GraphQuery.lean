import GraphQuery.ArgumentSource
import GraphQuery.Character
import GraphQuery.CodeUnit
import GraphQuery.Compiler
import GraphQuery.Configuration
import GraphQuery.Configuration.Reader
import GraphQuery.Context
import GraphQuery.Decimal.Binary64
import GraphQuery.Decimal.Layout
import GraphQuery.Decimal.Shortest
import GraphQuery.Document.Basic
import GraphQuery.Document.Binding
import GraphQuery.Document.Outline
import GraphQuery.Entity.Cache
import GraphQuery.Entity.Error
import GraphQuery.Entity.Heap
import GraphQuery.Entity.Materializer
import GraphQuery.Entity.Store
import GraphQuery.Entity.Value
import GraphQuery.Expression
import GraphQuery.Expression.Evaluation
import GraphQuery.Hexadecimal
import GraphQuery.Json.Basic
import GraphQuery.Json.Parser
import GraphQuery.Json.Printer
import GraphQuery.Keyed
import GraphQuery.Name
import GraphQuery.Naming
import GraphQuery.Schema.Basic
import GraphQuery.Schema.Declaration
import GraphQuery.Schema.Error
import GraphQuery.Schema.Introspection
import GraphQuery.Schema.IntrospectionQuery
import GraphQuery.Schema.Notation
import GraphQuery.Schema.Type
import GraphQuery.Sdl.Document
import GraphQuery.Sdl.Parser
import GraphQuery.Sdl.Token
import GraphQuery.Selection.Basic
import GraphQuery.Selection.Error
import GraphQuery.Selection.Focused
import GraphQuery.Selection.Fragments
import GraphQuery.Selection.Normal
import GraphQuery.Selection.OfExpression
import GraphQuery.Selection.Pruned
import GraphQuery.Yaml.Anchor
import GraphQuery.Yaml.Scalar
import GraphQuery.Yaml.Settings
import GraphQuery.Yaml.Tag
import GraphQuery.Yaml.Text
import GraphQuery.Yaml.Token
import GraphQuery.Proofs.Keyed
import GraphQuery.Proofs.Outcome
import GraphQuery.Proofs.Schema.Consistency
import GraphQuery.Proofs.Schema.References
import GraphQuery.Proofs.Schema.PossibleTypes
import GraphQuery.Proofs.Schema.Resolution
import GraphQuery.Proofs.Selection.Passes
import GraphQuery.Proofs.Selection.Typing
import GraphQuery.Proofs.Selection.Derivation
import GraphQuery.Proofs.Selection.Placement
import GraphQuery.Proofs.Selection.Scoping
import GraphQuery.Proofs.Compiler
import GraphQuery.Proofs.Selection.Paths
import GraphQuery.Proofs.Selection.Labels
import GraphQuery.Proofs.Selection.Spreads
import GraphQuery.Proofs.Selection.Distinct
import GraphQuery.Proofs.Selection.Coverage
import GraphQuery.Proofs.Selection.Conflicts
import GraphQuery.Proofs.Selection.Rejection
import GraphQuery.Proofs.Document.Binding
import GraphQuery.Proofs.Document.Uses
import GraphQuery.Proofs.Variables
import GraphQuery.Proofs.Conflicts
import GraphQuery.Proofs.Entity.Runs
import GraphQuery.Proofs.Entity.Steps
import GraphQuery.Proofs.Entity.Trace
import GraphQuery.Proofs.Entity.Identity
import GraphQuery.Proofs.Entity.Typing
import GraphQuery.Proofs.Entity.Registration
import GraphQuery.Proofs.Exchange
import GraphQuery.Proofs.Discriminators
import GraphQuery.Proofs.Selection.Nesting
import GraphQuery.Proofs.Nesting
import GraphQuery.Proofs.Selection.Extraction
import GraphQuery.Proofs.Selection.Similar
import GraphQuery.Proofs.Selection.Reordering
import GraphQuery.Proofs.Reordering
import GraphQuery.Proofs.Selection.Repetition
import GraphQuery.Proofs.Repetition
import GraphQuery.Proofs.Entity.Reading
import GraphQuery.Proofs.Entity.Population
import GraphQuery.Proofs.Entity.Sharing
import GraphQuery.Proofs.Selection.Reachability
import GraphQuery.Proofs.Reachability
import GraphQuery.Proofs.Members
import GraphQuery.Proofs.Schema.Rebuilding
import GraphQuery.Proofs.Schema.Introspection
import GraphQuery.Proofs.Document.Outline
import GraphQuery.Proofs.Document.Text
import GraphQuery.Proofs.Selection.Positions
import GraphQuery.Proofs.Selection.Filtering
import GraphQuery.Proofs.Filtering
import GraphQuery.Proofs.Selection.NormalForm
import GraphQuery.Proofs.NormalForm
import GraphQuery.Proofs.Selection.Defaults
import GraphQuery.Proofs.Defaults
import GraphQuery.Proofs.Entity.Keys
import GraphQuery.Proofs.Entity.Replay
import GraphQuery.Proofs.Projection
import GraphQuery.Proofs.Casts
import GraphQuery.Proofs.Renaming
import GraphQuery.Proofs.Selection.Places
import GraphQuery.Proofs.Selection.Survival
import GraphQuery.Proofs.Document.Printing
import GraphQuery.Proofs.Arguments
import GraphQuery.Proofs.Entity.Limits
import GraphQuery.Proofs.Selection.Limits
import GraphQuery.Proofs.Limits
import GraphQuery.Proofs.EntryPoint
import GraphQuery.Proofs.Heads
