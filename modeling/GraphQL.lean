import GraphQL.Coercion.Arguments
import GraphQL.Coercion.Input
import GraphQL.Coercion.Leaf
import GraphQL.Coercion.Literal
import GraphQL.Coercion.LiteralFaults
import GraphQL.Coercion.ToLiteral
import GraphQL.Coercion.Untyped
import GraphQL.Coercion.Variables
import GraphQL.Document.Basic
import GraphQL.Document.DirectiveLocation
import GraphQL.Document.Height
import GraphQL.Document.Node
import GraphQL.Document.Numbers
import GraphQL.Document.Parser
import GraphQL.Document.Printer
import GraphQL.Document.SyntaxError
import GraphQL.Execution.Basic
import GraphQL.Execution.Fault
import GraphQL.Execution.Field
import GraphQL.Execution.Group
import GraphQL.Execution.Grouping
import GraphQL.Execution.Job
import GraphQL.Execution.Run
import GraphQL.Execution.RuntimeType
import GraphQL.Json.Basic
import GraphQL.Json.Number
import GraphQL.Json.Printer
import GraphQL.Json.Reader
import GraphQL.Number.Binary64
import GraphQL.Number.Decimal
import GraphQL.Number.Notation
import GraphQL.Proofs.Merging.Comparisons
import GraphQL.Proofs.Merging.Known
import GraphQL.Proofs.Merging.Places
import GraphQL.Proofs.Merging.Plans
import GraphQL.Proofs.Merging.Reach
import GraphQL.Proofs.Rows
import GraphQL.Request
import GraphQL.Response.Basic
import GraphQL.Response.Error
import GraphQL.Schema.Basic
import GraphQL.Schema.Build
import GraphQL.Schema.Deferred
import GraphQL.Schema.Description
import GraphQL.Schema.Directives
import GraphQL.Schema.Fault
import GraphQL.Schema.Introspection
import GraphQL.Schema.Resolver
import GraphQL.Schema.Scalars
import GraphQL.Schema.Subtype
import GraphQL.Schema.TypeRef
import GraphQL.Schema.Types
import GraphQL.Text.CaseIgnorable
import GraphQL.Text.Cased
import GraphQL.Text.Characters
import GraphQL.Text.Cursor
import GraphQL.Text.LowerCase
import GraphQL.Text.Position
import GraphQL.Text.Source
import GraphQL.Text.Suggestion
import GraphQL.Token.Basic
import GraphQL.Token.Lexer
import GraphQL.Token.StringValue
import GraphQL.Traversal.Parallel
import GraphQL.Traversal.Visitor
import GraphQL.Typing.Context
import GraphQL.Typing.Visitor
import GraphQL.Validation.Basic
import GraphQL.Validation.Error
import GraphQL.Validation.Merging.Conflicts
import GraphQL.Validation.Merging.Plan
import GraphQL.Validation.Merging.Selected
import GraphQL.Validation.Queries
import GraphQL.Validation.Rule
import GraphQL.Validation.Rules.Arguments
import GraphQL.Validation.Rules.Directives
import GraphQL.Validation.Rules.Fields
import GraphQL.Validation.Rules.Fragments
import GraphQL.Validation.Rules.Operations
import GraphQL.Validation.Rules.Types
import GraphQL.Validation.Rules.Variables
import GraphQL.Proofs.Merging.Ending
import GraphQL.Proofs.Merging.Nesting
import GraphQL.Proofs.Merging.Searched
import GraphQL.Proofs.Merging.Agreement
import GraphQL.Proofs.Traversal.Walk
import GraphQL.Proofs.Validation.Alone
import GraphQL.Proofs.Traversal.Trails
import GraphQL.Proofs.Traversal.Lanes
import GraphQL.Proofs.Traversal.Brackets
import GraphQL.Proofs.Typing.Trails
import GraphQL.Proofs.Typing.Watchers
import GraphQL.Proofs.Validation.Independence
import GraphQL.Proofs.Validation.Quiet
import GraphQL.Proofs.Validation.Valid
import GraphQL.Proofs.Schema.Built
import GraphQL.Proofs.Merging.Admitted
import GraphQL.Proofs.Execution.Grouping
import GraphQL.Proofs.Execution.FieldMaps
import GraphQL.Proofs.Execution.Company
import GraphQL.Proofs.Schema.Calls
import GraphQL.Proofs.Execution.Endings
import GraphQL.Proofs.Execution.Schedules
import GraphQL.Proofs.Execution.Accounts
import GraphQL.Proofs.Execution.Nulls
import GraphQL.Proofs.Execution.Mutations
import GraphQL.Proofs.Coercion.Arguments
import GraphQL.Proofs.Coercion.Definite
import GraphQL.Proofs.Execution.ArgumentValues
import GraphQL.Proofs.Execution.ArgumentErrors
import GraphQL.Proofs.Execution.Typed
import GraphQL.Proofs.Execution.SharedShapes
import GraphQL.Proofs.Token.Spelled
import GraphQL.Proofs.Token.Words
import GraphQL.Proofs.Document.Bare
import GraphQL.Proofs.Document.Grammar
import GraphQL.Proofs.Execution.Gathering
import GraphQL.Proofs.Execution.Shapes
import GraphQL.Proofs.Coercion.Scalars
import GraphQL.Proofs.Document.Readers
import GraphQL.Proofs.Coercion.PlainValues
import GraphQL.Proofs.Coercion.Substitution
import GraphQL.Proofs.Coercion.Restoration
import GraphQL.Proofs.Schema.Guarantees
import GraphQL.Proofs.Validation.Cycles
import GraphQL.Proofs.Typing.Places
import GraphQL.Proofs.Merging.Mergeable
import GraphQL.Proofs.Merging.Reported
import GraphQL.Proofs.Validation.Mergeable
import GraphQL.Proofs.Document.Printing.Executable
import GraphQL.Proofs.Document.Printing.TypeSystem
import GraphQL.Proofs.Document.Reading.Bodies
import GraphQL.Proofs.Document.RoundTrip
import GraphQL.Proofs.Text.Positions
import GraphQL.Proofs.Text.Suggestions
import GraphQL.Proofs.Token.Tiling
import GraphQL.Proofs.Execution.Depth
import GraphQL.Proofs.Introspection.Answers
import GraphQL.Proofs.Coercion.Checked
import GraphQL.Proofs.Execution.Conditions
import GraphQL.Proofs.Document.Acceptance
import GraphQL.Proofs.Schema.Reach
import GraphQL.Proofs.Schema.Possible
import GraphQL.Proofs.Typing.Owners
import GraphQL.Proofs.Coercion.Problems
import GraphQL.Proofs.Schema.Subtypes
import GraphQL.Proofs.Validation.FragmentUses
import GraphQL.Proofs.Traversal.Parts
import GraphQL.Proofs.Validation.Findings
import GraphQL.Proofs.Validation.Spreads
import GraphQL.Proofs.Validation.SpreadGraph
import GraphQL.Proofs.Validation.CycleSearch
import GraphQL.Proofs.Traversal.Heights
import GraphQL.Proofs.Validation.Occurrences
import GraphQL.Proofs.Validation.Unused
import GraphQL.Proofs.Document.Slots
import GraphQL.Proofs.Traversal.Rewriting
import GraphQL.Proofs.Validation.Local
import GraphQL.Proofs.Execution.FullExpansion
import GraphQL.Proofs.Token.Numbers
import GraphQL.Proofs.Document.Printing.Literals
import GraphQL.Proofs.Token.BlockStrings
import GraphQL.Proofs.Document.Reading.Spanning
import GraphQL.Proofs.Document.Spans
import GraphQL.Proofs.Document.Ending
