import ServiceContract.Association
import ServiceContract.CommandLine.Arguments
import ServiceContract.CommandLine.Run
import ServiceContract.Constant.Basic
import ServiceContract.Constant.Scope
import ServiceContract.Decimal.Shortest
import ServiceContract.Document.Codec
import ServiceContract.Document.Endpoint
import ServiceContract.Document.Generate
import ServiceContract.Document.Model
import ServiceContract.Error
import ServiceContract.Http.Method
import ServiceContract.Http.Status
import ServiceContract.Json.Parser
import ServiceContract.Json.Printer
import ServiceContract.Json.Reader
import ServiceContract.Json.Value
import ServiceContract.Main
import ServiceContract.Operator.Basic
import ServiceContract.Operator.Compiler
import ServiceContract.Operator.Fields
import ServiceContract.Operator.Request
import ServiceContract.Operator.Success
import ServiceContract.Program.Attribute
import ServiceContract.Program.Basic
import ServiceContract.Program.Lookup
import ServiceContract.Program.Recording
import ServiceContract.Program.SourceFile
import ServiceContract.Project.Path
import ServiceContract.Project.Scan
import ServiceContract.Project.Tree
import ServiceContract.Proofs.CallGraph.History
import ServiceContract.Proofs.CallGraph.Preorder
import ServiceContract.Proofs.CallGraph.Search
import ServiceContract.Proofs.CallGraph.Walk
import ServiceContract.Proofs.Document.Account
import ServiceContract.Proofs.Document.Contents
import ServiceContract.Proofs.Document.Placement
import ServiceContract.Proofs.Document.References
import ServiceContract.Proofs.Document.Schemas
import ServiceContract.Proofs.Document.Survey
import ServiceContract.Proofs.Operator.Compiles
import ServiceContract.Proofs.Program.Functions
import ServiceContract.Proofs.Program.Lookup
import ServiceContract.Proofs.Schema.Compiles
import ServiceContract.Proofs.Schema.Node
import ServiceContract.Proofs.Schema.References
import ServiceContract.Proofs.Schema.Table
import ServiceContract.Proofs.StatusError.Merge
import ServiceContract.Proofs.Work
import ServiceContract.Response.BodyShape
import ServiceContract.Response.BuilderChain
import ServiceContract.Route.Body
import ServiceContract.Route.Forest
import ServiceContract.Route.OperatorRef
import ServiceContract.Route.Replay
import ServiceContract.Route.Tree
import ServiceContract.Schema.Basic
import ServiceContract.Schema.Codec
import ServiceContract.Schema.Enumeration
import ServiceContract.Schema.Generics
import ServiceContract.Schema.Library
import ServiceContract.Schema.OfType
import ServiceContract.Schema.Table
import ServiceContract.Source.Cursor
import ServiceContract.Source.Grammar.Basic
import ServiceContract.Source.Grammar.Expressions
import ServiceContract.Source.Grammar.Items
import ServiceContract.Source.Grammar.Patterns
import ServiceContract.Source.Grammar.Statements
import ServiceContract.Source.Grammar.Types
import ServiceContract.Source.Lexer
import ServiceContract.Source.Literal
import ServiceContract.Source.Parser
import ServiceContract.Source.Syntax
import ServiceContract.Source.Token
import ServiceContract.Source.TypeExpr
import ServiceContract.Source.Walk
import ServiceContract.StatusError.Basic
import ServiceContract.StatusError.CallGraph
import ServiceContract.StatusError.Catalog
import ServiceContract.StatusError.Formatter
import ServiceContract.Text.Basic
import ServiceContract.Text.Unicode
import ServiceContract.Text.UnicodeData
import ServiceContract.Text.WordCase
import ServiceContract.Work
import ServiceContract.Yaml.Printer
import ServiceContract.Yaml.Resolution
import ServiceContract.Yaml.Scalar
import ServiceContract.Proofs.Schema.Growth
import ServiceContract.Proofs.Schema.Components
import ServiceContract.Proofs.Schema.Asks
import ServiceContract.Proofs.Schema.Replay
import ServiceContract.Proofs.Schema.Failures
import ServiceContract.Proofs.Schema.Keys
import ServiceContract.Proofs.Schema.Rename
import ServiceContract.Proofs.Schema.Order
import ServiceContract.Proofs.Schema.Meaning
import ServiceContract.Proofs.Schema.Arguments
import ServiceContract.Proofs.Route.Body
import ServiceContract.Proofs.Route.OwnScopes
import ServiceContract.Proofs.Route.Forest
import ServiceContract.Proofs.Route.Run
import ServiceContract.Proofs.Route.Sound
import ServiceContract.Proofs.Route.Levels
import ServiceContract.Proofs.Route.Nesting
import ServiceContract.Proofs.Route.Evaluations
import ServiceContract.Proofs.Route.Order
import ServiceContract.Proofs.Route.Answers
import ServiceContract.Proofs.Route.Arguments
import ServiceContract.Proofs.Route.Reading
import ServiceContract.Proofs.Route.Operators
import ServiceContract.Proofs.Operator.Cache
import ServiceContract.Proofs.Document.Errors
import ServiceContract.Proofs.Document.Alone
import ServiceContract.Proofs.Json.Node
import ServiceContract.Proofs.Json.Tokens
import ServiceContract.Proofs.Json.Text
import ServiceContract.Proofs.Json.Record
import ServiceContract.Proofs.Schema.Codec
import ServiceContract.Proofs.Document.Codec
import ServiceContract.Proofs.Document.RoundTrip
import ServiceContract.Proofs.Document.Orderly
import ServiceContract.Proofs.Document.ReadBack
import ServiceContract.Proofs.Operator.Located
import ServiceContract.Proofs.Program.Closest
import ServiceContract.Proofs.Program.Keys
import ServiceContract.Proofs.Constant.Associated
import ServiceContract.Proofs.Route.Statics
import ServiceContract.Proofs.Route.Scoping
import ServiceContract.Proofs.Route.Lexical
import ServiceContract.Proofs.Route.Ends
import ServiceContract.Proofs.StatusError.Buckets
import ServiceContract.Proofs.Document.Chains
import ServiceContract.Proofs.Document.Responses
import ServiceContract.Proofs.Operator.Security
import ServiceContract.Proofs.Document.Security
import ServiceContract.Proofs.Text.Pieces
import ServiceContract.Proofs.Document.Parameters
import ServiceContract.Proofs.Document.Templates
import ServiceContract.Proofs.Schema.Levels
import ServiceContract.Proofs.Schema.Occurrences
import ServiceContract.Proofs.Schema.Termination
import ServiceContract.Proofs.Enumerates
import ServiceContract.Proofs.Source.Positions
import ServiceContract.Proofs.Source.Returned
import ServiceContract.Proofs.Response.BuilderChain
import ServiceContract.Proofs.Operator.Calls
import ServiceContract.Proofs.Operator.Responses
import ServiceContract.Proofs.Schema.Enumeration
import ServiceContract.Proofs.Schema.Inline
import ServiceContract.Proofs.Schema.Enumerated
import ServiceContract.Proofs.Schema.Expansions
import ServiceContract.Proofs.Schema.Labels
import ServiceContract.Proofs.Constant.Listed
import ServiceContract.Proofs.Operator.Traversal
import ServiceContract.Proofs.Operator.Flattening
import ServiceContract.Proofs.Schema.Ranking
import ServiceContract.Proofs.Schema.Places
import ServiceContract.Proofs.Schema.Objects
import ServiceContract.Proofs.Schema.Shapes
import ServiceContract.Proofs.Schema.Inside
import ServiceContract.Proofs.Schema.Filled
import ServiceContract.Proofs.Schema.Tagged
import ServiceContract.Proofs.Schema.Required
import ServiceContract.Proofs.Operator.Forms
import ServiceContract.Proofs.Constant.Folding
import ServiceContract.Proofs.Schema.Contexts
import ServiceContract.Proofs.Schema.MapKeys
import ServiceContract.Proofs.Constant.Typed
import ServiceContract.Proofs.Program.Selection
import ServiceContract.Proofs.Program.Recording
import ServiceContract.Proofs.Program.Addresses
import ServiceContract.Proofs.Schema.Identity
import ServiceContract.Proofs.StatusError.Numbering
import ServiceContract.Proofs.Text.WordCase
