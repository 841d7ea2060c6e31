import Workflow.Command.Invocation
import Workflow.Command.Session
import Workflow.Data.SortedMap
import Workflow.Digest.Sha256
import Workflow.Environment.Basic
import Workflow.Environment.File
import Workflow.Expand.Emit
import Workflow.Expand.Fault
import Workflow.Expand.Names
import Workflow.Job.Basic
import Workflow.Job.Json
import Workflow.Json.Printer
import Workflow.Json.Reader
import Workflow.Json.Record
import Workflow.Json.Scalar
import Workflow.Json.Value
import Workflow.Library.Discover
import Workflow.Library.FileTree
import Workflow.Library.Load
import Workflow.Library.Path
import Workflow.Main
import Workflow.Node.Basic
import Workflow.Node.Builder
import Workflow.Node.Json
import Workflow.Number.Double
import Workflow.Number.Extended
import Workflow.Number.Hexadecimal
import Workflow.Number.Numeral
import Workflow.Number.Shortest
import Workflow.Pattern.Basic
import Workflow.Pattern.Check
import Workflow.Pattern.Reader
import Workflow.Plan.Basic
import Workflow.Plan.Build
import Workflow.Plan.Check
import Workflow.Plan.Outline
import Workflow.Proofs.Assembly.Basic
import Workflow.Proofs.Assembly.Build
import Workflow.Proofs.Assembly.Framed
import Workflow.Proofs.Data.Except
import Workflow.Proofs.Data.SortedMap
import Workflow.Proofs.Expand.Covered
import Workflow.Proofs.Expand.Cycle
import Workflow.Proofs.Expand.Flat
import Workflow.Proofs.Expand.Grown
import Workflow.Proofs.Expand.Inlining
import Workflow.Proofs.Expand.Limited
import Workflow.Proofs.Expand.Passing
import Workflow.Proofs.Expand.Point
import Workflow.Proofs.Expand.Repeated
import Workflow.Proofs.Expand.Scope
import Workflow.Proofs.Expand.Spot
import Workflow.Proofs.Expand.Unknown
import Workflow.Proofs.Expand.Unread
import Workflow.Proofs.Forest.Basic
import Workflow.Proofs.Forest.Elsewhere
import Workflow.Proofs.Forest.Expansion
import Workflow.Proofs.Forest.Links
import Workflow.Proofs.Forest.Position
import Workflow.Proofs.Forest.Rules
import Workflow.Proofs.Forest.Shape
import Workflow.Proofs.Forest.Table
import Workflow.Proofs.Job.Stored
import Workflow.Proofs.Json.Arrangement
import Workflow.Proofs.Library.Load
import Workflow.Proofs.Library.Order
import Workflow.Proofs.Library.Registered
import Workflow.Proofs.Names.Reach
import Workflow.Proofs.Node.Flat
import Workflow.Proofs.Node.Scoping
import Workflow.Proofs.Node.Stored
import Workflow.Proofs.Plan.Accepted
import Workflow.Proofs.Plan.Accepts
import Workflow.Proofs.Plan.Branching
import Workflow.Proofs.Plan.Check
import Workflow.Proofs.Plan.Linked
import Workflow.Proofs.Plan.Listing
import Workflow.Proofs.Plan.Outline
import Workflow.Proofs.Plan.PreOrder
import Workflow.Proofs.Plan.Rank
import Workflow.Proofs.Plan.Subtree
import Workflow.Proofs.Registry.Registrations
import Workflow.Proofs.Review.Expansion
import Workflow.Proofs.Review.Reads
import Workflow.Proofs.Review.Sound
import Workflow.Proofs.Review.Unused
import Workflow.Proofs.Run.Agreement
import Workflow.Proofs.Run.Bounded
import Workflow.Proofs.Run.Calls
import Workflow.Proofs.Run.Completion
import Workflow.Proofs.Run.Counters
import Workflow.Proofs.Run.Effects
import Workflow.Proofs.Run.Flow
import Workflow.Proofs.Run.History
import Workflow.Proofs.Run.Ledger
import Workflow.Proofs.Run.Matching
import Workflow.Proofs.Run.Once
import Workflow.Proofs.Run.Order
import Workflow.Proofs.Run.Outcome
import Workflow.Proofs.Run.Pending
import Workflow.Proofs.Run.Phase
import Workflow.Proofs.Run.Requests
import Workflow.Proofs.Run.Simulation
import Workflow.Proofs.Run.Stage
import Workflow.Proofs.Run.Statuses
import Workflow.Proofs.Run.Total
import Workflow.Proofs.Run.Traversal
import Workflow.Proofs.Run.Waiting
import Workflow.Proofs.Source.Lines
import Workflow.Proofs.Source.Merging
import Workflow.Proofs.Surface.Alike
import Workflow.Proofs.Surface.Derivation
import Workflow.Proofs.Surface.Exact
import Workflow.Proofs.Surface.Found
import Workflow.Proofs.Surface.Joining
import Workflow.Proofs.Surface.Judgement
import Workflow.Proofs.Surface.Juxtaposed
import Workflow.Proofs.Surface.Keeps
import Workflow.Proofs.Surface.Named
import Workflow.Proofs.Surface.Origins
import Workflow.Proofs.Surface.Peg
import Workflow.Proofs.Surface.Phrases
import Workflow.Proofs.Surface.ReadBack
import Workflow.Proofs.Surface.ReadLiterals
import Workflow.Proofs.Surface.ReadPhrases
import Workflow.Proofs.Surface.Realizes
import Workflow.Proofs.Surface.RoundTrip
import Workflow.Proofs.Surface.Seam
import Workflow.Proofs.Surface.Shape
import Workflow.Proofs.Surface.Spans
import Workflow.Proofs.Surface.Standing
import Workflow.Proofs.Surface.Syntax
import Workflow.Proofs.Surface.TokenValues
import Workflow.Proofs.Surface.Tokens
import Workflow.Proofs.Surface.WellFormed
import Workflow.Proofs.Surface.Words
import Workflow.Proofs.Surface.Writing
import Workflow.Proofs.Surface.Written
import Workflow.Reason
import Workflow.Registry
import Workflow.Review.Finding
import Workflow.Review.Rules
import Workflow.Run.Counters
import Workflow.Run.Machine
import Workflow.Run.Script
import Workflow.Settings.Basic
import Workflow.Settings.Filter
import Workflow.Settings.Place
import Workflow.Settings.Setting
import Workflow.Settings.Variables
import Workflow.Source.Lines
import Workflow.Source.Span
import Workflow.Surface.Grammar
import Workflow.Surface.Lexeme
import Workflow.Surface.Reading
import Workflow.Surface.Rule
import Workflow.Surface.Tree
import Workflow.Text.Alphabetic
import Workflow.Text.Alphanumeric
import Workflow.Text.Bytes
import Workflow.Text.Front
import Workflow.Text.OrderMark
import Workflow.Text.Space
import Workflow.Toml.Document
import Workflow.Toml.Key
import Workflow.Toml.Moment
import Workflow.Toml.Number
import Workflow.Toml.Printer
import Workflow.Toml.Quoted
import Workflow.Toml.Reader
import Workflow.Toml.Tree
import Workflow.Toml.Value
