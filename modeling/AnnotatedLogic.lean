import AnnotatedLogic.CommandLine.Help
import AnnotatedLogic.CommandLine.Listing
import AnnotatedLogic.CommandLine.Options
import AnnotatedLogic.CommandLine.Request
import AnnotatedLogic.CommandLine.Session
import AnnotatedLogic.Component
import AnnotatedLogic.Config
import AnnotatedLogic.Decimal.Layout
import AnnotatedLogic.Decimal.Reading
import AnnotatedLogic.Decimal.Shortest
import AnnotatedLogic.Degree
import AnnotatedLogic.Document.Basic
import AnnotatedLogic.Document.Json.Number
import AnnotatedLogic.Document.Json.Parser
import AnnotatedLogic.Document.Json.Printer
import AnnotatedLogic.Document.Json.Token
import AnnotatedLogic.Document.Reading
import AnnotatedLogic.Document.Toml.Parser
import AnnotatedLogic.Document.Toml.Scalar
import AnnotatedLogic.Document.Toml.Table
import AnnotatedLogic.Document.Toml.Text
import AnnotatedLogic.Error
import AnnotatedLogic.Exchange.Basic
import AnnotatedLogic.Exchange.Config
import AnnotatedLogic.Exchange.Program
import AnnotatedLogic.Exchange.Rule
import AnnotatedLogic.Fact
import AnnotatedLogic.Graph
import AnnotatedLogic.Graph.Index
import AnnotatedLogic.Grounding
import AnnotatedLogic.Interpretation.Assertion
import AnnotatedLogic.Interpretation.Basic
import AnnotatedLogic.Interpretation.Change
import AnnotatedLogic.Interpretation.PredicateMap
import AnnotatedLogic.Interval
import AnnotatedLogic.Label
import AnnotatedLogic.Main
import AnnotatedLogic.Pairing
import AnnotatedLogic.Program
import AnnotatedLogic.Reasoner.Basic
import AnnotatedLogic.Reasoner.Effect
import AnnotatedLogic.Reasoner.Progress
import AnnotatedLogic.Reasoner.Run
import AnnotatedLogic.Reasoner.Timestep
import AnnotatedLogic.Rows
import AnnotatedLogic.Rule.Annotation
import AnnotatedLogic.Rule.Basic
import AnnotatedLogic.Rule.Threshold
import AnnotatedLogic.Table
import AnnotatedLogic.Text.Blank
import AnnotatedLogic.Text.Fields
import AnnotatedLogic.Trace
import AnnotatedLogic.Until
import AnnotatedLogic.World
import AnnotatedLogic.Proofs.Degree.Order
import AnnotatedLogic.Proofs.Interval
import AnnotatedLogic.Proofs.Gathering
import AnnotatedLogic.Proofs.Timestep
import AnnotatedLogic.Proofs.Calls
import AnnotatedLogic.Proofs.Plan
import AnnotatedLogic.Proofs.Execution
import AnnotatedLogic.Proofs.Horizon
import AnnotatedLogic.Proofs.Interpretation
import AnnotatedLogic.Proofs.Bounds
import AnnotatedLogic.Proofs.AuditLog
import AnnotatedLogic.Proofs.Reading
import AnnotatedLogic.Proofs.Freezing
import AnnotatedLogic.Proofs.Rest
import AnnotatedLogic.Proofs.Quiet
import AnnotatedLogic.Proofs.FixedPoint
import AnnotatedLogic.Proofs.Sound
import AnnotatedLogic.Proofs.Policy
import AnnotatedLogic.Proofs.Queue
import AnnotatedLogic.Proofs.Halting
import AnnotatedLogic.Proofs.EarlyEnd
import AnnotatedLogic.Proofs.Underway
import AnnotatedLogic.Proofs.Places
import AnnotatedLogic.Proofs.Answers
import AnnotatedLogic.Proofs.Degree.Rounding
import AnnotatedLogic.Proofs.Degree.Complement
import AnnotatedLogic.Proofs.Lattice
import AnnotatedLogic.Proofs.Listing
import AnnotatedLogic.Proofs.Books
import AnnotatedLogic.Proofs.Static
import AnnotatedLogic.Proofs.Exchange
import AnnotatedLogic.Proofs.Pairing
import AnnotatedLogic.Proofs.Recording
import AnnotatedLogic.Proofs.Json.RoundTrip
import AnnotatedLogic.Proofs.Degree.Fraction
import AnnotatedLogic.Proofs.Below
import AnnotatedLogic.Proofs.Narrowing
import AnnotatedLogic.Proofs.Confluence
import AnnotatedLogic.Proofs.Opposites
import AnnotatedLogic.Proofs.Accepted
import AnnotatedLogic.Proofs.Complementary
import AnnotatedLogic.Proofs.FactOrder
import AnnotatedLogic.Proofs.Ledger
import AnnotatedLogic.Proofs.Stopping
import AnnotatedLogic.Proofs.ChangeLog
import AnnotatedLogic.Proofs.Degree.Distance
import AnnotatedLogic.Proofs.Movement
import AnnotatedLogic.Proofs.Previous
import AnnotatedLogic.Proofs.Standstill
import AnnotatedLogic.Proofs.Justified
import AnnotatedLogic.Proofs.Counting
import AnnotatedLogic.Proofs.Agenda
import AnnotatedLogic.Proofs.Refused
import AnnotatedLogic.Proofs.Overlap
import AnnotatedLogic.Proofs.Rows
import AnnotatedLogic.Proofs.Adjacency
import AnnotatedLogic.Proofs.Index
import AnnotatedLogic.Proofs.Monotone
