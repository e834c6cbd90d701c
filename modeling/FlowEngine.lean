import FlowEngine.Boundary
import FlowEngine.Cancellation
import FlowEngine.Collaborator
import FlowEngine.CommandLine
import FlowEngine.Config
import FlowEngine.Control
import FlowEngine.Decimal.Shortest
import FlowEngine.Document
import FlowEngine.Engine
import FlowEngine.Execution.Action
import FlowEngine.Execution.Attempt
import FlowEngine.Execution.Basic
import FlowEngine.Execution.Flow
import FlowEngine.Execution.Step
import FlowEngine.Expr.Basic
import FlowEngine.Expr.Eval
import FlowEngine.Failure
import FlowEngine.Flow.Basic
import FlowEngine.Flow.Validity
import FlowEngine.Gate
import FlowEngine.Json.Basic
import FlowEngine.Json.Decode
import FlowEngine.Json.Indented
import FlowEngine.Json.Number
import FlowEngine.Json.Parser
import FlowEngine.Json.Printer
import FlowEngine.Machine.Basic
import FlowEngine.Machine.Poll
import FlowEngine.Machine.System
import FlowEngine.Main
import FlowEngine.Outcome
import FlowEngine.Program.Basic
import FlowEngine.Program.Effect
import FlowEngine.Proofs.Program.History
import FlowEngine.Query.Basic
import FlowEngine.Query.Eval
import FlowEngine.Query.Parser
import FlowEngine.Query.Token
import FlowEngine.Retry
import FlowEngine.Run.Expectation
import FlowEngine.Run.Lifecycle
import FlowEngine.Run.Result
import FlowEngine.Scope
import FlowEngine.Step.Basic
import FlowEngine.Step.Codec
import FlowEngine.Store.Basic
import FlowEngine.Store.Scripted
import FlowEngine.Target
import FlowEngine.Text.Blank
import FlowEngine.Text.Split
import FlowEngine.Text.Unsigned
import FlowEngine.Transaction
import FlowEngine.Yaml.Basic
import FlowEngine.Yaml.Cursor
import FlowEngine.Yaml.Parser
import FlowEngine.Yaml.Scalar
import FlowEngine.Proofs.Execution.Coherent
import FlowEngine.Proofs.Machine.Outline
import FlowEngine.Proofs.Machine.Polls
import FlowEngine.Proofs.Machine.Advance
import FlowEngine.Proofs.Session.Discipline
import FlowEngine.Proofs.Execution.Keeping
import FlowEngine.Proofs.Session.Hosting
import FlowEngine.Proofs.Execution.Flow
import FlowEngine.Proofs.Run.Residence
import FlowEngine.Proofs.Run.Draining
import FlowEngine.Proofs.Store.Snapshots
import FlowEngine.Proofs.Transaction.Custody
import FlowEngine.Proofs.Transaction.Accounts
import FlowEngine.Proofs.Run.Closing
import FlowEngine.Proofs.Transaction.Ledger
import FlowEngine.Proofs.Transaction.Opening
import FlowEngine.Proofs.Transaction.Fate
import FlowEngine.Proofs.Transaction.Accounting
import FlowEngine.Proofs.Session.Course
import FlowEngine.Proofs.Session.Turns
import FlowEngine.Proofs.Transaction.Rollback
import FlowEngine.Proofs.Store.Persistence
import FlowEngine.Proofs.Machine.Numbers
import FlowEngine.Proofs.Session.Ends
import FlowEngine.Proofs.Run.Joins
import FlowEngine.Proofs.Run.FanOut
import FlowEngine.Proofs.Run.Starting
import FlowEngine.Proofs.Run.Branches
import FlowEngine.Proofs.Transaction.Interleaving
import FlowEngine.Proofs.Run.Outliving
import FlowEngine.Proofs.Run.Cancellation
import FlowEngine.Proofs.Machine.Waking
import FlowEngine.Proofs.Run.Waiting
import FlowEngine.Proofs.Machine.Permits
import FlowEngine.Proofs.Session.Polled
import FlowEngine.Proofs.Run.Admission
import FlowEngine.Proofs.Scope.Steps
import FlowEngine.Proofs.Run.Progress
import FlowEngine.Proofs.Execution.Twins
import FlowEngine.Proofs.Machine.Calm
import FlowEngine.Proofs.Run.Unwinding
import FlowEngine.Proofs.Execution.Performing
import FlowEngine.Proofs.Run.Journals
import FlowEngine.Proofs.Run.Books
import FlowEngine.Proofs.Run.Lifetime
import FlowEngine.Proofs.Run.Results
import FlowEngine.Proofs.Machine.Tracing
import FlowEngine.Proofs.Run.Spans
import FlowEngine.Proofs.Run.Agreement
import FlowEngine.Proofs.Run.Serenity
import FlowEngine.Proofs.Run.Undisturbed
import FlowEngine.Proofs.Run.Attribution
import FlowEngine.Proofs.Execution.Allowance
import FlowEngine.Proofs.Flow.Checks
import FlowEngine.Proofs.Run.Order
import FlowEngine.Proofs.Transaction.Sequential
import FlowEngine.Proofs.Flow.Nodes
import FlowEngine.Proofs.Format.Doubles
import FlowEngine.Proofs.Format.Fields
import FlowEngine.Proofs.Format.Expressions
import FlowEngine.Proofs.Format.Parts
import FlowEngine.Proofs.Format.Steps
import FlowEngine.Proofs.Format.Forms
import FlowEngine.Proofs.Format.RoundTrip
import FlowEngine.Proofs.Execution.Containment
import FlowEngine.Proofs.Run.Grants
import FlowEngine.Proofs.Machine.Strikes
import FlowEngine.Proofs.Run.Sparing
import FlowEngine.Proofs.Run.Containment
import FlowEngine.Proofs.Run.Uncancelled
import FlowEngine.Proofs.Store.Calls
import FlowEngine.Proofs.Store.References
import FlowEngine.Proofs.Store.Identifiers
import FlowEngine.Proofs.Machine.Clocks
import FlowEngine.Proofs.Machine.Summoning
import FlowEngine.Proofs.Run.Repayment
import FlowEngine.Proofs.Run.Timeliness
import FlowEngine.Proofs.Run.Rest
import FlowEngine.Proofs.Likeness.Shift
import FlowEngine.Proofs.Likeness.Programs
import FlowEngine.Proofs.Likeness.Machines
import FlowEngine.Proofs.Likeness.Polls
import FlowEngine.Proofs.Likeness.Systems
import FlowEngine.Proofs.Likeness.Engines
import FlowEngine.Proofs.Likeness.Hidden
import FlowEngine.Proofs.Likeness.Reading
import FlowEngine.Proofs.Store.Relations
import FlowEngine.Proofs.Run.Boundaries
import FlowEngine.Proofs.Scope.Frames
import FlowEngine.Proofs.Scope.ReadBack
import FlowEngine.Proofs.Execution.Watching
import FlowEngine.Proofs.Execution.Tracking
import FlowEngine.Proofs.Scope.Outputs
import FlowEngine.Proofs.Flow.WellFormed
import FlowEngine.Proofs.Run.Sleeping
import FlowEngine.Proofs.Run.Retrying
import FlowEngine.Proofs.Run.Halting
import FlowEngine.Proofs.Run.Interruption
import FlowEngine.Proofs.Run.Expiry
import FlowEngine.Proofs.Scope.Untouched
import FlowEngine.Proofs.Execution.Matching
import FlowEngine.Proofs.Execution.Looping
import FlowEngine.Proofs.Execution.Completion
import FlowEngine.Proofs.Execution.Guarding
import FlowEngine.Proofs.Execution.Isolable
import FlowEngine.Proofs.Transaction.Stages
import FlowEngine.Proofs.Run.Trails
import FlowEngine.Proofs.Run.Isolation
import FlowEngine.Proofs.Json.Equality
import FlowEngine.Proofs.Expr.Quotients
import FlowEngine.Proofs.Json.Tables
import FlowEngine.Proofs.Expr.Integers
import FlowEngine.Proofs.Store.Handles
import FlowEngine.Proofs.Run.Stragglers
import FlowEngine.Proofs.Machine.Bystanders
import FlowEngine.Proofs.Scope.Views
import FlowEngine.Proofs.Run.Tidy
