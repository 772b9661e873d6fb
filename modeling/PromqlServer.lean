import PromqlServer.CommandLine.Arguments
import PromqlServer.CommandLine.Parameter
import PromqlServer.CommandLine.Program
import PromqlServer.CommandLine.Similarity
import PromqlServer.Connection.Frame
import PromqlServer.Connection.Listener
import PromqlServer.Connection.Peer
import PromqlServer.Document.Provider
import PromqlServer.Document.Scope
import PromqlServer.Document.Store
import PromqlServer.Document.Uri
import PromqlServer.Document.Workspace
import PromqlServer.Json.Basic
import PromqlServer.Json.Reader
import PromqlServer.Json.Record
import PromqlServer.Json.Writer
import PromqlServer.Log.Filter
import PromqlServer.Main
import PromqlServer.Prometheus.BuildInfo
import PromqlServer.Prometheus.Client
import PromqlServer.Prometheus.Dialect
import PromqlServer.Prometheus.Endpoint
import PromqlServer.Prometheus.Envelope
import PromqlServer.Prometheus.Exchange
import PromqlServer.Prometheus.Metadata
import PromqlServer.Prometheus.Question
import PromqlServer.Query.Completion
import PromqlServer.Query.Diagnostic
import PromqlServer.Query.Lexical
import PromqlServer.Rpc.Message
import PromqlServer.Rpc.Method
import PromqlServer.Rpc.Params
import PromqlServer.Rpc.Service
import PromqlServer.SemanticVersion
import PromqlServer.Session.Basic
import PromqlServer.Session.Completion
import PromqlServer.Session.Lifecycle
import PromqlServer.Session.Message
import PromqlServer.Session.Wire
import PromqlServer.Settings
import PromqlServer.Text.Blank
import PromqlServer.Text.Measure
import PromqlServer.Text.Position
import PromqlServer.Url.Address
import PromqlServer.Url.Basic
import PromqlServer.Url.Domain
import PromqlServer.Url.Edit
import PromqlServer.Url.Parser
import PromqlServer.Url.Path
import PromqlServer.Url.Percent
import PromqlServer.Url.Punycode
import PromqlServer.Proofs.Text.Positions
import PromqlServer.Proofs.Text.Cuts
import PromqlServer.Proofs.Text.Patterns
import PromqlServer.Proofs.Query.Lexemes
import PromqlServer.Proofs.Query.Braces
import PromqlServer.Proofs.Query.Matchers
import PromqlServer.Proofs.Query.Extraction
import PromqlServer.Proofs.Query.Selectors
import PromqlServer.Proofs.Query.Quotations
import PromqlServer.Proofs.Query.Comments
import PromqlServer.Proofs.Query.Scans
import PromqlServer.Proofs.Query.Acceptance
import PromqlServer.Proofs.Query.Findings
import PromqlServer.Proofs.Query.Delimiters
import PromqlServer.Proofs.Query.Ranges
import PromqlServer.Proofs.Query.Repair
import PromqlServer.Proofs.Document.Runs
import PromqlServer.Proofs.Document.Calls
import PromqlServer.Proofs.Document.Editions
import PromqlServer.Proofs.Document.Closings
import PromqlServer.Proofs.Document.Freshness
import PromqlServer.Proofs.Document.Stretches
import PromqlServer.Proofs.Document.Liveness
import PromqlServer.Proofs.Document.Sequential
import PromqlServer.Proofs.Document.Linearizability
import PromqlServer.Proofs.Document.Tasks
import PromqlServer.Proofs.Document.Accounts
import PromqlServer.Proofs.Document.Reports
import PromqlServer.Proofs.Document.Views
import PromqlServer.Proofs.Document.Endings
import PromqlServer.Proofs.Document.Waiting
import PromqlServer.Proofs.Prometheus.Operations
import PromqlServer.Proofs.Prometheus.Interleaving
import PromqlServer.Proofs.Session.Trace
import PromqlServer.Proofs.Session.Runs
import PromqlServer.Proofs.Session.Clearances
import PromqlServer.Proofs.Session.Convergence
import PromqlServer.Proofs.Session.Finality
import PromqlServer.Proofs.Session.Errands
import PromqlServer.Proofs.Session.Configuration
import PromqlServer.Proofs.Document.Courses
import PromqlServer.Proofs.Document.Independence
import PromqlServer.Proofs.Document.Refusals
import PromqlServer.Proofs.Prometheus.Resources
import PromqlServer.Proofs.Prometheus.Requests
import PromqlServer.Proofs.Session.Inquiries
import PromqlServer.Proofs.Connection.Isolation
import PromqlServer.Proofs.Prometheus.Envelopes
import PromqlServer.Proofs.Prometheus.Grouping
import PromqlServer.Proofs.Prometheus.Detection
import PromqlServer.Proofs.Query.LineEnds
import PromqlServer.Proofs.Query.Resolution
import PromqlServer.Proofs.Url.Segments
import PromqlServer.Proofs.Prometheus.Endpoints
