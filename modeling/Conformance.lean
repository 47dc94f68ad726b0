import Conformance.Definition.History
import Conformance.Definition.Written
import Conformance.Graph.History
import Conformance.Graph.Walk
import Conformance.Journal
import Conformance.Main
import Conformance.Proofs.Access.RoundTrip
import Conformance.Proofs.Analysis.Congruence
import Conformance.Proofs.Analysis.Differences
import Conformance.Proofs.Analysis.Findings
import Conformance.Proofs.Analysis.Metrics
import Conformance.Proofs.Analysis.Modes
import Conformance.Proofs.Analysis.Renaming
import Conformance.Proofs.Analysis.Reordering
import Conformance.Proofs.Analysis.Routes
import Conformance.Proofs.Analysis.Strangers
import Conformance.Proofs.Analysis.Ways
import Conformance.Proofs.Checker.Coupling
import Conformance.Proofs.Checker.Monotone
import Conformance.Proofs.Checker.Reports
import Conformance.Proofs.Checker.Runs
import Conformance.Proofs.Checker.Satisfiable
import Conformance.Proofs.Checker.TwoLogs
import Conformance.Proofs.Checker.Wildcard
import Conformance.Proofs.Definition.Culprits
import Conformance.Proofs.Definition.Histories
import Conformance.Proofs.Definition.Layout
import Conformance.Proofs.Definition.Meaning
import Conformance.Proofs.Definition.Parsed
import Conformance.Proofs.Definition.RoundTrip
import Conformance.Proofs.Distinct
import Conformance.Proofs.Graph.Counts
import Conformance.Proofs.Graph.Degrees
import Conformance.Proofs.Graph.Distances
import Conformance.Proofs.Graph.Histories
import Conformance.Proofs.Graph.InPlace
import Conformance.Proofs.Graph.Listings
import Conformance.Proofs.Graph.Paths
import Conformance.Proofs.Graph.Reconstruction
import Conformance.Proofs.Graph.Registers
import Conformance.Proofs.Graph.Shortest
import Conformance.Proofs.Graph.Ties
import Conformance.Proofs.Graph.Walks
import Conformance.Proofs.Json.Layout
import Conformance.Proofs.Json.Reading
import Conformance.Proofs.Module.Glob
import Conformance.Proofs.Module.Order
import Conformance.Proofs.Outcome
import Conformance.Proofs.Regex.Tables
import Conformance.Proofs.Source.Lines
import Conformance.Proofs.Source.Places
import Conformance.Proofs.Source.Table
import Conformance.Proofs.Specification.Acceptance
import Conformance.Proofs.Specification.Leftmost
import Conformance.Proofs.Specification.LineSpans
import Conformance.Proofs.Specification.Order
import Conformance.Proofs.Specification.Places
import Conformance.Proofs.Specification.Progress
import Conformance.Proofs.Specification.Reading
import Conformance.Proofs.Specification.Recogniser
import Conformance.Proofs.Specification.Skeleton
import Conformance.Proofs.Specification.Stream
import Conformance.Proofs.Specification.Tracking
import Conformance.Proofs.Survey.Accesses
import Conformance.Proofs.Survey.Findings
import Conformance.Proofs.Text.Bytes
import Conformance.Proofs.Token.Columns
import Conformance.Proofs.Token.Enclosures
import Conformance.Proofs.Token.Lexeme
import Conformance.Proofs.Token.Lines
import Conformance.Proofs.Token.Places
import Conformance.Proofs.Token.Progress
import Conformance.Proofs.Token.Relexing
import Conformance.Proofs.Token.Scanning
import Conformance.Proofs.Token.Spelling
import Conformance.Proofs.Token.Tiling
import Conformance.Specification.Grammar
import Conformance.Specification.Session
