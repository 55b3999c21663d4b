import RuleFlow.Json.Reader
import RuleFlow.Number.Binary
import RuleFlow.Number.Decimal
import RuleFlow.Number.Reader
import RuleFlow.Number.Leading
import RuleFlow.Calendar
import RuleFlow.Plan
import RuleFlow.Run.Phase
import RuleFlow.Run.History
import RuleFlow.Trace.Rule.Standard
import RuleFlow.Trace.Validator
import RuleFlow.Path.Wildcard
import RuleFlow.Report.Validation
import RuleFlow.Report.Analysis
import RuleFlow.Parser.Inventory
import RuleFlow.Run.Analyzer
import RuleFlow.Trace.Reader
import RuleFlow.Options.Arguments
import RuleFlow.Options.Config
import RuleFlow.Command.Run
import RuleFlow.Main
import RuleFlow.Proofs.Relation
import RuleFlow.Proofs.Lists
import RuleFlow.Proofs.Steps
import RuleFlow.Proofs.Keyed
import RuleFlow.Proofs.Document
import RuleFlow.Proofs.Text.Numeral
import RuleFlow.Proofs.Text.Lines
import RuleFlow.Proofs.Text.Trim
import RuleFlow.Proofs.Text.Split
import RuleFlow.Proofs.Number.Binary
import RuleFlow.Proofs.Number.Rounding
import RuleFlow.Proofs.Number.Order
import RuleFlow.Proofs.Number.Bounds
import RuleFlow.Proofs.Number.Natural
import RuleFlow.Proofs.Number.Value
import RuleFlow.Proofs.Number.Arithmetic
import RuleFlow.Proofs.Json.Strings
import RuleFlow.Proofs.Json.Number
import RuleFlow.Proofs.Json.Value
import RuleFlow.Proofs.Number.Significant
import RuleFlow.Proofs.Json.Access
import RuleFlow.Proofs.Json.Escape
import RuleFlow.Proofs.Parser.Registry
import RuleFlow.Proofs.Parser.Operations
import RuleFlow.Proofs.Parser.Invariants
import RuleFlow.Proofs.Parser.Data
import RuleFlow.Proofs.Parser.Inventory
import RuleFlow.Proofs.Plan.Phases
import RuleFlow.Proofs.Plan.Order
import RuleFlow.Proofs.Plan.Partition
import RuleFlow.Proofs.Discovery
import RuleFlow.Proofs.Run.Results
import RuleFlow.Proofs.Run.Phase
import RuleFlow.Proofs.Run.Deadline
import RuleFlow.Proofs.Run.Pairs
import RuleFlow.Proofs.Run.History
import RuleFlow.Proofs.Run.Analyzer
import RuleFlow.Proofs.Run.Calls
import RuleFlow.Proofs.Run.Merge
import RuleFlow.Proofs.Trace.Batch
import RuleFlow.Proofs.Trace.Turns
import RuleFlow.Proofs.Trace.Search
import RuleFlow.Proofs.Trace.Cycle
import RuleFlow.Proofs.Trace.Severity
import RuleFlow.Proofs.Trace.Verdict
import RuleFlow.Proofs.Trace.Rules
import RuleFlow.Proofs.Trace.Score
import RuleFlow.Proofs.Trace.Coherence
import RuleFlow.Proofs.Report.Validation
import RuleFlow.Proofs.Report.Analysis
import RuleFlow.Proofs.Report.Table
import RuleFlow.Proofs.Report.Rows
import RuleFlow.Proofs.Calendar
import RuleFlow.Proofs.Log
import RuleFlow.Proofs.Plan.Depth
import RuleFlow.Proofs.Trace.Dependencies
import RuleFlow.Proofs.Run.Attempts
import RuleFlow.Proofs.Trace.Document
import RuleFlow.Proofs.Trace.Spelling
import RuleFlow.Proofs.Trace.Statistics
import RuleFlow.Proofs.Trace.Architecture
import RuleFlow.Proofs.Trace.Completeness
import RuleFlow.Proofs.Trace.Exact
import RuleFlow.Proofs.Trace.Numbering
import RuleFlow.Proofs.Trace.Duplicates
import RuleFlow.Proofs.Report.LineCount
import RuleFlow.Proofs.Path.Wildcard
import RuleFlow.Proofs.Path.Names
import RuleFlow.Proofs.Path.Tree
import RuleFlow.Proofs.Discovery.Spelling
import RuleFlow.Proofs.Discovery.Search
import RuleFlow.Proofs.Options.Limits
import RuleFlow.Proofs.Options.Layers
import RuleFlow.Proofs.Options.Arguments
import RuleFlow.Proofs.Options.Config
import RuleFlow.Proofs.Options.Keys
