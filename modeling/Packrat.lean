import Packrat.Engine.Parse
import Packrat.Grammar.Builder
import Packrat.Grammar.Copy
import Packrat.Analysis.Metrics
import Packrat.Sample.Generator
import Packrat.Sample.Grammars
import Packrat.Proofs.OrderedContents
import Packrat.Proofs.SeedContents
import Packrat.Proofs.SeedHashes
import Packrat.Proofs.Rollback
import Packrat.Proofs.SlotContents
import Packrat.Proofs.MemoEntries
import Packrat.Proofs.Twins
import Packrat.Proofs.Contract.Combinators
import Packrat.Proofs.Contract.Growth
import Packrat.Proofs.Contract.Programs
import Packrat.Proofs.Contract.Invocation
import Packrat.Proofs.UpTo
import Packrat.Proofs.Limits
import Packrat.Proofs.WalkCycles
import Packrat.Proofs.FirstCycles
import Packrat.Proofs.Transparency.Alike
import Packrat.Proofs.ReportContents
import Packrat.Proofs.Transparency.Follows
import Packrat.Proofs.Transparency.Forms
import Packrat.Proofs.Transparency.Silence
import Packrat.Proofs.Transparency.Programs
import Packrat.Proofs.Transparency.Invocation
import Packrat.Proofs.Transparency.Outcomes
import Packrat.Proofs.Transparency.Extensions
import Packrat.Proofs.StepLimits
import Packrat.Proofs.Nullable.Search
import Packrat.Proofs.WalkReach
import Packrat.Proofs.WalkOnce
import Packrat.Proofs.WalkOrder
import Packrat.Proofs.WalkPaths
import Packrat.Proofs.WalkValues
import Packrat.Proofs.Protocol.Combinators
import Packrat.Proofs.Protocol.Growth
import Packrat.Proofs.Protocol.Invocation
import Packrat.Proofs.Protocol.Programs
import Packrat.Proofs.Peg.Semantics
import Packrat.Proofs.Peg.Skipping
import Packrat.Proofs.Protocol.Positions
import Packrat.Proofs.Protocol.Outcomes
import Packrat.Proofs.Protocol.Shapes
import Packrat.Proofs.Protocol.Inheritance
import Packrat.Proofs.Protocol.Bounds
import Packrat.Proofs.CaptureSpans
import Packrat.Proofs.Transactions
import Packrat.Proofs.Peg.Agreement
import Packrat.Proofs.Peg.Renaming
import Packrat.Proofs.Termination.Effort
import Packrat.Proofs.Termination.Skipping
import Packrat.Proofs.Termination.Matching
import Packrat.Proofs.Termination.Parses
import Packrat.Proofs.Coverage
import Packrat.Proofs.Arithmetic.Semantics
import Packrat.Proofs.Arithmetic.Grammars
import Packrat.Proofs.Arithmetic.LeftRecursive
import Packrat.Proofs.Arithmetic.Cluster
import Packrat.Proofs.Arithmetic.Agreement
import Packrat.Proofs.Histories
import Packrat.Proofs.Preparation.Resolution
import Packrat.Proofs.Preparation.Wrapping
import Packrat.Proofs.Preparation.SecondSearch
import Packrat.Proofs.Preparation.Breaking
import Packrat.Proofs.Preparation.Selection
import Packrat.Proofs.Preparation.Answers
import Packrat.Proofs.Preparation.Erasure
import Packrat.Proofs.Preparation.Faults
import Packrat.Proofs.Preparation.Idempotence
import Packrat.Proofs.Lockstep.Machines
import Packrat.Proofs.Lockstep.Tables
import Packrat.Proofs.Lockstep.Forms
import Packrat.Proofs.Lockstep.Invocation
import Packrat.Proofs.Relabeling.Contents
import Packrat.Proofs.Relabeling.Tables
import Packrat.Proofs.Relabeling.Machines
import Packrat.Proofs.Relabeling.Invocation
import Packrat.Proofs.Relabeling.Shapes
import Packrat.Proofs.Preparation.Chains
import Packrat.Proofs.Preparation.References
import Packrat.Proofs.Relabeling.Skipping
import Packrat.Proofs.Relabeling.Parses
import Packrat.Proofs.Relabeling.Copies
import Packrat.Proofs.Relabeling.Invariance
import Packrat.Proofs.Contract.WaysOut
import Packrat.Proofs.Contract.Asking
import Packrat.Proofs.FailureRecords
import Packrat.Proofs.Lines
import Packrat.Proofs.Protocol.Silencing
import Packrat.Proofs.FailureReports
import Packrat.Proofs.MemoProbes
import Packrat.Proofs.MemoContents
import Packrat.Proofs.Safety.MemoRuns
import Packrat.Proofs.Safety.Parses
import Packrat.Proofs.Sums.Tokens
import Packrat.Proofs.Sums.Grammar
import Packrat.Proofs.Sums.Matching
import Packrat.Proofs.Sums.Operands
import Packrat.Proofs.Sums.LeftRecursion
import Packrat.Proofs.Sums.Associativity
import Packrat.Proofs.SeedChains
import Packrat.Proofs.FastPath.Nesting
import Packrat.Proofs.FastPath.Agreement
import Packrat.Proofs.FastPath.Evaluation
import Packrat.Proofs.EmptyText
import Packrat.Proofs.OneOrMore
import Packrat.Proofs.Precedence.Levels
import Packrat.Proofs.Precedence.Interference
import Packrat.Proofs.Precedence.Relevel
import Packrat.Proofs.Precedence.Preparation
import Packrat.Proofs.Precedence.Parses
import Packrat.Proofs.Yields.Rules
import Packrat.Proofs.Yields.Agreement
import Packrat.Proofs.Yields.Markers
import Packrat.Proofs.Layout.Terms
import Packrat.Proofs.Layout.Reading
import Packrat.Proofs.Precedence.Stored
import Packrat.Proofs.Generation.Heights
import Packrat.Proofs.Generation.Emission
import Packrat.Proofs.Generation.Termination
import Packrat.Proofs.Arithmetic.Tokens
import Packrat.Proofs.Arithmetic.Expressions
import Packrat.Proofs.Arithmetic.Acceptance
import Packrat.Proofs.Generation.Arithmetic
