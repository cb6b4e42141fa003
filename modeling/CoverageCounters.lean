import CoverageCounters.Bootstrap
import CoverageCounters.CommandLine.Arguments
import CoverageCounters.CommandLine.Command
import CoverageCounters.CommandLine.Help
import CoverageCounters.CommandLine.Run
import CoverageCounters.Config.Basic
import CoverageCounters.Config.Settings
import CoverageCounters.Coverage.Codec
import CoverageCounters.Coverage.File
import CoverageCounters.Coverage.Fingerprint
import CoverageCounters.Coverage.Map
import CoverageCounters.Coverage.Report
import CoverageCounters.Digest.Sha256
import CoverageCounters.Directives
import CoverageCounters.Error
import CoverageCounters.Git
import CoverageCounters.Glob.Basic
import CoverageCounters.Glob.Parser
import CoverageCounters.Hint
import CoverageCounters.Identifier
import CoverageCounters.Json.Basic
import CoverageCounters.Json.Parser
import CoverageCounters.Json.Printer
import CoverageCounters.Main
import CoverageCounters.Node.Kind
import CoverageCounters.Node.Marks
import CoverageCounters.Node.Query
import CoverageCounters.Number.Binary64
import CoverageCounters.Number.Shortest
import CoverageCounters.Pass.Actions
import CoverageCounters.Pass.Program
import CoverageCounters.Pass.State
import CoverageCounters.Pass.Walk
import CoverageCounters.Path.Basic
import CoverageCounters.Path.Style
import CoverageCounters.Path.Template
import CoverageCounters.Proofs.ActionSteps
import CoverageCounters.Proofs.BranchRecords
import CoverageCounters.Proofs.BuiltWalks
import CoverageCounters.Proofs.CanonicalJson
import CoverageCounters.Proofs.Chains
import CoverageCounters.Proofs.Children
import CoverageCounters.Proofs.Choices
import CoverageCounters.Proofs.Collected
import CoverageCounters.Proofs.Collecting
import CoverageCounters.Proofs.Collector
import CoverageCounters.Proofs.CommentReading
import CoverageCounters.Proofs.Correspondence
import CoverageCounters.Proofs.CounterReading
import CoverageCounters.Proofs.CoverageCodec
import CoverageCounters.Proofs.DataReading
import CoverageCounters.Proofs.DecimalText
import CoverageCounters.Proofs.Erasure
import CoverageCounters.Proofs.Evaluation
import CoverageCounters.Proofs.FrozenMaps
import CoverageCounters.Proofs.FunctionEntries
import CoverageCounters.Proofs.FunctionRecords
import CoverageCounters.Proofs.GitClaims
import CoverageCounters.Proofs.HashedText
import CoverageCounters.Proofs.HintGrammar
import CoverageCounters.Proofs.HintResolution
import CoverageCounters.Proofs.HintedExpressions
import CoverageCounters.Proofs.HintedItems
import CoverageCounters.Proofs.Identifiers
import CoverageCounters.Proofs.Instrumented
import CoverageCounters.Proofs.JsonText
import CoverageCounters.Proofs.LabelledRecords
import CoverageCounters.Proofs.Laying
import CoverageCounters.Proofs.Ledger
import CoverageCounters.Proofs.LiteralMeaning
import CoverageCounters.Proofs.LiveCounters
import CoverageCounters.Proofs.Located
import CoverageCounters.Proofs.LoopInits
import CoverageCounters.Proofs.MapHistory
import CoverageCounters.Proofs.Naming
import CoverageCounters.Proofs.PassExits
import CoverageCounters.Proofs.PathComponents
import CoverageCounters.Proofs.PathRecording
import CoverageCounters.Proofs.Placed
import CoverageCounters.Proofs.Placement
import CoverageCounters.Proofs.PreludeEvaluation
import CoverageCounters.Proofs.Prologues
import CoverageCounters.Proofs.Reached
import CoverageCounters.Proofs.Rebuild
import CoverageCounters.Proofs.Recording
import CoverageCounters.Proofs.Repeated
import CoverageCounters.Proofs.ReportedPrefix
import CoverageCounters.Proofs.Restoration
import CoverageCounters.Proofs.RewrittenWalks
import CoverageCounters.Proofs.RunInvariants
import CoverageCounters.Proofs.Safety
import CoverageCounters.Proofs.ShortestDecimal
import CoverageCounters.Proofs.Sites
import CoverageCounters.Proofs.SnapshotAgreement
import CoverageCounters.Proofs.SourceMapReferences
import CoverageCounters.Proofs.StampedWalks
import CoverageCounters.Proofs.Standing
import CoverageCounters.Proofs.StatementRecords
import CoverageCounters.Proofs.Suppression
import CoverageCounters.Proofs.TemplateReading
import CoverageCounters.Proofs.TreeCounters
import CoverageCounters.Proofs.TreeRuns
import CoverageCounters.Proofs.TreeVisits
import CoverageCounters.Proofs.TreeWalk
import CoverageCounters.Proofs.VisitOrder
import CoverageCounters.Proofs.Visits
import CoverageCounters.Proofs.WalkRun
import CoverageCounters.Source.Comments
import CoverageCounters.Source.Flavor
import CoverageCounters.Source.Location
import CoverageCounters.Source.Parsed
import CoverageCounters.Source.Span
import CoverageCounters.Text.Blank
import CoverageCounters.Text.Quoted
import CoverageCounters.Text.Surrogates
import CoverageCounters.Text.Word
import CoverageCounters.Tree.Basic
import CoverageCounters.Tree.Build
import CoverageCounters.Tree.Form
import CoverageCounters.Tree.Wire
import CoverageCounters.World.Basic
import CoverageCounters.World.Configuration
import CoverageCounters.World.Entry
import CoverageCounters.World.Snapshot
import CoverageCounters.World.Tree
import CoverageCounters.World.Walk
