import Memberwise.Build.Basic
import Memberwise.Build.Compile
import Memberwise.Build.Naming
import Memberwise.Build.Walk
import Memberwise.Diagnostic
import Memberwise.Emit.Body
import Memberwise.Emit.Member
import Memberwise.Emit.Record
import Memberwise.Emit.Startup
import Memberwise.Emit.Union
import Memberwise.Eval.Fault
import Memberwise.Eval.Machine
import Memberwise.Eval.Operators
import Memberwise.Eval.Run
import Memberwise.Eval.Value
import Memberwise.Graph
import Memberwise.Identity.Basic
import Memberwise.Identity.Digest
import Memberwise.Marking
import Memberwise.Number.Binary
import Memberwise.Number.Decimal
import Memberwise.Options
import Memberwise.Output.Class
import Memberwise.Output.Method
import Memberwise.Proofs.AssemblyChains
import Memberwise.Proofs.CleanWalk
import Memberwise.Proofs.Footprints
import Memberwise.Proofs.Gaps
import Memberwise.Proofs.Initializers
import Memberwise.Proofs.Inlining
import Memberwise.Proofs.Invariants
import Memberwise.Proofs.Lockstep
import Memberwise.Proofs.OutputNames
import Memberwise.Proofs.RecordValues
import Memberwise.Proofs.Registrants
import Memberwise.Proofs.Registration
import Memberwise.Proofs.RemoteHandles
import Memberwise.Proofs.Runs
import Memberwise.Proofs.Sessions
import Memberwise.Proofs.SideTables
import Memberwise.Proofs.StartupCode
import Memberwise.Proofs.StartupOnce
import Memberwise.Proofs.StartupTypes
import Memberwise.Proofs.SynthesizedMembers
import Memberwise.Proofs.TemplateForms
import Memberwise.Proofs.TemplateGrammar
import Memberwise.Proofs.TemplatePrinting
import Memberwise.Proofs.TemplateReadings
import Memberwise.Proofs.TemplateSpelling
import Memberwise.Proofs.TypeTables
import Memberwise.Proofs.UnionValues
import Memberwise.Proofs.WalkReports
import Memberwise.Search
import Memberwise.Snapshot
import Memberwise.Source.Declaration
import Memberwise.Source.Expr
import Memberwise.Source.Literal
import Memberwise.Source.Signature
import Memberwise.Source.Span
import Memberwise.Source.Ty
import Memberwise.Table
import Memberwise.Template.Error
import Memberwise.Template.Parse
import Memberwise.Template.Scan
import Memberwise.Template.Slots
import Memberwise.Template.Token
import Memberwise.Text.Blank
import Memberwise.Text.Faceless
import Memberwise.Text.Quoted
import Memberwise.Treatment
import Memberwise.Proofs.Conflicts
import Memberwise.Proofs.Duplicates
import Memberwise.Proofs.FileOrder
import Memberwise.Proofs.MemberIsolation
import Memberwise.Proofs.CallDepth
import Memberwise.Proofs.Unrolling
import Memberwise.Proofs.Moments
import Memberwise.Proofs.EvaluatedStatements
import Memberwise.Proofs.PassedStates
import Memberwise.Proofs.IndexedGraphs
import Memberwise.Proofs.GraphUnions
import Memberwise.Proofs.SnapshotUnions
import Memberwise.Proofs.SnapshotGroups
import Memberwise.Proofs.Scoping
import Memberwise.Proofs.ChainContents
import Memberwise.Proofs.StartupIdentities
import Memberwise.Proofs.StoreInvariants
import Memberwise.Proofs.ObjectKeys
import Memberwise.Proofs.StaticWrites
import Memberwise.Proofs.StartupGetters
import Memberwise.Proofs.DepthFirst
import Memberwise.Proofs.RefusedValues
import Memberwise.Proofs.TemplateFailures
import Memberwise.Proofs.EarliestErrors
import Memberwise.Proofs.ScanPositions
import Memberwise.Proofs.ErrorColumns
import Memberwise.Proofs.ArrayNesting
import Memberwise.Proofs.KnownValues
import Memberwise.Proofs.PrintableStores
import Memberwise.Proofs.ProxyChains
import Memberwise.Proofs.NestedMarkings
import Memberwise.Proofs.DeclaredMembers
import Memberwise.Proofs.Forwarding
import Memberwise.Proofs.OptionalAccessors
import Memberwise.Proofs.AttributeSets
import Memberwise.Proofs.OrderedUnions
import Memberwise.Proofs.SinglePlaces
import Memberwise.Proofs.Lexemes
import Memberwise.Proofs.DerivedNames
