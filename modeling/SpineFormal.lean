import SpineFormal.Base.TextFields
import SpineFormal.Base.Run
import SpineFormal.Base.HashChain
import SpineFormal.Base.Sha256
import SpineFormal.Base.Decimal
import SpineFormal.Base.Base64
import SpineFormal.Json.Scan
import SpineFormal.Json.Locality
import SpineFormal.Json.Record
import SpineFormal.Json.Jsonb
import SpineFormal.License.QuotaLedger
import SpineFormal.License.QuotaInterleaving
import SpineFormal.License.BundleVerifier
import SpineFormal.License.Shamir
import SpineFormal.License.ShamirFiles
import SpineFormal.Audit.LedgerEntry
import SpineFormal.Audit.DecisionLedger
import SpineFormal.Audit.Exporter
import SpineFormal.Audit.MetadataTree
import SpineFormal.Audit.LedgerRuns
import SpineFormal.Audit.AuditRecord
import SpineFormal.Audit.AuditChain
import SpineFormal.Audit.AuditStorage
import SpineFormal.Evidence.TwoPartyAttestation
import SpineFormal.Verify.VerifyFindings
import SpineFormal.Orchestrator.VerifyDispatcher
import SpineFormal.Base.Interleaving
import SpineFormal.Base.Glob
import SpineFormal.Base.TextCodec
import SpineFormal.Base.UrlSafe
import SpineFormal.Base.IsoFormat
import SpineFormal.Base.LineFile
import SpineFormal.Base.PsqlSet
import SpineFormal.Json.Loads
import SpineFormal.Federation.Consent
import SpineFormal.Federation.UpdateCascade
import SpineFormal.Federation.CascadeRuns
import SpineFormal.Hub.Decisions
import SpineFormal.Orchestrator.Transition
import SpineFormal.Orchestrator.Gate
import SpineFormal.Orchestrator.ApprovalRuns
import SpineFormal.Orchestrator.ApprovalToken
import SpineFormal.Orchestrator.TokenShapes
import SpineFormal.Orchestrator.TransitionLog
import SpineFormal.Orchestrator.PhaseHistory
import SpineFormal.Orchestrator.PhaseBridge
import SpineFormal.Json.PsqlJson
import SpineFormal.Json.Column
import SpineFormal.Py.Dumps
import SpineFormal.Py.Stable
import SpineFormal.Py.OfJson
import SpineFormal.Plan.DefaultPipeline
import SpineFormal.Plan.ManifestLoader
import SpineFormal.Plan.CapabilityChecker
import SpineFormal.Plan.PsqlBound
import SpineFormal.Plan.BoundValues
import SpineFormal.Plan.Versioning
import SpineFormal.Plan.ProjectLock
import SpineFormal.Plan.PipelineDrift
import SpineFormal.Plan.PhaseEvolution
import SpineFormal.Learning.Consent
import SpineFormal.Cost.Router
import SpineFormal.Secrets.CachedAdapter
import SpineFormal.Standards.LatestVersion
import SpineFormal.Runtime.FileLock
import SpineFormal.Runtime.Watchdog
import SpineFormal.Base.SlidingWindow
import SpineFormal.Runtime.AutoRecovery
import SpineFormal.Base.AsciiSplit
import SpineFormal.Runtime.DbOutbox
import SpineFormal.Runtime.OutboxLine
import SpineFormal.Base.FileTree
import SpineFormal.Runtime.Hygiene
import SpineFormal.Runtime.HygieneRuns
import SpineFormal.Hub.DecisionWrites
import SpineFormal.Hub.RecoveryDispatch
import SpineFormal.Hub.GatePolicy
import SpineFormal.Hub.PipelineRunner
import SpineFormal.Hub.FeatureRequests
import SpineFormal.Hub.FixLoop
import SpineFormal.Hub.FixLoopBound
import SpineFormal.Orchestrator.RetryBudget
import SpineFormal.Verify.BuildArtifact
import SpineFormal.Verify.ScopeFilter
import SpineFormal.Verify.ExecutionVerifier
import SpineFormal.Verify.Layer3
import SpineFormal.Migration.ImportState
import SpineFormal.Migration.ImportIntegrity
import SpineFormal.Base.KeyedTable
import SpineFormal.Kg.DiffEngine
import SpineFormal.Kg.Supersede
import SpineFormal.Kg.ExistingRows
import SpineFormal.Kg.FileWalk
import SpineFormal.Kg.GitDiff
import SpineFormal.Kg.Indexer
import SpineFormal.Kg.IndexRuns
import SpineFormal.Watcher.Outbox
import SpineFormal.Watcher.CostIngest
import SpineFormal.Watcher.OutboxTicks
import SpineFormal.Json.Quotes
import SpineFormal.Audit.StreamRows
import SpineFormal.Base.StableSort
import SpineFormal.Json.RawText
import SpineFormal.Migration.SchemaSlice
import SpineFormal.Base.Regex
import SpineFormal.Base.RegexSub
import SpineFormal.Base.Finditer
import SpineFormal.Base.Replay
import SpineFormal.Audit.BuiltinRules
import SpineFormal.Recovery.Restore
import SpineFormal.Runtime.HygieneSweep
import SpineFormal.Runtime.BoundedRetrieval
import SpineFormal.Hub.ResumeAction
import SpineFormal.Base.RegexFirst
import SpineFormal.Hub.EngineerOutput
import SpineFormal.Hub.DecisionRows
import SpineFormal.Hub.DecisionListing
import SpineFormal.Watcher.InstanceEvents
import SpineFormal.Plan.EvolutionEvents
import SpineFormal.Cost.TierSelection
import SpineFormal.Validation.Consensus
import SpineFormal.Validation.CrossLlm
import SpineFormal.Base.TokenBucket
import SpineFormal.Api.RateLimit
import SpineFormal.Notify.Notifier
import SpineFormal.Cost.UserOverride
import SpineFormal.Base.TopoSort
import SpineFormal.Plan.SprintPlan
import SpineFormal.Plan.DependencyDetection
import SpineFormal.Base.TextRecords
import SpineFormal.Base.CommitMessage
import SpineFormal.Plan.EditHistory
import SpineFormal.Verify.FieldEncryptor
import SpineFormal.Base.BestOf
import SpineFormal.Base.UniqueBy
import SpineFormal.Base.FirstFit
import SpineFormal.Verify.FindingMerge
import SpineFormal.Verify.ManagerMerge
import SpineFormal.Base.GraphWalk
import SpineFormal.Base.QueryRows
import SpineFormal.Kg.CallGraph
import SpineFormal.Kg.FindCallers
import SpineFormal.Kg.ImpactRadius
import SpineFormal.Base.Trails
import SpineFormal.Kg.TraceDependency
import SpineFormal.Kg.SnapshotDiff
import SpineFormal.Base.TextReplace
import SpineFormal.Base.WordRuns
import SpineFormal.Base.BraceBlocks
import SpineFormal.Verify.PathFilters
import SpineFormal.Verify.GlobSegments
import SpineFormal.Verify.GlobExact
import SpineFormal.Verify.GlobLimits
import SpineFormal.Verify.GhostLogic
import SpineFormal.Verify.SignatureOnly
import SpineFormal.Base.Months
import SpineFormal.License.BillingPeriod
import SpineFormal.Kg.CodeNeighborhood
import SpineFormal.Build.BuildArtifact
import SpineFormal.Build.IngestRuns
import SpineFormal.Base.DropOldest
import SpineFormal.Api.EventHub
import SpineFormal.Build.ReportParser
import SpineFormal.Kg.SpineIds
import SpineFormal.Kg.MarkdownParser
import SpineFormal.Build.FilesTouched
import SpineFormal.Json.Indented
import SpineFormal.Reproducibility.Manifest
import SpineFormal.Reproducibility.Replay
import SpineFormal.Reproducibility.SavedManifest
import SpineFormal.Orchestrator.Remediation
import SpineFormal.Base.Markers
import SpineFormal.Verify.HandoffFiles
import SpineFormal.Verify.BudgetReservation
import SpineFormal.Verify.CircuitBreaker
import SpineFormal.Runtime.RoleWorker
import SpineFormal.Api.CookieSessions
import SpineFormal.Migration.SpineVersion
import SpineFormal.Migration.ExportState
import SpineFormal.Base.FirstOfKey
import SpineFormal.Base.StateGraph
import SpineFormal.Plan.Synthesis
import SpineFormal.Plan.SwarmEngine
