import IcLaya.Apportionment
import IcLaya.AttemptVerdicts
import IcLaya.BinaryCodecs
import IcLaya.BudgetAccounting
import IcLaya.ByteFrames
import IcLaya.CachedEvaluations
import IcLaya.CanonicalPreimages
import IcLaya.CellCoherence
import IcLaya.CheckedWords
import IcLaya.ContinuationCodec
import IcLaya.DecisionEngine
import IcLaya.DecisionMath
import IcLaya.DecisionValues
import IcLaya.Digests
import IcLaya.DispatchAuthorization
import IcLaya.EngineRuns
import IcLaya.EngineState
import IcLaya.EquivalentTransfers
import IcLaya.EvaluatedCommands
import IcLaya.ExactlyOnceTransfer
import IcLaya.ExecutorCanister
import IcLaya.FailedDispatches
import IcLaya.Fallible
import IcLaya.FixedPointEpilogue
import IcLaya.Fixtures
import IcLaya.HfTokenizer
import IcLaya.Int8Products
import IcLaya.InvariantChecks
import IcLaya.JsonDocuments
import IcLaya.LaneChunks
import IcLaya.LaneProducts
import IcLaya.LayaModel
import IcLaya.LedgerConversion
import IcLaya.LifecycleInvariant
import IcLaya.ListUpdates
import IcLaya.LoopOutcomes
import IcLaya.ManifestLoading
import IcLaya.MarkedPieces
import IcLaya.MarkerRows
import IcLaya.MockLedger
import IcLaya.ModelPack
import IcLaya.OperationExclusivity
import IcLaya.OperationSpecs
import IcLaya.OrderedMaps
import IcLaya.OwnerRevocation
import IcLaya.PackExporter
import IcLaya.PackExports
import IcLaya.PackReading
import IcLaya.PackTables
import IcLaya.PagedMemory
import IcLaya.PairedRuns
import IcLaya.PanickingCode
import IcLaya.PromptPieces
import IcLaya.ProposalTriage
import IcLaya.QuantizedAttention
import IcLaya.QuantizedContinuation
import IcLaya.QuantizedEngine
import IcLaya.QuantizedLayers
import IcLaya.QuantizedLinear
import IcLaya.QuantizedTensors
import IcLaya.QueryHandlers
import IcLaya.QuerySchedules
import IcLaya.QueryService
import IcLaya.QuerySession
import IcLaya.QueryTransport
import IcLaya.RaisingMethods
import IcLaya.RankedLists
import IcLaya.ReceiptInvariant
import IcLaya.ReconciliationLockstep
import IcLaya.ReconciliationNeutrality
import IcLaya.RequestLifecycle
import IcLaya.ResumableUpload
import IcLaya.RevocationFinality
import IcLaya.RowBuffers
import IcLaya.RowQuantizers
import IcLaya.SchemaCompiler
import IcLaya.SessionFailures
import IcLaya.SessionProgress
import IcLaya.Sha256
import IcLaya.SingleArithmetic
import IcLaya.SingleLayers
import IcLaya.SingleRounding
import IcLaya.SlotEvaluations
import IcLaya.SlotExchanges
import IcLaya.SnapshotLayout
import IcLaya.Snapshots
import IcLaya.StagedRuns
import IcLaya.StoreLoops
import IcLaya.SubmissionNonces
import IcLaya.TiledExtents
import IcLaya.TokenJobs
import IcLaya.TransferComposition
import IcLaya.TransferInvariant
import IcLaya.TransitionSystems
import IcLaya.TriagePriority
import IcLaya.TypedViews
import IcLaya.UniqueReading
import IcLaya.VettedDispatches
import IcLaya.Warmup
import IcLaya.WireTypes
import IcLaya.WordStreams
import IcLaya.Workflow
import IcLaya.WorkflowChanges
import IcLaya.WorkflowRecords
import IcLaya.WorkflowRuns
