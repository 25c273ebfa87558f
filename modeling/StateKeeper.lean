import StateKeeper.Foundation.Fallible
import StateKeeper.Foundation.Words
import StateKeeper.Foundation.WordBuffers
import StateKeeper.Foundation.SaturatingSum
import StateKeeper.Foundation.SortedKeys
import StateKeeper.Foundation.KeyedMap
import StateKeeper.Foundation.CompactTrie
import StateKeeper.Foundation.TriePath
import StateKeeper.Foundation.MerkleTree
import StateKeeper.Foundation.Keccak
import StateKeeper.Foundation.Runs
import StateKeeper.Foundation.ListUpdate
import StateKeeper.Foundation.WorstSets
import StateKeeper.Foundation.BinarySearch
import StateKeeper.Engine.Types
import StateKeeper.Engine.Crypto
import StateKeeper.Engine.Smt2
import StateKeeper.Engine.Smt2Spec
import StateKeeper.Engine.Smt2Binding
import StateKeeper.Engine.WideMath
import StateKeeper.Engine.WideMathSpec
import StateKeeper.Engine.Scenario
import StateKeeper.Engine.MarginSpec
import StateKeeper.Engine.ShortfallSpec
import StateKeeper.Engine.Encoding
import StateKeeper.Engine.Settlement
import StateKeeper.Engine.OpenLock
import StateKeeper.Engine.OpenSpec
import StateKeeper.Engine.TermsBuffer
import StateKeeper.Engine.Concrete
import StateKeeper.Engine.Completeness
import StateKeeper.Engine.Resolve
import StateKeeper.Engine.ResolveSpec
import StateKeeper.Engine.MarkSpec
import StateKeeper.Engine.Handoff
import StateKeeper.Engine.Unwind
import StateKeeper.Engine.StateTransition
import StateKeeper.Engine.TransitionSpec
import StateKeeper.Engine.CompletenessSpec
import StateKeeper.Engine.HandoffSpec
import StateKeeper.Engine.UnwindSpec
import StateKeeper.Engine.Consents
import StateKeeper.Engine.RequirementSpec
import StateKeeper.Tree.Events
import StateKeeper.Tree.Scan
import StateKeeper.Tree.ScanSpec
import StateKeeper.Tree.LogScan
import StateKeeper.Tree.OpenSigs
import StateKeeper.Tree.Replay
import StateKeeper.Tree.Concrete
import StateKeeper.Tree.OpenConversion
import StateKeeper.Tree.TermsIdentity
import StateKeeper.Tree.OpenRecovery
import StateKeeper.Tree.ReplaySpec
import StateKeeper.Tree.Invariant
import StateKeeper.Tree.Coverage
import StateKeeper.Tree.AccountSpec
import StateKeeper.Tree.ChosenRows
import StateKeeper.Tree.Reorder
import StateKeeper.Tree.Provenance
import StateKeeper.Tree.MarginRun
import StateKeeper.Tree.RebuildSpec
import StateKeeper.Tree.Frames
import StateKeeper.Tree.Staging
import StateKeeper.Tree.FramesSpec
import StateKeeper.Tree.Rerun
import StateKeeper.Tree.Prediction
import StateKeeper.Tree.RootBinding
import StateKeeper.Tree.LandedFolds
import StateKeeper.Tree.SeatOrigins
import StateKeeper.Keeper.EpochInputs
import StateKeeper.Keeper.Concrete
import StateKeeper.Keeper.EpochInputsSpec
import StateKeeper.Keeper.Acceptance
import StateKeeper.Keeper.SettleRecovery
import StateKeeper.Keeper.Pauses
import StateKeeper.Keeper.PauseRecovery
import StateKeeper.Keeper.SettleClock
import StateKeeper.Keeper.ZeroSum
import StateKeeper.Keeper.CashRows
import StateKeeper.Keeper.QuietAdvance
import StateKeeper.Keeper.Advance
import StateKeeper.Keeper.RacingKeepers
import StateKeeper.Keeper.FoldReplay
import StateKeeper.Keeper.MarkRecovery
import StateKeeper.Keeper.ExtraTouches
import StateKeeper.Keeper.RebuildRun
import StateKeeper.Keeper.Progress
