import ZeroTrace.SharedRead
import ZeroTrace.TraceBuffer
import ZeroTrace.RingProducer
import ZeroTrace.RingReader
import ZeroTrace.RingStill
import ZeroTrace.RingAccounting
import ZeroTrace.RingSnapshot
import ZeroTrace.FilterSyntax
import ZeroTrace.FilterGrammar
import ZeroTrace.FilterEval
import ZeroTrace.ReadTrace
import ZeroTrace.FilterReads
import ZeroTrace.CText
import ZeroTrace.FilterLexer
import ZeroTrace.FilterText
import ZeroTrace.NumberReads
import ZeroTrace.FilterPrinter
import ZeroTrace.ProbeTable
import ZeroTrace.CallActions
import ZeroTrace.ByteMemory
import ZeroTrace.PatchCode
import ZeroTrace.TrampolinePool
import ZeroTrace.ProbeLifecycle
import ZeroTrace.ProbeInvariant
import ZeroTrace.ProbeSteps
import ZeroTrace.ProbeOps
import ZeroTrace.ProbeRuns
import ZeroTrace.ProbeText
import ZeroTrace.ProbeOverlap
import ZeroTrace.ShadowStack
import ZeroTrace.TargetThreads
import ZeroTrace.EventLog
import ZeroTrace.CallIds
import ZeroTrace.ActionTable
import ZeroTrace.CodeBuffer
import ZeroTrace.X86Trampoline
import ZeroTrace.Arm64Trampoline
import ZeroTrace.SlotOwnership
import ZeroTrace.PoolRuns
import ZeroTrace.RunState
import ZeroTrace.AddressOrigin
import ZeroTrace.CliSession
import ZeroTrace.SharedCalls
import ZeroTrace.ThreadControl
import ZeroTrace.ThreadTable
import ZeroTrace.GroupStop
import ZeroTrace.SessionRuns
import ZeroTrace.StopNotes
import ZeroTrace.AttachCleanup
import ZeroTrace.CodeListing
import ZeroTrace.X86Replay
import ZeroTrace.Arm64Replay
import ZeroTrace.PrologueReplay
import ZeroTrace.RingDrain
import ZeroTrace.ShadowOverflow
import ZeroTrace.SignalReentry
import ZeroTrace.Backtracking
import ZeroTrace.LogMerge
import ZeroTrace.X86Flow
import ZeroTrace.Arm64Flow
import ZeroTrace.LinearSweep
import ZeroTrace.PatchCoverage
import ZeroTrace.RelativeCopies
import ZeroTrace.PatchTargets
import ZeroTrace.WordMemory
import ZeroTrace.StubContext
import ZeroTrace.X86Stub
import ZeroTrace.Arm64Stub
import ZeroTrace.ContextIntegrity
import ZeroTrace.FormatWalk
import ZeroTrace.BufferPreviews
import ZeroTrace.RemoteExec
import ZeroTrace.PatchSafety
import ZeroTrace.InstallRollback
import ZeroTrace.BorrowedCode
import ZeroTrace.CodeGivenBack
import ZeroTrace.SymbolRegistry
import ZeroTrace.RemoteMemory
import ZeroTrace.RemoteStrings
import ZeroTrace.ElfSymbols
import ZeroTrace.VariadicArgs
import ZeroTrace.SigRoundTrip
import ZeroTrace.EventPreviews
import ZeroTrace.MergeLogs
import ZeroTrace.PayloadAction
import ZeroTrace.X86Calls
import ZeroTrace.Arm64Calls
import ZeroTrace.SigFile
