import CrabMate.Queue.Cancellation
import CrabMate.Queue.Drain
import CrabMate.Context.Orphans
import CrabMate.Context.Agreement
import CrabMate.Store.Orphans
import CrabMate.Store.Truncation
import CrabMate.Store.Reexpand
import CrabMate.Session.Backends
import CrabMate.Session.Clients
import CrabMate.Tools.PatchPaths
import CrabMate.Tools.PatchSplit
import CrabMate.Tools.ArchiveRoundTrip
import CrabMate.Context.Compacted
import CrabMate.Tools.CommandViews
import CrabMate.Tools.LiveOutput
import CrabMate.Approval.Answers
import CrabMate.Stream.Bridge
import CrabMate.Stream.Resume
import CrabMate.Jobs.Admission
import CrabMate.Jobs.Matching
import CrabMate.Tools.ScheduleIds
import CrabMate.Http.AllowlistKeys
import CrabMate.Files.Turn
import CrabMate.Files.Pages
import CrabMate.Files.Batch
import CrabMate.Memory.Recall
import CrabMate.Tools.DateOffsets
import CrabMate.Tools.SearchReplace
import CrabMate.Llm.Reasoning
import CrabMate.Llm.TurnSegments
import CrabMate.Llm.SseFields
import CrabMate.Index.ChunkCover
import CrabMate.Index.Runs
import CrabMate.Index.Coverage
import CrabMate.Tools.ArgGate
import CrabMate.Tools.ArgsRepaired
import CrabMate.Tools.UnsafeScan
import CrabMate.Tools.CacheEligible
import CrabMate.Tools.TestResultCache
import CrabMate.Tools.Compression
import CrabMate.Llm.WireBody
import CrabMate.Context.Replayed
import CrabMate.Agent.OuterLoop
import CrabMate.Agent.Permission
import CrabMate.Ctl.Profiles
import CrabMate.Ctl.PlanSafety
import CrabMate.Ctl.Declarations
import CrabMate.Ctl.BackoffCurve
import CrabMate.Ctl.LogTail
import CrabMate.Ctl.Interleave
import CrabMate.Ctl.GcRuns
import CrabMate.Layout.Persist
import CrabMate.Workflow.Permits
import CrabMate.Workflow.Confluence
import CrabMate.Workflow.Guards
import CrabMate.Workflow.Expansion
import CrabMate.Workflow.Compensation
import CrabMate.Index.Ranking
import CrabMate.Structured.SetGet
import CrabMate.Structured.Diff
import CrabMate.Structured.Csv
import CrabMate.Structured.TomlPatch
