import CrabMate.Lib.Board
import CrabMate.Lib.Station
import CrabMate.Lib.Str

/-! The queue of chat jobs: a bounded channel in front of a dispatcher that starts a job when it
has one of the permits the queue shares with the short commands, and the board of cancel flags of
the stream jobs. The parties take their steps one at a time, in any order. -/
namespace CrabMate
open RustStr

namespace ChatJobQueue

def recentCap : ℕ := 32

/-- The place of a cancel flag. -/
abbrev CancelFlag := ℕ

inductive QueuedChatJob where
  | stream (jobId : ℕ) (cancel : CancelFlag)
  | json (jobId : ℕ)
  deriving DecidableEq

namespace QueuedChatJob

def jobId : QueuedChatJob → ℕ
  | .stream jobId _ => jobId
  | .json jobId => jobId

def kindLabel : QueuedChatJob → Str
  | .stream .. => "stream".toList
  | .json _ => "json".toList

/-- The job with its flag, if it has one. -/
def ticket? : QueuedChatJob → Option Board.Ticket
  | .stream jobId cancel => some (jobId, some cancel)
  | .json _ => none

end QueuedChatJob

structure JobOutcome where
  ok : Bool
  cancelled : Bool
  err : Option Str
  deriving DecidableEq

structure ChatJobRecord where
  jobId : ℕ
  kind : Str
  ok : Bool
  cancelled : Bool
  durationMs : ℕ
  errorPreview : Option Str
  deriving DecidableEq

structure QueueMetrics where
  running : ℕ
  completedOk : ℕ
  completedCancelled : ℕ
  completedErr : ℕ
  deriving DecidableEq

/-- `pending` is what the channel holds, `turnSem` the free permits. -/
structure Inner where
  pending : List QueuedChatJob
  turnSem : ℕ
  maxConcurrent : ℕ
  maxPending : ℕ
  nextJobId : ℕ
  metrics : QueueMetrics
  recent : List ChatJobRecord
  streamCancels : Table (Prod.fst : ℕ × CancelFlag → ℕ)
  flags : List Bool
  shutdownTriggered : Bool

inductive JobKind where
  | stream
  | json
  deriving DecidableEq

/-- A request on its way into the queue. -/
inductive Submission where
  | drawn (jobId : ℕ) (kind : JobKind)
  | admitted (jobId : ℕ) (kind : JobKind)
  | registered (jobId : ℕ) (cancel : CancelFlag)
  | full (jobId : ℕ) (cancel : CancelFlag)
  deriving DecidableEq

namespace Submission

def ticket : Submission → Board.Ticket
  | .drawn jobId _ | .admitted jobId _ => (jobId, none)
  | .registered jobId cancel | .full jobId cancel => (jobId, some cancel)

end Submission

/-- The dispatcher between two jobs, with a job it has no permit for yet, and with both. -/
inductive Dispatcher where
  | idle
  | waiting (job : QueuedChatJob)
  | permitted (job : QueuedChatJob)
  deriving DecidableEq

namespace Dispatcher

def held : Dispatcher → List QueuedChatJob
  | .idle => []
  | .waiting job | .permitted job => [job]

def permits : Dispatcher → ℕ
  | .permitted _ => 1
  | _ => 0

end Dispatcher

/-- How far `finish_dispatched_job` has come. The permit goes back after the last phase. -/
inductive Phase where
  | executing
  | ended (outcome : JobOutcome)
  | unregistered (outcome : JobOutcome)
  | uncounted (outcome : JobOutcome)
  | bumped (outcome : JobOutcome)
  | recorded (outcome : JobOutcome)
  deriving DecidableEq

namespace Phase

/-- The job still counts as running. -/
def counts : Phase → Bool
  | .executing | .ended _ | .unregistered _ => true
  | _ => false

/-- The flag of a stream job is still on the board. -/
def entered : Phase → Bool
  | .executing | .ended _ => true
  | _ => false

/-- The outcome is counted in the metrics and not yet among the records. -/
def bumped? : Phase → Option JobOutcome
  | .bumped outcome => some outcome
  | _ => none

def isRecorded : Phase → Bool
  | .recorded _ => true
  | _ => false

end Phase

structure Worker where
  job : QueuedChatJob
  phase : Phase
  deriving DecidableEq

namespace Worker

def ticket? (w : Worker) : Option Board.Ticket :=
  if w.phase.entered then w.job.ticket? else none

end Worker

/-- What has happened: the jobs `try_submit_*` accepted, those started and those whose permit came
back, in order; the records written; the workers that died of a panic; the ids of the stream jobs
whose flag was set. -/
structure History where
  accepted : List QueuedChatJob
  started : List QueuedChatJob
  gone : List QueuedChatJob
  records : List ChatJobRecord
  panicked : List QueuedChatJob
  cancelled : List ℕ

/-- The queue with the parties at work on it; `btw` counts the short commands with a permit. -/
structure ChatSystem where
  inner : Inner
  submissions : List Submission
  dispatcher : Dispatcher
  workers : List Worker
  btw : ℕ
  history : History

/-- `ChatJobQueue::new`. -/
def new (maxConcurrent maxPending : ℕ) : ChatSystem where
  inner := {
    pending := []
    turnSem := max maxConcurrent 1
    maxConcurrent := max maxConcurrent 1
    maxPending := max maxPending 1
    nextJobId := 1
    metrics := ⟨0, 0, 0, 0⟩
    recent := []
    streamCancels := .empty
    flags := []
    shutdownTriggered := false }
  submissions := []
  dispatcher := .idle
  workers := []
  btw := 0
  history := ⟨[], [], [], [], [], []⟩

/-- `recent_jobs`: the newest first. -/
def Inner.recentJobs (g : Inner) : List ChatJobRecord := g.recent.reverse

/-- The push of a record, with the oldest ones dropped beyond the capacity. -/
def pushRecent (recent : List ChatJobRecord) (record : ChatJobRecord) : List ChatJobRecord :=
  let g := recent ++ [record]
  g.drop (g.length - recentCap)

def bumpJobCompletionMetrics (m : QueueMetrics) (outcome : JobOutcome) : QueueMetrics :=
  if outcome.cancelled then { m with completedCancelled := m.completedCancelled + 1 }
  else if outcome.ok then { m with completedOk := m.completedOk + 1 }
  else { m with completedErr := m.completedErr + 1 }

def recordOf (job : QueuedChatJob) (outcome : JobOutcome) (durationMs : ℕ) : ChatJobRecord where
  jobId := job.jobId
  kind := job.kindLabel
  ok := outcome.ok
  cancelled := outcome.cancelled
  durationMs := durationMs
  errorPreview := outcome.err

/-- `store(true)` on the flag at a place. -/
def Inner.store (g : Inner) (cancel : CancelFlag) : Inner :=
  { g with flags := g.flags.set cancel true }

def Inner.requestStreamCancel (g : Inner) (jobId : ℕ) : Bool × Inner :=
  match g.streamCancels.lookup jobId with
  | none => (false, g)
  | some row => (true, g.store row.2)

inductive QueueOp where
  | nextJobId (kind : JobKind)
  | abandon (i : ℕ)
  | rejectIfShutdown (i : ℕ)
  | registerStreamCancel (i : ℕ)
  | trySend (i : ℕ)
  | unregisterRejected (i : ℕ)
  | recv
  | acquire
  | spawn
  | runEnds (i : ℕ) (outcome : JobOutcome)
  | finish (i durationMs : ℕ)
  | panics (i : ℕ)
  | sseClosed (i : ℕ)
  | requestStreamCancel (jobId : ℕ)
  | btwAcquire
  | btwRelease
  | shutdown
  deriving DecidableEq

namespace ChatSystem

def setSubmission (s : ChatSystem) (i : ℕ) (submission : Submission) : ChatSystem :=
  { s with submissions := s.submissions.set i submission }

def endSubmission (s : ChatSystem) (i : ℕ) : ChatSystem :=
  { s with submissions := s.submissions.eraseIdx i }

/-- The job is in the channel and `try_submit_*` returns. -/
def enqueue (s : ChatSystem) (i : ℕ) (job : QueuedChatJob) : ChatSystem :=
  { s.endSubmission i with
    inner := { s.inner with pending := s.inner.pending ++ [job] }
    history := { s.history with accepted := s.history.accepted ++ [job] } }

def unregisterStreamCancel (s : ChatSystem) (jobId : ℕ) : ChatSystem :=
  { s with
    inner := { s.inner with
      streamCancels := s.inner.streamCancels.deleteWhere fun row => row.1 = jobId } }

/-- The requests inside `try_submit_stream` and `try_submit_json`. -/
def submit (s : ChatSystem) (i : ℕ) (op : Submission → ChatSystem) : ChatSystem :=
  match s.submissions[i]? with
  | none => s
  | some submission => op submission

def abandon (s : ChatSystem) (i : ℕ) : Submission → ChatSystem
  | .drawn .. => s.endSubmission i
  | _ => s

def rejectIfShutdown (s : ChatSystem) (i : ℕ) : Submission → ChatSystem
  | .drawn jobId kind =>
    if s.inner.shutdownTriggered then s.endSubmission i
    else s.setSubmission i (.admitted jobId kind)
  | _ => s

def registerStreamCancel (s : ChatSystem) (i : ℕ) : Submission → ChatSystem
  | .admitted jobId .stream =>
    { s.setSubmission i (.registered jobId s.inner.flags.length) with
      inner := { s.inner with
        streamCancels := s.inner.streamCancels.put (jobId, s.inner.flags.length)
        flags := s.inner.flags ++ [false] } }
  | _ => s

def trySend (s : ChatSystem) (i : ℕ) : Submission → ChatSystem
  | .admitted jobId .json =>
    if s.inner.pending.length < s.inner.maxPending then s.enqueue i (.json jobId)
    else s.endSubmission i
  | .registered jobId cancel =>
    if s.inner.pending.length < s.inner.maxPending then s.enqueue i (.stream jobId cancel)
    else s.setSubmission i (.full jobId cancel)
  | _ => s

def unregisterRejected (s : ChatSystem) (i : ℕ) : Submission → ChatSystem
  | .full jobId _ => (s.endSubmission i).unregisterStreamCancel jobId
  | _ => s

def recv (s : ChatSystem) : ChatSystem :=
  match s.dispatcher, s.inner.pending with
  | .idle, job :: pending =>
    { s with dispatcher := .waiting job, inner := { s.inner with pending := pending } }
  | _, _ => s

def acquire (s : ChatSystem) : ChatSystem :=
  match s.dispatcher with
  | .waiting job =>
    if 0 < s.inner.turnSem then
      { s with
        dispatcher := .permitted job, inner := { s.inner with turnSem := s.inner.turnSem - 1 } }
    else s
  | _ => s

def spawn (s : ChatSystem) : ChatSystem :=
  match s.dispatcher with
  | .permitted job =>
    { s with
      dispatcher := .idle
      workers := s.workers ++ [⟨job, .executing⟩]
      inner := { s.inner with
        metrics := { s.inner.metrics with running := s.inner.metrics.running + 1 } }
      history := { s.history with started := s.history.started ++ [job] } }
  | _ => s

/-- The workers, known by their place among those with a permit. -/
def work (s : ChatSystem) (i : ℕ) (op : Worker → ChatSystem) : ChatSystem :=
  match s.workers[i]? with
  | none => s
  | some w => op w

def setPhase (s : ChatSystem) (i : ℕ) (job : QueuedChatJob) (phase : Phase) : ChatSystem :=
  { s with workers := s.workers.set i ⟨job, phase⟩ }

/-- The worker is over and its permit is free again. -/
def releasePermit (s : ChatSystem) (i : ℕ) (job : QueuedChatJob) : ChatSystem :=
  { s with
    workers := s.workers.eraseIdx i
    inner := { s.inner with turnSem := s.inner.turnSem + 1 }
    history := { s.history with gone := s.history.gone ++ [job] } }

def runEnds (s : ChatSystem) (i : ℕ) (outcome : JobOutcome) (w : Worker) : ChatSystem :=
  match w.phase with
  | .executing => s.setPhase i w.job (.ended outcome)
  | _ => s

/-- `finish_dispatched_job` after the run of the job, one access to the shared state at a time. -/
def finish (s : ChatSystem) (i durationMs : ℕ) (w : Worker) : ChatSystem :=
  match w.phase with
  | .executing => s
  | .ended outcome =>
    let s' := s.setPhase i w.job (.unregistered outcome)
    match w.job with
    | .stream jobId _ => s'.unregisterStreamCancel jobId
    | .json _ => s'
  | .unregistered outcome =>
    { s.setPhase i w.job (.uncounted outcome) with
      inner := { s.inner with
        metrics := { s.inner.metrics with running := s.inner.metrics.running - 1 } } }
  | .uncounted outcome =>
    { s.setPhase i w.job (.bumped outcome) with
      inner := { s.inner with metrics := bumpJobCompletionMetrics s.inner.metrics outcome } }
  | .bumped outcome =>
    let record := recordOf w.job outcome durationMs
    { s.setPhase i w.job (.recorded outcome) with
      inner := { s.inner with recent := pushRecent s.inner.recent record }
      history := { s.history with records := s.history.records ++ [record] } }
  | .recorded _ => s.releasePermit i w.job

/-- A panic in the run of the job unwinds `finish_dispatched_job`, which gives the permit back. -/
def panics (s : ChatSystem) (i : ℕ) (w : Worker) : ChatSystem :=
  match w.phase with
  | .executing =>
    let s' := s.releasePermit i w.job
    { s' with history := { s'.history with panicked := s.history.panicked ++ [w.job] } }
  | _ => s

def noteCancelled (s : ChatSystem) (jobId : ℕ) : ChatSystem :=
  { s with history := { s.history with cancelled := s.history.cancelled ++ [jobId] } }

/-- The watcher of a stream job sets the flag when the event channel is closed. -/
def sseClosed (s : ChatSystem) (w : Worker) : ChatSystem :=
  match w.job, w.phase with
  | .stream jobId cancel, .executing =>
    { s with inner := s.inner.store cancel }.noteCancelled jobId
  | _, _ => s

def requestCancel (s : ChatSystem) (jobId : ℕ) : ChatSystem :=
  match s.inner.requestStreamCancel jobId with
  | (false, _) => s
  | (true, g) => { s with inner := g }.noteCancelled jobId

def step (s : ChatSystem) : QueueOp → ChatSystem
  | .nextJobId kind =>
    { s with
      submissions := s.submissions ++ [.drawn s.inner.nextJobId kind]
      inner := { s.inner with nextJobId := s.inner.nextJobId + 1 } }
  | .abandon i => s.submit i (s.abandon i)
  | .rejectIfShutdown i => s.submit i (s.rejectIfShutdown i)
  | .registerStreamCancel i => s.submit i (s.registerStreamCancel i)
  | .trySend i => s.submit i (s.trySend i)
  | .unregisterRejected i => s.submit i (s.unregisterRejected i)
  | .recv => s.recv
  | .acquire => s.acquire
  | .spawn => s.spawn
  | .runEnds i outcome => s.work i (s.runEnds i outcome)
  | .finish i durationMs => s.work i (s.finish i durationMs)
  | .panics i => s.work i (s.panics i)
  | .sseClosed i => s.work i s.sseClosed
  | .requestStreamCancel jobId => s.requestCancel jobId
  | .btwAcquire =>
    if 0 < s.inner.turnSem then
      { s with btw := s.btw + 1, inner := { s.inner with turnSem := s.inner.turnSem - 1 } }
    else s
  | .btwRelease =>
    if 0 < s.btw then
      { s with btw := s.btw - 1, inner := { s.inner with turnSem := s.inner.turnSem + 1 } }
    else s
  | .shutdown => { s with inner := { s.inner with shutdownTriggered := true } }

end ChatSystem

end ChatJobQueue
end CrabMate
