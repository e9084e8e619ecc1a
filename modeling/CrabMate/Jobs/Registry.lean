import CrabMate.Lib.Table
import CrabMate.Jobs.Output
import Mathlib.Data.Int.Notation

/-! The registry of background tool jobs: admission, the start of queued jobs, cancellation,
completion and expiry. Every operation runs under one lock; the callbacks it takes out of the
table are called after the lock is released. -/
namespace CrabMate

inductive JobStatus where
  | queued
  | running
  | succeeded
  | failed
  | cancelled
  | timedOut
  deriving DecidableEq

namespace JobStatus

def isTerminal : JobStatus → Bool
  | .queued | .running => false
  | _ => true

end JobStatus

structure JobOutcome where
  status : JobStatus
  exitCode : Option ℤ
  stdout : List UInt8
  stderr : List UInt8
  errorCode : Option String
  failureCategory : Option String
  deriving DecidableEq

structure JobSpawn where
  program : String
  args : List String
  cwd : String
  extraEnv : List (String × String)
  wall : ℕ
  maxOutputLen : ℕ
  deriving DecidableEq

/-- Times are nanoseconds on the system clock, which may be set back. -/
structure JobRecord where
  id : String
  workspace : String
  sourceTurnJobId : Option ℕ
  status : JobStatus
  createdAt : ℤ
  finishedAt : Option ℤ
  cancelRequested : Bool
  cancelFlag : Bool
  spawn : JobSpawn
  argsJson : String
  workspaceChanged : Bool
  outcome : Option JobOutcome
  deriving DecidableEq

structure JobLimits where
  maxConcurrent : ℕ
  maxQueued : ℕ
  ttl : ℕ
  grace : ℕ
  maxEntries : ℕ
  outputBufferBytes : ℕ

/-- A finished callback, known by a label. -/
abbrev JobFinishedSink := ℕ

/-- A call of a callback with the job and its outcome. -/
structure SinkCall where
  sink : JobFinishedSink
  id : String
  outcome : JobOutcome
  deriving DecidableEq

/-- The map hands its entries out in some order. -/
structure JobIteration where
  order : List JobRecord → List JobRecord
  perm : ∀ records, (order records).Perm records

inductive RegisterError where
  | queueFull
  | atCapacity
  deriving DecidableEq

inductive CancelOutcome where
  | cancelled
  | alreadyFinished (status : JobStatus)
  | expired
  | notFound
  deriving DecidableEq

inductive GetOutcome where
  | found (record : JobRecord)
  | expired
  | notFound
  deriving DecidableEq

inductive OutputPollOutcome where
  | found (status : JobStatus) (workspace : String) (logRead : OutputLogRead) (eof : Bool)
  | expired
  | notFound
  deriving DecidableEq

def maxExpiredIds : ℕ := 2048

structure Inner where
  jobs : Table JobRecord.id
  outputs : Table (Prod.fst : String × JobOutputLog → String)
  finishedSinks : Table (Prod.fst : String × JobFinishedSink → String)
  queue : List String
  running : ℕ
  outputEventsDropped : ℕ
  expired : List String
  deriving DecidableEq

/-- `saturating_add` on 64 bits. -/
def saturatingAddU64 (a b : ℕ) : ℕ := min (a + b) (UInt64.size - 1)

/-- `duration_since`, zero when the clock went back. -/
def durationSince (now earlier : ℤ) : ℕ := (now - earlier).toNat

/-- The retention and the grace period of a finished job are both over. -/
def JobRecord.pastRetention (r : JobRecord) (limits : JobLimits) (now : ℤ) : Bool :=
  limits.ttl ≤ durationSince now r.createdAt &&
    limits.grace ≤ ((r.finishedAt.map (durationSince now)).getD 0)

namespace Inner

def new : Inner := ⟨.empty, .empty, .empty, [], 0, 0, []⟩

def rememberExpired (g : Inner) (id : String) : Inner :=
  let expired := if maxExpiredIds ≤ g.expired.length then g.expired.tail else g.expired
  { g with expired := if id ∈ expired then expired else expired ++ [id] }

/-- The removal of an expired or evicted job from the three tables. -/
def forget (g : Inner) (id : String) : Inner :=
  rememberExpired
    { g with
      jobs := g.jobs.deleteWhere fun r => r.id = id
      outputs := g.outputs.deleteWhere fun o => o.1 = id
      finishedSinks := g.finishedSinks.deleteWhere fun k => k.1 = id } id

/-- What an unknown id was. -/
def missing (g : Inner) (id : String) : GetOutcome :=
  if id ∈ g.expired then .expired else .notFound

/-- The first of the records with the least creation time. -/
def oldest : List JobRecord → Option JobRecord
  | [] => none
  | r :: rest =>
    match oldest rest with
    | none => some r
    | some q => if q.createdAt < r.createdAt then some q else some r

theorem oldest_mem {records : List JobRecord} {r : JobRecord} (h : oldest records = some r) :
    r ∈ records := by
  induction records with
  | nil => cases h
  | cons first rest ih =>
    rw [oldest] at h
    split at h
    · cases h
      exact List.mem_cons_self
    · next q hq =>
      split at h
      · cases h
        exact List.mem_cons_of_mem _ (ih hq)
      · cases h
        exact List.mem_cons_self

/-- Evicts the oldest finished job, if there is one. -/
def evictOneTerminal (g : Inner) (iteration : JobIteration) : Option Inner :=
  match oldest ((iteration.order g.jobs.rows).filter fun r => r.status.isTerminal) with
  | none => none
  | some r =>
    let g := g.forget r.id
    some { g with queue := g.queue.filter (· ≠ r.id) }

/-- The entry check of `register`. -/
def makeRoom (g : Inner) (limits : JobLimits) (iteration : JobIteration) :
    Except RegisterError Unit × Inner :=
  if limits.maxEntries ≤ g.jobs.rows.length then
    match g.evictOneTerminal iteration with
    | none => (.error .atCapacity, g)
    | some g => (.ok (), g)
  else (.ok (), g)

def enrol (g : Inner) (record : JobRecord) (finishedSink : Option JobFinishedSink) : Inner :=
  { g with
    jobs := g.jobs.put record
    outputs := g.outputs.put (record.id, .default)
    finishedSinks := match finishedSink with
      | some sink => g.finishedSinks.put (record.id, sink)
      | none => g.finishedSinks
    queue := g.queue ++ [record.id] }

/-- `id` is the identifier drawn in case of success. -/
def register (g : Inner) (limits : JobLimits) (iteration : JobIteration) (id : String) (now : ℤ)
    (workspace : String) (sourceTurnJobId : Option ℕ) (spawn : JobSpawn) (argsJson : String)
    (finishedSink : Option JobFinishedSink) : Except RegisterError String × Inner :=
  match g.makeRoom limits iteration with
  | (.error e, g) => (.error e, g)
  | (.ok (), g) =>
    if limits.maxConcurrent ≤ g.running ∧ limits.maxQueued ≤ g.queue.length then
      (.error .queueFull, g)
    else
      (.ok id, g.enrol ⟨id, workspace, sourceTurnJobId, .queued, now, none, false, false, spawn,
        argsJson, false, none⟩ finishedSink)

def getChecked (g : Inner) (limits : JobLimits) (id : String) (now : ℤ) : GetOutcome × Inner :=
  match g.jobs.lookup id with
  | none => (g.missing id, g)
  | some record =>
    if record.status.isTerminal && record.pastRetention limits now then (.expired, g.forget id)
    else (.found record, g)

def pushOutput (g : Inner) (limits : JobLimits) (id : String) (stream : SessionStream)
    (text : String) : Bool × Inner :=
  match g.outputs.lookup id with
  | none => (false, g)
  | some (_, log) =>
    let (log, dropped) := log.push stream text limits.outputBufferBytes
    (true,
      { g with
        outputs := g.outputs.updateWhere (fun o => o.1 = id) (fun o => (o.1, log)) fun _ => rfl
        outputEventsDropped := saturatingAddU64 g.outputEventsDropped dropped })

def pollOutput (g : Inner) (limits : JobLimits) (id : String) (cursor : Option ℕ) (now : ℤ) :
    OutputPollOutcome × Inner :=
  match g.jobs.lookup id with
  | none => (if id ∈ g.expired then .expired else .notFound, g)
  | some record =>
    if record.status.isTerminal && record.pastRetention limits now then (.expired, g.forget id)
    else
      let (logRead, written) := match g.outputs.lookup id with
        | some (_, log) => (log.read cursor, log.written)
        | none => (JobOutputLog.default.read cursor, 0)
      (.found record.status record.workspace logRead
        (record.status.isTerminal && written < logRead.nextCursor), g)

/-- Rewrites the record of `id`. -/
def update (g : Inner) (id : String) (f : JobRecord → JobRecord) (hf : ∀ r, (f r).id = r.id) :
    Inner :=
  { g with jobs := g.jobs.updateWhere (fun r => r.id = id) f hf }

def tryStart (g : Inner) (limits : JobLimits) : Option JobRecord × Inner :=
  if limits.maxConcurrent ≤ g.running then (none, g)
  else
    match g.queue with
    | [] => (none, g)
    | id :: queue =>
      let g := { g with queue := queue }
      match g.jobs.lookup id with
      | none => (none, g)
      | some _ =>
        let g := g.update id (fun r => { r with status := .running, cancelRequested := false })
          fun _ => rfl
        let g := { g with running := g.running + 1 }
        (g.jobs.lookup id, g)

/-- Takes the callback of `id` out of the table, to be called with `outcome`. -/
def takeSink (g : Inner) (id : String) (outcome : JobOutcome) : Option SinkCall × Inner :=
  ((g.finishedSinks.lookup id).map fun k => ⟨k.2, id, outcome⟩,
    { g with finishedSinks := g.finishedSinks.deleteWhere fun k => k.1 = id })

def cancelledOutcome : JobOutcome := ⟨.cancelled, none, [], [], some "cancelled", none⟩

def cancel (g : Inner) (id : String) (now : ℤ) : CancelOutcome × Option SinkCall × Inner :=
  match g.jobs.lookup id with
  | none => (if id ∈ g.expired then .expired else .notFound, none, g)
  | some record =>
    match record.status with
    | .queued =>
      let g := g.update id
        (fun r => { r with
          status := .cancelled, outcome := some cancelledOutcome, finishedAt := some now })
        fun _ => rfl
      let g := { g with queue := g.queue.filter (· ≠ id) }
      (.cancelled, g.takeSink id cancelledOutcome)
    | .running =>
      (.cancelled, none,
        g.update id (fun r => { r with cancelRequested := true, cancelFlag := true }) fun _ => rfl)
    | other => (.alreadyFinished other, none, g)

def complete (g : Inner) (id : String) (outcome : JobOutcome) (workspaceChanged : Bool) (now : ℤ) :
    Bool × Option SinkCall × Inner :=
  match g.jobs.lookup id with
  | none => (false, none, g)
  | some record =>
    if record.status.isTerminal || !outcome.status.isTerminal then (false, none, g)
    else
      let wasRunning := record.status = .running
      let g := g.update id
        (fun r => { r with
          status := outcome.status, outcome := some outcome, finishedAt := some now,
          workspaceChanged := workspaceChanged })
        fun _ => rfl
      let g := { g with running := if wasRunning then g.running - 1 else g.running }
      let g := { g with
        outputs := g.outputs.updateWhere (fun o => o.1 = id)
          (fun o => (o.1, (o.2.terminalTrim record.spawn.maxOutputLen).1)) fun _ => rfl }
      (true, g.takeSink id outcome)

def cleanup (g : Inner) (limits : JobLimits) (iteration : JobIteration) (now : ℤ) : ℕ × Inner :=
  let before := g.jobs.rows.length
  let expiredIds := ((iteration.order g.jobs.rows).filter fun r =>
    r.status.isTerminal && r.pastRetention limits now).map (·.id)
  let g := expiredIds.foldl forget g
  let g := { g with queue := g.queue.filter fun id => id ∈ g.jobs.rows.map (·.id) }
  (before - g.jobs.rows.length, g)

end Inner
end CrabMate
