import CrabMate.Lib.Kahn
import CrabMate.Queue.ChatQueue

/-! The queue serves its jobs in order and once, within its permits, and its figures agree with
what has happened, in every run of the parties. -/
namespace CrabMate
open Run List

namespace ChatJobQueue

/-- What a step that has an effect does. -/
inductive Change (s : ChatSystem) : ChatSystem → Prop
  | draw (kind : JobKind) : Change s { s with
      submissions := s.submissions ++ [.drawn s.inner.nextJobId kind]
      inner := { s.inner with nextJobId := s.inner.nextJobId + 1 } }
  | leave {i jobId : ℕ} {submission : Submission} (h : s.submissions[i]? = some submission)
    (hticket : submission.ticket = (jobId, none)) : Change s (s.endSubmission i)
  | enter {i jobId : ℕ} {kind : JobKind} (h : s.submissions[i]? = some (.drawn jobId kind))
    (hopen : s.inner.shutdownTriggered = false) :
    Change s (s.setSubmission i (.admitted jobId kind))
  | register {i jobId : ℕ} (h : s.submissions[i]? = some (.admitted jobId .stream)) :
    Change s { s.setSubmission i (.registered jobId s.inner.flags.length) with
      inner := { s.inner with
        streamCancels := s.inner.streamCancels.put (jobId, s.inner.flags.length)
        flags := s.inner.flags ++ [false] } }
  | sendJson {i jobId : ℕ} (h : s.submissions[i]? = some (.admitted jobId .json))
    (hroom : s.inner.pending.length < s.inner.maxPending) : Change s (s.enqueue i (.json jobId))
  | sendStream {i jobId : ℕ} {cancel : CancelFlag}
    (h : s.submissions[i]? = some (.registered jobId cancel))
    (hroom : s.inner.pending.length < s.inner.maxPending) :
    Change s (s.enqueue i (.stream jobId cancel))
  | full {i jobId : ℕ} {cancel : CancelFlag}
    (h : s.submissions[i]? = some (.registered jobId cancel)) :
    Change s (s.setSubmission i (.full jobId cancel))
  | unregisterRejected {i jobId : ℕ} {cancel : CancelFlag}
    (h : s.submissions[i]? = some (.full jobId cancel)) :
    Change s ((s.endSubmission i).unregisterStreamCancel jobId)
  | recv {job : QueuedChatJob} {pending : List QueuedChatJob} (hidle : s.dispatcher = .idle)
    (hpending : s.inner.pending = job :: pending) :
    Change s { s with
      dispatcher := .waiting job, inner := { s.inner with pending := pending } }
  | acquire {job : QueuedChatJob} (hwaiting : s.dispatcher = .waiting job)
    (hfree : 0 < s.inner.turnSem) :
    Change s { s with
      dispatcher := .permitted job, inner := { s.inner with turnSem := s.inner.turnSem - 1 } }
  | spawn {job : QueuedChatJob} (hpermitted : s.dispatcher = .permitted job) :
    Change s { s with
      dispatcher := .idle
      workers := s.workers ++ [⟨job, .executing⟩]
      inner := { s.inner with
        metrics := { s.inner.metrics with running := s.inner.metrics.running + 1 } }
      history := { s.history with started := s.history.started ++ [job] } }
  | runEnds {i : ℕ} {job : QueuedChatJob} (h : s.workers[i]? = some ⟨job, .executing⟩)
    (outcome : JobOutcome) : Change s (s.setPhase i job (.ended outcome))
  | unregister {i jobId : ℕ} {cancel : CancelFlag} {outcome : JobOutcome}
    (h : s.workers[i]? = some ⟨.stream jobId cancel, .ended outcome⟩) :
    Change s ((s.setPhase i (.stream jobId cancel) (.unregistered outcome)).unregisterStreamCancel
      jobId)
  | skipUnregister {i jobId : ℕ} {outcome : JobOutcome}
    (h : s.workers[i]? = some ⟨.json jobId, .ended outcome⟩) :
    Change s (s.setPhase i (.json jobId) (.unregistered outcome))
  | uncount {i : ℕ} {job : QueuedChatJob} {outcome : JobOutcome}
    (h : s.workers[i]? = some ⟨job, .unregistered outcome⟩) :
    Change s { s.setPhase i job (.uncounted outcome) with
      inner := { s.inner with
        metrics := { s.inner.metrics with running := s.inner.metrics.running - 1 } } }
  | bump {i : ℕ} {job : QueuedChatJob} {outcome : JobOutcome}
    (h : s.workers[i]? = some ⟨job, .uncounted outcome⟩) :
    Change s { s.setPhase i job (.bumped outcome) with
      inner := { s.inner with metrics := bumpJobCompletionMetrics s.inner.metrics outcome } }
  | record {i : ℕ} {job : QueuedChatJob} {outcome : JobOutcome}
    (h : s.workers[i]? = some ⟨job, .bumped outcome⟩) (durationMs : ℕ) :
    Change s { s.setPhase i job (.recorded outcome) with
      inner := { s.inner with
        recent := pushRecent s.inner.recent (recordOf job outcome durationMs) }
      history := { s.history with
        records := s.history.records ++ [recordOf job outcome durationMs] } }
  | release {i : ℕ} {job : QueuedChatJob} {outcome : JobOutcome}
    (h : s.workers[i]? = some ⟨job, .recorded outcome⟩) : Change s (s.releasePermit i job)
  | panic {i : ℕ} {job : QueuedChatJob} (h : s.workers[i]? = some ⟨job, .executing⟩) :
    Change s { s.releasePermit i job with
      history := { (s.releasePermit i job).history with
        panicked := s.history.panicked ++ [job] } }
  | closed {i jobId : ℕ} {cancel : CancelFlag}
    (h : s.workers[i]? = some ⟨.stream jobId cancel, .executing⟩) :
    Change s ({ s with inner := s.inner.store cancel }.noteCancelled jobId)
  | cancel {jobId cancel : ℕ} (h : s.inner.streamCancels.lookup jobId = some (jobId, cancel)) :
    Change s ({ s with inner := s.inner.store cancel }.noteCancelled jobId)
  | btwAcquire (hfree : 0 < s.inner.turnSem) : Change s { s with
      btw := s.btw + 1, inner := { s.inner with turnSem := s.inner.turnSem - 1 } }
  | btwRelease (hbtw : 0 < s.btw) : Change s { s with
      btw := s.btw - 1, inner := { s.inner with turnSem := s.inner.turnSem + 1 } }
  | shutdown : Change s { s with inner := { s.inner with shutdownTriggered := true } }

namespace ChatSystem

variable {s : ChatSystem}

theorem submit_change {i : ℕ} {op : Submission → ChatSystem}
    (hop : ∀ submission, s.submissions[i]? = some submission →
      op submission = s ∨ Change s (op submission)) :
    s.submit i op = s ∨ Change s (s.submit i op) := by
  unfold submit
  cases h : s.submissions[i]? with
  | none => exact .inl rfl
  | some submission => exact hop submission h

theorem work_change {i : ℕ} {op : Worker → ChatSystem}
    (hop : ∀ w, s.workers[i]? = some w → op w = s ∨ Change s (op w)) :
    s.work i op = s ∨ Change s (s.work i op) := by
  unfold work
  cases h : s.workers[i]? with
  | none => exact .inl rfl
  | some w => exact hop w h

theorem trySend_change {i : ℕ} (submission : Submission)
    (h : s.submissions[i]? = some submission) :
    s.trySend i submission = s ∨ Change s (s.trySend i submission) := by
  cases submission with
  | drawn jobId kind => exact .inl rfl
  | full jobId cancel => exact .inl rfl
  | admitted jobId kind =>
    cases kind with
    | stream => exact .inl rfl
    | json =>
      right
      by_cases hroom : s.inner.pending.length < s.inner.maxPending
      · simpa only [trySend, if_pos hroom] using Change.sendJson h hroom
      · simpa only [trySend, if_neg hroom] using Change.leave h rfl
  | registered jobId cancel =>
    right
    by_cases hroom : s.inner.pending.length < s.inner.maxPending
    · simpa only [trySend, if_pos hroom] using Change.sendStream h hroom
    · simpa only [trySend, if_neg hroom] using Change.full h

theorem finish_change {i durationMs : ℕ} (w : Worker) (h : s.workers[i]? = some w) :
    s.finish i durationMs w = s ∨ Change s (s.finish i durationMs w) := by
  obtain ⟨job, phase⟩ := w
  cases phase with
  | executing => exact .inl rfl
  | ended outcome =>
    cases job with
    | stream jobId cancel => exact .inr (Change.unregister h)
    | json jobId => exact .inr (Change.skipUnregister h)
  | unregistered outcome => exact .inr (Change.uncount h)
  | uncounted outcome => exact .inr (Change.bump h)
  | bumped outcome => exact .inr (Change.record h durationMs)
  | recorded outcome => exact .inr (Change.release h)

theorem requestCancel_change (jobId : ℕ) :
    s.requestCancel jobId = s ∨ Change s (s.requestCancel jobId) := by
  unfold requestCancel Inner.requestStreamCancel
  cases h : s.inner.streamCancels.lookup jobId with
  | none => exact .inl rfl
  | some row =>
    obtain ⟨n, cancel⟩ := row
    have hn : n = jobId := (Table.lookup_eq_some_iff.mp h).2
    subst hn
    exact .inr (Change.cancel h)

theorem rejectIfShutdown_change {i : ℕ} (submission : Submission)
    (h : s.submissions[i]? = some submission) :
    s.rejectIfShutdown i submission = s ∨ Change s (s.rejectIfShutdown i submission) := by
  cases submission with
  | drawn jobId kind =>
    right
    cases hopen : s.inner.shutdownTriggered with
    | true => simpa only [rejectIfShutdown, hopen, if_true] using Change.leave h rfl
    | false =>
      simpa only [rejectIfShutdown, hopen, Bool.false_eq_true, if_false] using
        Change.enter h hopen
  | _ => exact .inl rfl

/-- The dispatcher takes a job, then a permit, then starts a worker. -/
theorem dispatch_change :
    (s.recv = s ∨ Change s s.recv) ∧ (s.acquire = s ∨ Change s s.acquire) ∧
      (s.spawn = s ∨ Change s s.spawn) := by
  refine ⟨?_, ?_, ?_⟩
  · unfold recv
    split
    next hidle hpending => exact .inr (Change.recv hidle hpending)
    next => exact .inl rfl
  · unfold acquire
    split
    next hwaiting =>
      split
      next hfree => exact .inr (Change.acquire hwaiting hfree)
      next => exact .inl rfl
    next => exact .inl rfl
  · unfold spawn
    split
    next hpermitted => exact .inr (Change.spawn hpermitted)
    next => exact .inl rfl

/-- Each step leaves the system as it is or makes one of the changes. -/
theorem step_change (s : ChatSystem) (op : QueueOp) :
    s.step op = s ∨ Change s (s.step op) := by
  cases op with
  | nextJobId kind => exact .inr (.draw kind)
  | abandon i =>
    refine submit_change fun submission h => ?_
    cases submission with
    | drawn jobId kind => exact .inr (Change.leave h rfl)
    | _ => exact .inl rfl
  | rejectIfShutdown i => exact submit_change rejectIfShutdown_change
  | registerStreamCancel i =>
    refine submit_change fun submission h => ?_
    cases submission with
    | admitted jobId kind =>
      cases kind with
      | stream => exact .inr (Change.register h)
      | json => exact .inl rfl
    | _ => exact .inl rfl
  | trySend i => exact submit_change trySend_change
  | unregisterRejected i =>
    refine submit_change fun submission h => ?_
    cases submission with
    | full jobId cancel => exact .inr (Change.unregisterRejected h)
    | _ => exact .inl rfl
  | recv => exact dispatch_change.1
  | acquire => exact dispatch_change.2.1
  | spawn => exact dispatch_change.2.2
  | runEnds i outcome =>
    refine work_change fun w h => ?_
    obtain ⟨job, phase⟩ := w
    cases phase with
    | executing => exact .inr (Change.runEnds h outcome)
    | _ => exact .inl rfl
  | finish i durationMs => exact work_change finish_change
  | panics i =>
    refine work_change fun w h => ?_
    obtain ⟨job, phase⟩ := w
    cases phase with
    | executing => exact .inr (Change.panic h)
    | _ => exact .inl rfl
  | sseClosed i =>
    refine work_change fun w h => ?_
    obtain ⟨job, phase⟩ := w
    cases job with
    | json jobId => exact .inl rfl
    | stream jobId cancel =>
      cases phase with
      | executing => exact .inr (Change.closed h)
      | _ => exact .inl rfl
  | requestStreamCancel jobId => exact requestCancel_change jobId
  | btwAcquire =>
    change (if _ then _ else _) = s ∨ Change s (if _ then _ else _)
    split
    · rename_i hfree
      exact .inr (Change.btwAcquire hfree)
    · exact .inl rfl
  | btwRelease =>
    change (if _ then _ else _) = s ∨ Change s (if _ then _ else _)
    split
    · rename_i hbtw
      exact .inr (Change.btwRelease hbtw)
    · exact .inl rfl
  | shutdown => exact .inr .shutdown

/-- A property that every change keeps holds after every run. -/
theorem run_of_change (Inv : ChatSystem → Prop) (hchange : ∀ s t, Inv s → Change s t → Inv t)
    {s : ChatSystem} (hs : Inv s) (ops : List QueueOp) : Inv (run step s ops) := by
  refine invariant' (fun s op h => ?_) hs ops
  rcases step_change s op with heq | hc
  · rwa [heq]
  · exact hchange s _ h hc

end ChatSystem

section Station

/-- The queue as a station: the line is what the dispatcher holds and what the channel holds, the
seats are the permits of jobs. -/
def ChatSystem.station (s : ChatSystem) : Station.State QueuedChatJob where
  arrived := s.history.accepted
  begun := s.history.started
  line := s.dispatcher.held ++ s.inner.pending
  seated := s.workers.map Worker.job
  gone := s.history.gone

variable {s t : ChatSystem}

theorem station_setPhase {i : ℕ} {job : QueuedChatJob} {phase : Phase}
    (h : s.workers[i]? = some ⟨job, phase⟩) (phase' : Phase) :
    (s.workers.set i ⟨job, phase'⟩).map Worker.job = s.workers.map Worker.job := by
  rw [map_set]
  refine ext_getElem? fun k => ?_
  rw [getElem?_set]
  split
  · rename_i hik
    subst hik
    obtain ⟨hi, hw⟩ := List.getElem?_eq_some_iff.mp h
    simp [hi, hw]
  · rfl

theorem station_releasePermit {i : ℕ} {job : QueuedChatJob} {phase : Phase}
    (h : s.workers[i]? = some ⟨job, phase⟩) :
    (s.releasePermit i job).station = Station.step s.station (.leave i) := by
  have hjob : (s.workers.map Worker.job)[i]? = some job := by
    rw [getElem?_map, h]; rfl
  simp [ChatSystem.station, ChatSystem.releasePermit, Station.step, hjob, eraseIdx_map]

/-- The queue refines the station: each change is one of its moves or none. -/
theorem Change.station (h : Change s t) :
    t.station = s.station ∨ ∃ move, t.station = Station.step s.station move := by
  cases h with
  | @sendJson i jobId h hroom =>
    right
    exact ⟨.arrive (.json jobId), by
      simp [ChatSystem.station, ChatSystem.enqueue, ChatSystem.endSubmission, Station.step]⟩
  | @sendStream i jobId cancel h hroom =>
    right
    exact ⟨.arrive (.stream jobId cancel), by
      simp [ChatSystem.station, ChatSystem.enqueue, ChatSystem.endSubmission, Station.step]⟩
  | recv hidle hpending =>
    left
    simp [ChatSystem.station, hidle, hpending, Dispatcher.held]
  | acquire hwaiting hfree =>
    left
    simp [ChatSystem.station, hwaiting, Dispatcher.held]
  | spawn hpermitted =>
    right
    exact ⟨.sit, by simp [ChatSystem.station, hpermitted, Dispatcher.held, Station.step]⟩
  | runEnds h | skipUnregister h | uncount h | bump h | record h =>
    left
    simp [ChatSystem.station, ChatSystem.setPhase, station_setPhase h]
  | unregister h =>
    left
    simp [ChatSystem.station, ChatSystem.setPhase, ChatSystem.unregisterStreamCancel,
      station_setPhase h]
  | release h => exact .inr ⟨_, station_releasePermit h⟩
  | panic h => exact .inr ⟨_, station_releasePermit h⟩
  | _ => exact .inl rfl

theorem orderly_of_run (maxConcurrent maxPending : ℕ) (ops : List QueueOp) :
    Station.Orderly (run ChatSystem.step (new maxConcurrent maxPending) ops).station := by
  have hnew : Station.Orderly (new maxConcurrent maxPending).station := Station.orderly_empty
  refine ChatSystem.run_of_change (fun s => Station.Orderly s.station)
    (fun s t hs h => ?_) hnew ops
  rcases h.station with heq | ⟨move, heq⟩ <;> rw [heq]
  · exact hs
  · exact hs.step move

end Station

section Figures

theorem countP_set {l : List Worker} {i : ℕ} {v : Worker} (h : l[i]? = some v) (w : Worker)
    (p : Worker → Bool) :
    (l.set i w).countP p + (if p v then 1 else 0) = l.countP p + (if p w then 1 else 0) := by
  have hi : i < l.length := (List.getElem?_eq_some_iff.mp h).1
  rw [(set_perm_cons_eraseIdx hi w).countP_eq, (Station.perm_cons_eraseIdx h).countP_eq,
    countP_cons, countP_cons]
  omega

theorem countP_eraseIdx {l : List Worker} {i : ℕ} {v : Worker} (h : l[i]? = some v)
    (p : Worker → Bool) :
    (l.eraseIdx i).countP p + (if p v then 1 else 0) = l.countP p := by
  rw [(Station.perm_cons_eraseIdx h).countP_eq, countP_cons]

theorem length_eraseIdx_add_one {l : List Worker} {i : ℕ} {v : Worker} (h : l[i]? = some v) :
    (l.eraseIdx i).length + 1 = l.length := by
  rw [(Station.perm_cons_eraseIdx h).length_eq, length_cons]

/-- The three ways a job is counted. -/
inductive Verdict where
  | cancelled
  | ok
  | err
  deriving DecidableEq

def JobOutcome.verdict (o : JobOutcome) : Verdict :=
  if o.cancelled then .cancelled else if o.ok then .ok else .err

def ChatJobRecord.verdict (r : ChatJobRecord) : Verdict :=
  JobOutcome.verdict ⟨r.ok, r.cancelled, r.errorPreview⟩

def QueueMetrics.completed (m : QueueMetrics) : Verdict → ℕ
  | .cancelled => m.completedCancelled
  | .ok => m.completedOk
  | .err => m.completedErr

/-- The worker has counted an outcome with the verdict and not recorded it yet. -/
def Worker.bumpedAs (v : Verdict) (w : Worker) : Bool :=
  w.phase.bumped?.any fun o => o.verdict = v

@[simp] theorem bump_running (m : QueueMetrics) (o : JobOutcome) :
    (bumpJobCompletionMetrics m o).running = m.running := by
  unfold bumpJobCompletionMetrics
  split_ifs <;> rfl

theorem bump_completed (m : QueueMetrics) (o : JobOutcome) (v : Verdict) :
    (bumpJobCompletionMetrics m o).completed v =
      m.completed v + if o.verdict = v then 1 else 0 := by
  unfold bumpJobCompletionMetrics JobOutcome.verdict
  split_ifs <;> cases v <;> simp_all [QueueMetrics.completed]

/-- The permits are all accounted for, the channel is within its bound, and the counters and the
recent jobs agree with the workers and the records. -/
structure Figures (s : ChatSystem) : Prop where
  permits : s.inner.turnSem + s.btw + s.workers.length + s.dispatcher.permits =
    s.inner.maxConcurrent
  bounded : s.inner.pending.length ≤ s.inner.maxPending
  running : s.inner.metrics.running =
    s.workers.countP (fun w => w.phase.counts) + s.history.panicked.length
  completed : ∀ v, s.inner.metrics.completed v =
    s.history.records.countP (fun r => r.verdict = v) + s.workers.countP (Worker.bumpedAs v)
  recent : s.inner.recent =
    s.history.records.drop (s.history.records.length - recentCap)

theorem pushRecent_drop (records : List ChatJobRecord) (record : ChatJobRecord) :
    pushRecent (records.drop (records.length - recentCap)) record =
      (records ++ [record]).drop ((records ++ [record]).length - recentCap) := by
  have hle : records.length - recentCap ≤ records.length := Nat.sub_le _ _
  rw [pushRecent, ← drop_append_of_le_length hle, drop_drop]
  congr 1
  simp only [length_drop, length_append, length_singleton, recentCap]
  omega

variable {s t : ChatSystem}

/-- A worker goes on to its next phase, with what it counts and records on the way. -/
theorem Figures.setPhase (hs : Figures s) {i : ℕ} {job : QueuedChatJob} {phase : Phase}
    (h : s.workers[i]? = some ⟨job, phase⟩) (phase' : Phase) (m : QueueMetrics)
    (more : List ChatJobRecord)
    (hrunning : m.running + (if phase.counts then 1 else 0) =
      s.inner.metrics.running + if phase'.counts then 1 else 0)
    (hcompleted : ∀ v, m.completed v + (if Worker.bumpedAs v ⟨job, phase⟩ then 1 else 0) =
      s.inner.metrics.completed v + more.countP (fun r => r.verdict = v) +
        if Worker.bumpedAs v ⟨job, phase'⟩ then 1 else 0) :
    Figures { s.setPhase i job phase' with
      inner := { s.inner with
        metrics := m
        recent := (s.history.records ++ more).drop
          ((s.history.records ++ more).length - recentCap) }
      history := { s.history with records := s.history.records ++ more } } where
  permits := by simpa [ChatSystem.setPhase] using hs.permits
  bounded := hs.bounded
  running := by
    have hcount := countP_set h ⟨job, phase'⟩ fun w => w.phase.counts
    have hrun := hs.running
    simp only [ChatSystem.setPhase] at hcount ⊢
    omega
  completed v := by
    have hcount := countP_set h ⟨job, phase'⟩ (Worker.bumpedAs v)
    have hcomp := hs.completed v
    have hgoal := hcompleted v
    simp only [ChatSystem.setPhase, countP_append]
    omega
  recent := rfl

/-- A worker is over; one that died of a panic is still counted as running. -/
theorem Figures.releasePermit (hs : Figures s) {i : ℕ} {job : QueuedChatJob} {phase : Phase}
    (h : s.workers[i]? = some ⟨job, phase⟩) (hbumped : phase.bumped? = none)
    (panicked : List QueuedChatJob) (hpanicked : panicked.length = if phase.counts then 1 else 0) :
    Figures { s.releasePermit i job with
      history := { (s.releasePermit i job).history with
        panicked := s.history.panicked ++ panicked } } where
  permits := by
    have hlen := length_eraseIdx_add_one h
    have hp := hs.permits
    simp only [ChatSystem.releasePermit]
    omega
  bounded := hs.bounded
  running := by
    have hcount := countP_eraseIdx h fun w => w.phase.counts
    have hrun := hs.running
    simp only [ChatSystem.releasePermit, length_append] at hcount ⊢
    omega
  completed v := by
    have hcount := countP_eraseIdx h (Worker.bumpedAs v)
    have hcomp := hs.completed v
    simp only [Worker.bumpedAs, hbumped, Option.any_none, Bool.false_eq_true, if_false,
      Nat.add_zero] at hcount
    simp only [ChatSystem.releasePermit]
    rw [hcomp, ← hcount]
  recent := hs.recent

theorem Figures.unregister (hs : Figures s) (jobId : ℕ) :
    Figures (s.unregisterStreamCancel jobId) :=
  ⟨hs.permits, hs.bounded, hs.running, hs.completed, hs.recent⟩

/-- `Figures.setPhase` when no record is written. -/
theorem Figures.setPhase_metrics (hs : Figures s) {i : ℕ} {job : QueuedChatJob} {phase : Phase}
    (h : s.workers[i]? = some ⟨job, phase⟩) (phase' : Phase) (m : QueueMetrics)
    (hrunning : m.running + (if phase.counts then 1 else 0) =
      s.inner.metrics.running + if phase'.counts then 1 else 0)
    (hcompleted : ∀ v, m.completed v + (if Worker.bumpedAs v ⟨job, phase⟩ then 1 else 0) =
      s.inner.metrics.completed v + if Worker.bumpedAs v ⟨job, phase'⟩ then 1 else 0) :
    Figures { s.setPhase i job phase' with inner := { s.inner with metrics := m } } := by
  have hset := hs.setPhase h phase' m [] hrunning (by simpa using hcompleted)
  simp only [append_nil, ← hs.recent] at hset
  exact hset

theorem counted_le {l : List Worker} {i : ℕ} {w : Worker} (h : l[i]? = some w)
    {p : Worker → Bool} (hp : p w = true) : 1 ≤ l.countP p :=
  countP_pos_iff.mpr ⟨w, mem_of_getElem? h, hp⟩

theorem Figures.change (hs : Figures s) (h : Change s t) : Figures t := by
  obtain ⟨hpermits, hbounded, hrunning, hcompleted, hrecent⟩ := id hs
  cases h with
  | draw kind | leave h hticket | enter h hopen | register h | full h | unregisterRejected h
  | closed h | cancel h | shutdown => exact ⟨hpermits, hbounded, hrunning, hcompleted, hrecent⟩
  | sendJson h hroom | sendStream h hroom =>
    refine ⟨hpermits, ?_, hrunning, hcompleted, hrecent⟩
    simpa [ChatSystem.enqueue, ChatSystem.endSubmission] using Nat.succ_le_of_lt hroom
  | recv hidle hpending =>
    refine ⟨?_, ?_, hrunning, hcompleted, hrecent⟩
    · simpa [hidle, Dispatcher.permits] using hpermits
    · simp only [hpending, length_cons] at hbounded
      exact Nat.le_of_succ_le hbounded
  | acquire hwaiting hfree =>
    refine ⟨?_, hbounded, hrunning, hcompleted, hrecent⟩
    simp only [hwaiting, Dispatcher.permits] at hpermits ⊢
    omega
  | spawn hpermitted =>
    refine ⟨?_, hbounded, ?_, fun v => ?_, hrecent⟩
    · simp only [hpermitted, Dispatcher.permits, length_append, length_singleton]
        at hpermits ⊢
      omega
    · simp only [countP_append, countP_singleton, Phase.counts, if_true, hrunning]
      omega
    · simpa [Worker.bumpedAs, Phase.bumped?, QueueMetrics.completed] using hcompleted v
  | btwAcquire hfree =>
    refine ⟨?_, hbounded, hrunning, hcompleted, hrecent⟩
    simp only at hpermits ⊢
    omega
  | btwRelease hbtw =>
    refine ⟨?_, hbounded, hrunning, hcompleted, hrecent⟩
    simp only at hpermits ⊢
    omega
  | runEnds h outcome => exact hs.setPhase_metrics h _ _ rfl fun v => rfl
  | skipUnregister h => exact hs.setPhase_metrics h _ _ rfl fun v => rfl
  | @unregister i jobId cancel outcome h =>
    have hset := hs.setPhase_metrics h (.unregistered outcome) s.inner.metrics rfl fun v => rfl
    exact hset.unregister jobId
  | uncount h =>
    refine hs.setPhase_metrics h _ _ ?_ fun v => rfl
    have hone := counted_le h (p := fun w => w.phase.counts) rfl
    simp only [Phase.counts, if_true, Bool.false_eq_true, if_false]
    omega
  | bump h =>
    refine hs.setPhase_metrics h _ _ (by simp [Phase.counts]) fun v => ?_
    simp [bump_completed, Worker.bumpedAs, Phase.bumped?]
  | @record i job outcome h durationMs =>
    have hset := hs.setPhase h (.recorded outcome) s.inner.metrics
      [recordOf job outcome durationMs] rfl fun v => by
        simp only [Worker.bumpedAs, Phase.bumped?, countP_singleton, Option.any_some,
          Option.any_none, Bool.false_eq_true, if_false, Nat.add_zero]
        rfl
    rw [← pushRecent_drop, ← hrecent] at hset
    exact hset
  | release h =>
    have hrel := hs.releasePermit h rfl [] rfl
    simp only [append_nil] at hrel
    exact hrel
  | panic h => exact hs.releasePermit h rfl [_] rfl

theorem figures_of_run (maxConcurrent maxPending : ℕ) (ops : List QueueOp) :
    Figures (run ChatSystem.step (new maxConcurrent maxPending) ops) := by
  have hnew : Figures (new maxConcurrent maxPending) :=
    ⟨by simp [new, Dispatcher.permits], Nat.zero_le _, rfl, fun v => by cases v <;> rfl, rfl⟩
  exact ChatSystem.run_of_change _ (fun s t hs h => hs.change h) hnew ops

end Figures

section Once

variable {s t : ChatSystem}

/-- The ids of the requests under way and of the accepted jobs. -/
def ChatSystem.ids (s : ChatSystem) : List ℕ :=
  s.submissions.map (fun submission => submission.ticket.1) ++
    s.history.accepted.map QueuedChatJob.jobId

/-- No id is used twice, and the next one is above them. -/
structure DistinctIds (s : ChatSystem) : Prop where
  nodup : s.ids.Nodup
  below : ∀ n ∈ s.ids, n < s.inner.nextJobId

theorem DistinctIds.of_perm (hs : DistinctIds s) (hids : t.ids.Subperm s.ids)
    (hnext : t.inner.nextJobId = s.inner.nextJobId) : DistinctIds t where
  nodup := by
    obtain ⟨l, hl, hsub⟩ := hids
    exact hl.nodup_iff.mp (hs.nodup.sublist hsub)
  below n hn := by
    rw [hnext]
    exact hs.below n (hids.subset hn)

theorem ids_setSubmission {i : ℕ} {submission : Submission}
    (h : s.submissions[i]? = some submission) (submission' : Submission)
    (hticket : submission'.ticket.1 = submission.ticket.1) :
    (s.setSubmission i submission').ids.Perm s.ids := by
  have hi : i < s.submissions.length := (List.getElem?_eq_some_iff.mp h).1
  have hset := (set_perm_cons_eraseIdx hi submission').map fun k => k.ticket.1
  have hold := (Station.perm_cons_eraseIdx h).map fun k => k.ticket.1
  rw [map_cons] at hset hold
  rw [hticket] at hset
  exact (hset.trans hold.symm).append_right _

theorem ids_endSubmission {i : ℕ} {submission : Submission}
    (h : s.submissions[i]? = some submission) :
    (submission.ticket.1 :: (s.endSubmission i).ids).Perm s.ids :=
  (((Station.perm_cons_eraseIdx h).map fun k => k.ticket.1).append_right _).symm

theorem ids_enqueue {i : ℕ} {submission : Submission}
    (h : s.submissions[i]? = some submission) {job : QueuedChatJob}
    (hjob : job.jobId = submission.ticket.1) : (s.enqueue i job).ids.Perm s.ids := by
  refine List.Perm.trans ?_ (ids_endSubmission h)
  simp only [ChatSystem.enqueue, ChatSystem.ids, ChatSystem.endSubmission, map_append,
    map_cons, map_nil, hjob, ← append_assoc]
  exact perm_append_singleton _ _

theorem DistinctIds.change (hs : DistinctIds s) (h : Change s t) : DistinctIds t := by
  cases h with
  | draw kind =>
    refine ⟨?_, fun n hn => ?_⟩
    · have hnew : s.inner.nextJobId ∉ s.ids := fun hmem => Nat.lt_irrefl _ (hs.below _ hmem)
      have hperm : (s.inner.nextJobId :: s.ids).Perm
          (s.submissions.map (fun k => k.ticket.1) ++ [s.inner.nextJobId] ++
            s.history.accepted.map QueuedChatJob.jobId) := by
        rw [append_assoc]
        exact perm_middle.symm
      simpa [ChatSystem.ids, Submission.ticket] using
        hperm.nodup_iff.mp (nodup_cons.mpr ⟨hnew, hs.nodup⟩)
    · simp only [ChatSystem.ids, map_append, map_cons, map_nil, mem_append,
        mem_singleton, Submission.ticket] at hn
      have hbelow := hs.below n
      simp only [ChatSystem.ids, mem_append] at hbelow
      rcases hn with (hn | rfl) | hn
      · exact Nat.lt_succ_of_lt (hbelow (.inl hn))
      · exact Nat.lt_succ_self _
      · exact Nat.lt_succ_of_lt (hbelow (.inr hn))
  | leave h hticket =>
    exact hs.of_perm ((sublist_cons_self _ _).subperm.trans (ids_endSubmission h).subperm) rfl
  | enter h hopen => exact hs.of_perm (ids_setSubmission h (.admitted _ _) rfl).subperm rfl
  | register h => exact hs.of_perm (ids_setSubmission h (.registered _ _) rfl).subperm rfl
  | full h => exact hs.of_perm (ids_setSubmission h (.full _ _) rfl).subperm rfl
  | sendJson h hroom => exact hs.of_perm (ids_enqueue h rfl).subperm rfl
  | sendStream h hroom => exact hs.of_perm (ids_enqueue h rfl).subperm rfl
  | unregisterRejected h =>
    exact hs.of_perm ((sublist_cons_self _ _).subperm.trans (ids_endSubmission h).subperm) rfl
  | _ => exact ⟨hs.nodup, hs.below⟩

/-- The worker has written its record and still has its permit. -/
def Worker.recordedAs (n : ℕ) (w : Worker) : Bool := w.phase.isRecorded && w.job.jobId = n

/-- A job that is over has one record or died of a panic. -/
def Settled (s : ChatSystem) : Prop :=
  ∀ n, (s.history.records.map ChatJobRecord.jobId).count n +
      (s.history.panicked.map QueuedChatJob.jobId).count n =
    (s.history.gone.map QueuedChatJob.jobId).count n + s.workers.countP (Worker.recordedAs n)

theorem Settled.setPhase (hs : Settled s) {i : ℕ} {job : QueuedChatJob} {phase : Phase}
    (h : s.workers[i]? = some ⟨job, phase⟩) (hbefore : phase.isRecorded = false) (phase' : Phase)
    (more : List ChatJobRecord)
    (hmore : ∀ n, (more.map ChatJobRecord.jobId).count n =
      if Worker.recordedAs n ⟨job, phase'⟩ then 1 else 0) (n : ℕ) :
    ((s.history.records ++ more).map ChatJobRecord.jobId).count n +
        (s.history.panicked.map QueuedChatJob.jobId).count n =
      (s.history.gone.map QueuedChatJob.jobId).count n +
        (s.workers.set i ⟨job, phase'⟩).countP (Worker.recordedAs n) := by
  have hcount := countP_set h ⟨job, phase'⟩ (Worker.recordedAs n)
  have hold : Worker.recordedAs n ⟨job, phase⟩ = false := by
    simp [Worker.recordedAs, hbefore]
  have hn := hs n
  have hm := hmore n
  simp only [hold, Bool.false_eq_true, if_false, Nat.add_zero] at hcount
  rw [map_append, count_append]
  omega

/-- `Settled.setPhase` when no record is written. -/
theorem Settled.setPhase_quiet (hs : Settled s) {i : ℕ} {job : QueuedChatJob} {phase : Phase}
    (h : s.workers[i]? = some ⟨job, phase⟩) (hbefore : phase.isRecorded = false) (phase' : Phase)
    (hafter : phase'.isRecorded = false) (n : ℕ) :
    (s.history.records.map ChatJobRecord.jobId).count n +
        (s.history.panicked.map QueuedChatJob.jobId).count n =
      (s.history.gone.map QueuedChatJob.jobId).count n +
        (s.workers.set i ⟨job, phase'⟩).countP (Worker.recordedAs n) := by
  have hset := hs.setPhase h hbefore phase' [] (fun m => by simp [Worker.recordedAs, hafter]) n
  rwa [append_nil] at hset

theorem Settled.releasePermit (hs : Settled s) {i : ℕ} {job : QueuedChatJob} {phase : Phase}
    (h : s.workers[i]? = some ⟨job, phase⟩) (panicked : List QueuedChatJob)
    (hpanicked : panicked = if phase.isRecorded then [] else [job]) (n : ℕ) :
    (s.history.records.map ChatJobRecord.jobId).count n +
        ((s.history.panicked ++ panicked).map QueuedChatJob.jobId).count n =
      ((s.history.gone ++ [job]).map QueuedChatJob.jobId).count n +
        (s.workers.eraseIdx i).countP (Worker.recordedAs n) := by
  have hcount := countP_eraseIdx h (Worker.recordedAs n)
  have hn := hs n
  simp only [map_append, count_append, map_cons, map_nil]
  by_cases hphase : phase.isRecorded = true
  · simp only [hphase, if_true] at hpanicked
    simp only [Worker.recordedAs, hphase, Bool.true_and, decide_eq_true_eq] at hcount
    simp only [hpanicked, map_nil, count_nil, count_singleton, beq_iff_eq]
    split_ifs at hcount ⊢ <;> omega
  · simp only [hphase] at hpanicked
    simp only [Worker.recordedAs, hphase, Bool.false_and, Bool.false_eq_true, if_false] at hcount
    simp only [hpanicked, Bool.false_eq_true, if_false, map_cons, map_nil]
    omega

theorem Settled.change (hs : Settled s) (h : Change s t) : Settled t := by
  cases h with
  | spawn hpermitted =>
    intro n
    simpa [Worker.recordedAs, Phase.isRecorded] using hs n
  | runEnds h outcome => exact hs.setPhase_quiet h rfl (.ended outcome) rfl
  | @skipUnregister i jobId outcome h => exact hs.setPhase_quiet h rfl (.unregistered outcome) rfl
  | @unregister i jobId cancel outcome h =>
    exact hs.setPhase_quiet h rfl (.unregistered outcome) rfl
  | @uncount i job outcome h => exact hs.setPhase_quiet h rfl (.uncounted outcome) rfl
  | @bump i job outcome h => exact hs.setPhase_quiet h rfl (.bumped outcome) rfl
  | @record i job outcome h durationMs =>
    refine hs.setPhase h rfl _ [recordOf job outcome durationMs] fun n => ?_
    simp [Worker.recordedAs, Phase.isRecorded, count_singleton, recordOf]
  | release h =>
    intro n
    have hrel := hs.releasePermit h [] rfl n
    rw [append_nil] at hrel
    exact hrel
  | panic h => exact hs.releasePermit h [_] rfl
  | _ => exact hs

theorem distinctIds_of_run (maxConcurrent maxPending : ℕ) (ops : List QueueOp) :
    DistinctIds (run ChatSystem.step (new maxConcurrent maxPending) ops) := by
  have hnew : DistinctIds (new maxConcurrent maxPending) := by
    refine ⟨nodup_nil, fun n hn => ?_⟩
    cases hn
  exact ChatSystem.run_of_change _ (fun s t hs h => hs.change h) hnew ops

theorem settled_of_run (maxConcurrent maxPending : ℕ) (ops : List QueueOp) :
    Settled (run ChatSystem.step (new maxConcurrent maxPending) ops) := by
  have hnew : Settled (new maxConcurrent maxPending) := fun n => rfl
  exact ChatSystem.run_of_change _ (fun s t hs h => hs.change h) hnew ops

end Once

section Results

variable {s t : ChatSystem}

theorem Change.limits (h : Change s t) :
    t.inner.maxConcurrent = s.inner.maxConcurrent ∧ t.inner.maxPending = s.inner.maxPending := by
  cases h <;> exact ⟨rfl, rfl⟩

theorem limits_of_run (maxConcurrent maxPending : ℕ) (ops : List QueueOp) :
    let s := run ChatSystem.step (new maxConcurrent maxPending) ops
    s.inner.maxConcurrent = max maxConcurrent 1 ∧ s.inner.maxPending = max maxPending 1 := by
  refine ChatSystem.run_of_change (fun s => s.inner.maxConcurrent = max maxConcurrent 1 ∧
    s.inner.maxPending = max maxPending 1) (fun s t hs h => ?_) ⟨rfl, rfl⟩ ops
  rw [h.limits.1, h.limits.2]
  exact hs

theorem Change.accepted (h : Change s t) : s.history.accepted <+: t.history.accepted := by
  cases h <;> first | exact prefix_refl _ | exact prefix_append _ _

theorem accepted_prefix (s : ChatSystem) (ops : List QueueOp) :
    s.history.accepted <+: (run ChatSystem.step s ops).history.accepted :=
  ChatSystem.run_of_change (fun t => s.history.accepted <+: t.history.accepted)
    (fun _ _ ht h => ht.trans h.accepted) (prefix_refl _) ops

/-- The queue never runs more jobs and short commands than it has permits, never holds back more
jobs than the channel and the dispatcher take, and counts as running the jobs at work and those
that died of a panic. -/
theorem chat_queue_capacity (maxConcurrent maxPending : ℕ) (ops : List QueueOp) :
    let s := run ChatSystem.step (new maxConcurrent maxPending) ops
    s.workers.length + s.btw + s.dispatcher.permits + s.inner.turnSem = max maxConcurrent 1 ∧
      s.inner.pending.length ≤ max maxPending 1 ∧
      s.history.accepted.length ≤ s.history.started.length + max maxPending 1 + 1 ∧
      s.inner.metrics.running =
        s.workers.countP (fun w => w.phase.counts) + s.history.panicked.length ∧
      (s.history.panicked = [] → s.inner.metrics.running + s.btw ≤ max maxConcurrent 1) := by
  intro s
  have hfig : Figures s := figures_of_run maxConcurrent maxPending ops
  have horder : s.history.accepted = s.history.started ++ (s.dispatcher.held ++ s.inner.pending) :=
    (orderly_of_run maxConcurrent maxPending ops).inOrder
  obtain ⟨hconcurrent, hpending⟩ := limits_of_run maxConcurrent maxPending ops
  have hpermits := hfig.permits
  have hbounded := hfig.bounded
  have hrunning := hfig.running
  rw [hconcurrent] at hpermits
  rw [hpending] at hbounded
  have hheld : s.dispatcher.held.length ≤ 1 := by
    cases s.dispatcher <;> simp [Dispatcher.held]
  have hcount : s.workers.countP (fun w => w.phase.counts) ≤ s.workers.length :=
    countP_le_length
  refine ⟨by omega, hbounded, ?_, hrunning, fun hnone => ?_⟩
  · rw [horder]
    simp only [length_append]
    omega
  · rw [hnone, length_nil] at hrunning
    omega

theorem started_perm (maxConcurrent maxPending : ℕ) (ops : List QueueOp) :
    let s := run ChatSystem.step (new maxConcurrent maxPending) ops
    (s.history.started.map QueuedChatJob.jobId).Perm
      (s.history.records.map ChatJobRecord.jobId ++
        s.history.panicked.map QueuedChatJob.jobId ++
        (s.workers.filter fun w => !w.phase.isRecorded).map fun w => w.job.jobId) := by
  intro s
  have horderly : Station.Orderly s.station := orderly_of_run maxConcurrent maxPending ops
  have hsettled : Settled s := settled_of_run maxConcurrent maxPending ops
  have honce : (s.history.started.map QueuedChatJob.jobId).Perm
      ((s.history.gone ++ s.workers.map Worker.job).map QueuedChatJob.jobId) :=
    horderly.once.map _
  refine perm_iff_count.mpr fun n => ?_
  have hn := hsettled n
  have hsplit : (s.workers.map fun w => w.job.jobId).count n =
      s.workers.countP (Worker.recordedAs n) +
        ((s.workers.filter fun w => !w.phase.isRecorded).map fun w => w.job.jobId).count n := by
    rw [count_eq_countP, countP_map, count_eq_countP, countP_map,
      countP_filter]
    refine Kahn.countP_add (fun w => ?_) s.workers
    cases hrec : w.phase.isRecorded <;> by_cases hw : w.job.jobId = n <;>
      simp [Worker.recordedAs, hrec, hw]
  rw [honce.count_eq, map_append, map_map, count_append, count_append,
    count_append]
  have hjobs : (s.workers.map (QueuedChatJob.jobId ∘ Worker.job)).count n =
      (s.workers.map fun w => w.job.jobId).count n := rfl
  omega

/-- The accepted jobs are started in the order in which they were accepted; each that was started
is at work, has one record or died of a panic, once; the recent jobs are the newest records, and
each counter counts the records with its verdict and the outcomes just counted. -/
theorem chat_queue_serves_once (maxConcurrent maxPending : ℕ) (ops : List QueueOp) :
    let s := run ChatSystem.step (new maxConcurrent maxPending) ops
    s.history.accepted = s.history.started ++ s.dispatcher.held ++ s.inner.pending ∧
      (s.history.accepted.map QueuedChatJob.jobId).Nodup ∧
      (s.history.started.map QueuedChatJob.jobId).Perm
        (s.history.records.map ChatJobRecord.jobId ++
          s.history.panicked.map QueuedChatJob.jobId ++
          (s.workers.filter fun w => !w.phase.isRecorded).map fun w => w.job.jobId) ∧
      s.inner.recentJobs = s.history.records.reverse.take recentCap ∧
      ∀ v, s.inner.metrics.completed v =
        s.history.records.countP (fun r => r.verdict = v) +
          s.workers.countP (Worker.bumpedAs v) := by
  intro s
  have hfig : Figures s := figures_of_run maxConcurrent maxPending ops
  have horderly : Station.Orderly s.station := orderly_of_run maxConcurrent maxPending ops
  have hids : DistinctIds s := distinctIds_of_run maxConcurrent maxPending ops
  refine ⟨?_, ?_, started_perm maxConcurrent maxPending ops, ?_, hfig.completed⟩
  · rw [append_assoc]
    exact horderly.inOrder
  · exact (sublist_append_right _ _).nodup hids.nodup
  · rw [Inner.recentJobs, hfig.recent, take_reverse]

/-- No accepted job overtakes another: a job with `i` accepted jobs in front of it that have not
started has started later on exactly when more than `i` further jobs have. -/
theorem chat_queue_no_overtaking (maxConcurrent maxPending : ℕ) (ops more : List QueueOp) (i : ℕ)
    (job : QueuedChatJob)
    (hjob : ((run ChatSystem.step (new maxConcurrent maxPending) ops).dispatcher.held ++
      (run ChatSystem.step (new maxConcurrent maxPending) ops).inner.pending)[i]? = some job) :
    let s := run ChatSystem.step (new maxConcurrent maxPending) ops
    let t := run ChatSystem.step (new maxConcurrent maxPending) (ops ++ more)
    job ∈ t.history.started ↔ s.history.started.length + i < t.history.started.length := by
  intro s t
  have hnodup : t.history.accepted.Nodup :=
    ((sublist_append_right _ _).nodup
      (distinctIds_of_run maxConcurrent maxPending (ops ++ more)).nodup).of_map _
  have hlater : s.history.accepted <+: t.history.accepted := by
    have hpre := accepted_prefix s more
    rwa [← run_append] at hpre
  obtain ⟨later, happ⟩ := hlater
  exact (orderly_of_run maxConcurrent maxPending ops).mem_begun_iff
    (orderly_of_run maxConcurrent maxPending (ops ++ more)) hnodup happ.symm hjob

/-- The second of two accepted jobs waits for the first. -/
theorem chat_queue_no_overtaking_second :
    let ops : List QueueOp := [.nextJobId .json, .rejectIfShutdown 0, .trySend 0,
      .nextJobId .json, .rejectIfShutdown 0, .trySend 0]
    let s := run ChatSystem.step (new 1 4) ops
    let t := run ChatSystem.step (new 1 4) (ops ++ [.recv, .acquire, .spawn])
    .json 2 ∈ t.history.started ↔ s.history.started.length + 1 < t.history.started.length :=
  chat_queue_no_overtaking 1 4 _ _ 1 (.json 2) rfl

end Results

end ChatJobQueue
end CrabMate
