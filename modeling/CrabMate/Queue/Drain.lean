import CrabMate.Queue.Service
import Mathlib.Algebra.GroupWithZero.Nat
import Mathlib.Algebra.Order.BigOperators.Group.List

/-! The queue works off what it has accepted. A backlog falls with each step of the dispatcher and
the workers, some step is possible while there is a backlog, and after a shutdown it never grows. -/
namespace CrabMate
open Run List

namespace ChatJobQueue

/-- The steps of the dispatcher and of the workers. -/
def QueueOp.internal : QueueOp → Bool
  | .recv | .acquire | .spawn | .runEnds .. | .finish .. | .panics _ => true
  | _ => false

/-- How many steps are left of a job at work. -/
def Phase.left : Phase → ℕ
  | .executing => 6
  | .ended _ => 5
  | .unregistered _ => 4
  | .uncounted _ => 3
  | .bumped _ => 2
  | .recorded _ => 1

def Dispatcher.left : Dispatcher → ℕ
  | .idle => 0
  | .waiting _ => 8
  | .permitted _ => 7

/-- The request has passed the check for a shutdown and has not come to the channel. -/
def Submission.mayEnter : Submission → Bool
  | .admitted .. | .registered .. => true
  | _ => false

namespace ChatSystem

/-- How many steps of the dispatcher and the workers the accepted jobs still take. -/
def backlog (s : ChatSystem) : ℕ :=
  9 * s.inner.pending.length + s.dispatcher.left + (s.workers.map fun w => w.phase.left).sum

/-- The shutdown has come and no request can enter the channel any more. -/
structure Closed (s : ChatSystem) : Prop where
  down : s.inner.shutdownTriggered = true
  noEntry : ∀ submission ∈ s.submissions, submission.mayEnter = false

end ChatSystem

open ChatSystem

variable {s t : ChatSystem}

theorem left_pos (phase : Phase) : 0 < phase.left := by
  cases phase <;> simp [Phase.left]

theorem sum_left_set {i : ℕ} {job : QueuedChatJob} {phase : Phase}
    (h : s.workers[i]? = some ⟨job, phase⟩) (phase' : Phase) :
    ((s.workers.set i ⟨job, phase'⟩).map fun w => w.phase.left).sum + phase.left =
      (s.workers.map fun w => w.phase.left).sum + phase'.left := by
  have hi : i < s.workers.length := (List.getElem?_eq_some_iff.mp h).1
  rw [((set_perm_cons_eraseIdx hi ⟨job, phase'⟩).map _).sum_eq,
    ((Station.perm_cons_eraseIdx h).map fun w : Worker => w.phase.left).sum_eq,
    map_cons, map_cons, sum_cons, sum_cons]
  dsimp only
  omega

theorem sum_left_eraseIdx {i : ℕ} {w : Worker} (h : s.workers[i]? = some w) :
    ((s.workers.eraseIdx i).map fun w => w.phase.left).sum + w.phase.left =
      (s.workers.map fun w => w.phase.left).sum := by
  rw [((Station.perm_cons_eraseIdx h).map fun w : Worker => w.phase.left).sum_eq,
    map_cons, sum_cons]
  omega

theorem backlog_setPhase {i : ℕ} {job : QueuedChatJob} {phase phase' : Phase}
    (h : s.workers[i]? = some ⟨job, phase⟩) (hleft : phase'.left < phase.left) :
    (s.setPhase i job phase').backlog < s.backlog := by
  have hsum := sum_left_set h phase'
  simp only [backlog, setPhase]
  omega

theorem backlog_releasePermit {i : ℕ} {w : Worker} (h : s.workers[i]? = some w)
    (job : QueuedChatJob) : (s.releasePermit i job).backlog < s.backlog := by
  have hsum := sum_left_eraseIdx h
  have hpos := left_pos w.phase
  simp only [backlog, releasePermit]
  omega

theorem backlog_recv {job : QueuedChatJob} {pending : List QueuedChatJob}
    (hidle : s.dispatcher = .idle) (hpending : s.inner.pending = job :: pending) :
    ({ s with dispatcher := .waiting job, inner := { s.inner with pending := pending } } :
      ChatSystem).backlog < s.backlog := by
  simp only [backlog, hidle, hpending, Dispatcher.left, length_cons]
  omega

theorem backlog_acquire {job : QueuedChatJob} (hwaiting : s.dispatcher = .waiting job)
    (turnSem : ℕ) :
    ({ s with dispatcher := .permitted job, inner := { s.inner with turnSem := turnSem } } :
      ChatSystem).backlog < s.backlog := by
  simp only [backlog, hwaiting, Dispatcher.left]
  omega

theorem backlog_spawn {job : QueuedChatJob} (hpermitted : s.dispatcher = .permitted job)
    (metrics : QueueMetrics) (history : History) :
    ({ s with
      dispatcher := .idle, workers := s.workers ++ [⟨job, .executing⟩]
      inner := { s.inner with metrics := metrics }, history := history } :
      ChatSystem).backlog < s.backlog := by
  simp only [backlog, hpermitted, Dispatcher.left, map_append, map_cons, map_nil,
    sum_append, sum_cons, sum_nil, Phase.left]
  omega

/-- A change in a closed queue keeps it closed, accepts nothing and does not add to the backlog. -/
theorem Closed.change (hs : s.Closed) (h : Change s t) :
    t.Closed ∧ t.history.accepted = s.history.accepted ∧ t.backlog ≤ s.backlog := by
  have hout : ∀ {i : ℕ} {submission : Submission}, s.submissions[i]? = some submission →
      submission.mayEnter = false := fun h => hs.noEntry _ (mem_of_getElem? h)
  have hend : ∀ i, ∀ k ∈ (s.endSubmission i).submissions, k.mayEnter = false :=
    fun i k hk => hs.noEntry k (mem_of_mem_eraseIdx hk)
  have hkept : t.submissions = s.submissions → t.inner.shutdownTriggered = true → t.Closed :=
    fun hsub hdown => ⟨hdown, hsub ▸ hs.noEntry⟩
  have hphase : ∀ {i : ℕ} {job : QueuedChatJob} {phase : Phase},
      s.workers[i]? = some ⟨job, phase⟩ → ∀ phase' : Phase, phase'.left < phase.left →
        (s.setPhase i job phase').backlog ≤ s.backlog :=
    fun h phase' hleft => (backlog_setPhase h hleft).le
  cases h with
  | draw kind =>
    refine ⟨⟨hs.down, fun k hk => ?_⟩, rfl, Nat.le_refl _⟩
    rcases mem_append.mp hk with hk | hk
    · exact hs.noEntry k hk
    · rw [mem_singleton.mp hk]
      rfl
  | leave h hticket => exact ⟨⟨hs.down, hend _⟩, rfl, Nat.le_refl _⟩
  | unregisterRejected h => exact ⟨⟨hs.down, hend _⟩, rfl, Nat.le_refl _⟩
  | enter h hopen =>
    rw [hs.down] at hopen
    cases hopen
  | register h => cases hout h
  | sendJson h hroom => cases hout h
  | sendStream h hroom => cases hout h
  | full h => cases hout h
  | recv hidle hpending => exact ⟨hkept rfl hs.down, rfl, (backlog_recv hidle hpending).le⟩
  | acquire hwaiting hfree => exact ⟨hkept rfl hs.down, rfl, (backlog_acquire hwaiting _).le⟩
  | spawn hpermitted => exact ⟨hkept rfl hs.down, rfl, (backlog_spawn hpermitted _ _).le⟩
  | @runEnds i job h outcome =>
    exact ⟨hkept rfl hs.down, rfl, hphase h (.ended outcome) (by simp [Phase.left])⟩
  | @unregister i jobId cancel outcome h =>
    exact ⟨hkept rfl hs.down, rfl, hphase h (.unregistered outcome) (by simp [Phase.left])⟩
  | @skipUnregister i jobId outcome h =>
    exact ⟨hkept rfl hs.down, rfl, hphase h (.unregistered outcome) (by simp [Phase.left])⟩
  | @uncount i job outcome h =>
    exact ⟨hkept rfl hs.down, rfl, hphase h (.uncounted outcome) (by simp [Phase.left])⟩
  | @bump i job outcome h =>
    exact ⟨hkept rfl hs.down, rfl, hphase h (.bumped outcome) (by simp [Phase.left])⟩
  | @record i job outcome h durationMs =>
    exact ⟨hkept rfl hs.down, rfl, hphase h (.recorded outcome) (by simp [Phase.left])⟩
  | @release i job outcome h =>
    exact ⟨hkept rfl hs.down, rfl, (backlog_releasePermit h job).le⟩
  | @panic i job h => exact ⟨hkept rfl hs.down, rfl, (backlog_releasePermit h job).le⟩
  | closed h | cancel h | btwAcquire hfree | btwRelease hbtw =>
    exact ⟨hkept rfl hs.down, rfl, Nat.le_refl _⟩
  | shutdown => exact ⟨hkept rfl rfl, rfl, Nat.le_refl _⟩

theorem backlog_runEnds {i : ℕ} {job : QueuedChatJob}
    (h : s.workers[i]? = some ⟨job, .executing⟩) (outcome : JobOutcome) :
    (s.step (.runEnds i outcome)).backlog < s.backlog := by
  have hstep : s.step (.runEnds i outcome) = s.setPhase i job (.ended outcome) := by
    simp [ChatSystem.step, work, h, runEnds]
  rw [hstep]
  exact backlog_setPhase h (by simp [Phase.left])

theorem backlog_finish {i : ℕ} {job : QueuedChatJob} {phase : Phase}
    (h : s.workers[i]? = some ⟨job, phase⟩) (hover : phase ≠ .executing) (durationMs : ℕ) :
    (s.step (.finish i durationMs)).backlog < s.backlog := by
  have hstep : s.step (.finish i durationMs) = s.finish i durationMs ⟨job, phase⟩ := by
    simp [ChatSystem.step, work, h]
  have hphase : ∀ phase' : Phase, phase'.left < phase.left →
      (s.setPhase i job phase').backlog < s.backlog := fun phase' => backlog_setPhase h
  rw [hstep]
  cases phase with
  | executing => exact absurd rfl hover
  | ended outcome =>
    have hlt := hphase (.unregistered outcome) (by simp [Phase.left])
    cases job <;> exact hlt
  | unregistered outcome => exact hphase (.uncounted outcome) (by simp [Phase.left])
  | uncounted outcome => exact hphase (.bumped outcome) (by simp [Phase.left])
  | bumped outcome => exact hphase (.recorded outcome) (by simp [Phase.left])
  | recorded outcome => exact backlog_releasePermit h job

/-- An internal step changes nothing or lowers the backlog. -/
theorem step_internal (s : ChatSystem) {op : QueueOp} (hop : op.internal = true) :
    s.step op = s ∨ (s.step op).backlog < s.backlog := by
  have hnone : ∀ {i : ℕ} (f : Worker → ChatSystem), s.workers[i]? = none → s.work i f = s := by
    intro i f h
    simp [work, h]
  cases op with
  | recv =>
    change s.recv = s ∨ s.recv.backlog < s.backlog
    unfold recv
    split
    · rename_i hidle hpending
      exact .inr (backlog_recv hidle hpending)
    · exact .inl rfl
  | acquire =>
    change s.acquire = s ∨ s.acquire.backlog < s.backlog
    unfold acquire
    split
    · rename_i hwaiting
      split
      · exact .inr (backlog_acquire hwaiting _)
      · exact .inl rfl
    · exact .inl rfl
  | spawn =>
    change s.spawn = s ∨ s.spawn.backlog < s.backlog
    unfold spawn
    split
    · rename_i hpermitted
      exact .inr (backlog_spawn hpermitted _ _)
    · exact .inl rfl
  | runEnds i outcome =>
    cases h : s.workers[i]? with
    | none => exact .inl (hnone _ h)
    | some w =>
      obtain ⟨job, phase⟩ := w
      cases phase with
      | executing => exact .inr (backlog_runEnds h outcome)
      | _ => left; simp [ChatSystem.step, work, h, runEnds]
  | finish i durationMs =>
    cases h : s.workers[i]? with
    | none => exact .inl (hnone _ h)
    | some w =>
      obtain ⟨job, phase⟩ := w
      by_cases hover : phase = .executing
      · left
        simp [ChatSystem.step, work, h, hover, ChatSystem.finish]
      · exact .inr (backlog_finish h hover durationMs)
  | panics i =>
    cases h : s.workers[i]? with
    | none => exact .inl (hnone _ h)
    | some w =>
      obtain ⟨job, phase⟩ := w
      cases phase with
      | executing =>
        right
        simp only [ChatSystem.step, work, h, panics]
        exact backlog_releasePermit h job
      | _ => left; simp [ChatSystem.step, work, h, panics]
  | _ => cases hop

theorem run_closed {s : ChatSystem} (hs : s.Closed) (more : List QueueOp) :
    let t := run ChatSystem.step s more
    t.Closed ∧ t.history.accepted = s.history.accepted ∧ t.backlog ≤ s.backlog := by
  refine ChatSystem.run_of_change (fun t => t.Closed ∧
    t.history.accepted = s.history.accepted ∧ t.backlog ≤ s.backlog) (fun t u ht h => ?_)
    ⟨hs, rfl, Nat.le_refl _⟩ more
  obtain ⟨hu, haccepted, hle⟩ := Closed.change ht.1 h
  exact ⟨hu, haccepted.trans ht.2.1, hle.trans ht.2.2⟩

/-- Where no step of the dispatcher and the workers changes anything and no short command has a
permit, nothing waits and nobody works. -/
theorem idle_of_stuck (hs : Figures s) (hpermit : 0 < s.inner.maxConcurrent) (hbtw : s.btw = 0)
    (hstuck : ∀ op : QueueOp, op.internal = true → s.step op = s) :
    s.inner.pending = [] ∧ s.dispatcher = .idle ∧ s.workers = [] := by
  have hsame : ∀ op : QueueOp, op.internal = true → ¬ (s.step op).backlog < s.backlog :=
    fun op hop hlt => by
      rw [hstuck op hop] at hlt
      exact Nat.lt_irrefl _ hlt
  have hworkers : s.workers = [] := by
    cases hw : s.workers with
    | nil => rfl
    | cons w rest =>
      have h : s.workers[0]? = some w := by rw [hw]; rfl
      obtain ⟨job, phase⟩ := w
      by_cases hphase : phase = .executing
      · subst hphase
        exact absurd (backlog_runEnds h ⟨true, false, none⟩) (hsame _ rfl)
      · exact absurd (backlog_finish h hphase 0) (hsame _ rfl)
  have hidle : s.dispatcher = .idle := by
    cases hd : s.dispatcher with
    | idle => rfl
    | waiting job =>
      have hpermits := hs.permits
      rw [hbtw, hworkers, hd] at hpermits
      simp only [length_nil, Dispatcher.permits] at hpermits
      have hfree : 0 < s.inner.turnSem := by omega
      have hlt := backlog_acquire hd (s.inner.turnSem - 1)
      have hstep := hsame .acquire rfl
      simp only [ChatSystem.step, acquire, hd, if_pos hfree] at hstep
      exact absurd hlt hstep
    | permitted job =>
      have hstep := hsame .spawn rfl
      simp only [ChatSystem.step, spawn, hd] at hstep
      exact absurd (backlog_spawn hd _ _) hstep
  refine ⟨?_, hidle, hworkers⟩
  cases hp : s.inner.pending with
  | nil => rfl
  | cons job pending =>
    have hstep := hsame .recv rfl
    simp only [ChatSystem.step, recv, hidle, hp] at hstep
    exact absurd (backlog_recv hidle hp) hstep

/-- After a shutdown with no request past its check, nothing more is accepted, the backlog never
grows, and every step of the dispatcher or a worker that changes anything lowers it. Once none can
and no short command has a permit, each accepted job has one record or died of a panic. -/
theorem chat_queue_drains (maxConcurrent maxPending : ℕ) (ops more : List QueueOp)
    (hdown :
      (run ChatSystem.step (new maxConcurrent maxPending) ops).inner.shutdownTriggered = true)
    (hentry : ∀ k ∈ (run ChatSystem.step (new maxConcurrent maxPending) ops).submissions,
      k.mayEnter = false) :
    let s := run ChatSystem.step (new maxConcurrent maxPending) ops
    let t := run ChatSystem.step (new maxConcurrent maxPending) (ops ++ more)
    t.history.accepted = s.history.accepted ∧ t.backlog ≤ s.backlog ∧
      (∀ op : QueueOp, op.internal = true → t.step op = t ∨ (t.step op).backlog < t.backlog) ∧
      (t.btw = 0 → (∀ op : QueueOp, op.internal = true → t.step op = t) →
        (s.history.accepted.map QueuedChatJob.jobId).Perm
          (t.history.records.map ChatJobRecord.jobId ++
            t.history.panicked.map QueuedChatJob.jobId)) := by
  intro s t
  have hrun : t = run ChatSystem.step s more := run_append ChatSystem.step _ ops more
  obtain ⟨_, haccepted, hle⟩ := run_closed (s := s) ⟨hdown, hentry⟩ more
  rw [← hrun] at haccepted hle
  refine ⟨haccepted, hle, fun op hop => step_internal t hop, fun hbtw hstuck => ?_⟩
  have hfig : Figures t := figures_of_run maxConcurrent maxPending (ops ++ more)
  have hlimit : t.inner.maxConcurrent = max maxConcurrent 1 :=
    (limits_of_run maxConcurrent maxPending (ops ++ more)).1
  obtain ⟨hpending, hidle, hworkers⟩ := idle_of_stuck hfig (by omega) hbtw hstuck
  have horder : t.history.accepted = t.history.started ++ (t.dispatcher.held ++ t.inner.pending) :=
    (orderly_of_run maxConcurrent maxPending (ops ++ more)).inOrder
  have honce := started_perm maxConcurrent maxPending (ops ++ more)
  rw [hpending, hidle, Dispatcher.held, append_nil, append_nil] at horder
  rw [← haccepted, horder]
  have hall : (t.workers.filter fun w => !w.phase.isRecorded).map (fun w => w.job.jobId) = [] := by
    rw [hworkers]; rfl
  exact honce.trans (by rw [hall, append_nil])

/-- One job is accepted before the shutdown and has its record in the end. -/
theorem chat_queue_drains_one_job :
    let ops : List QueueOp := [.nextJobId .json, .rejectIfShutdown 0, .trySend 0, .shutdown]
    let more : List QueueOp := [.recv, .acquire, .spawn, .runEnds 0 ⟨true, false, none⟩,
      .finish 0 5, .finish 0 5, .finish 0 5, .finish 0 5, .finish 0 5]
    let s := run ChatSystem.step (new 1 1) ops
    let t := run ChatSystem.step (new 1 1) (ops ++ more)
    t.history.accepted = s.history.accepted ∧ t.backlog ≤ s.backlog ∧
      (∀ op : QueueOp, op.internal = true → t.step op = t ∨ (t.step op).backlog < t.backlog) ∧
      (t.btw = 0 → (∀ op : QueueOp, op.internal = true → t.step op = t) →
        (s.history.accepted.map QueuedChatJob.jobId).Perm
          (t.history.records.map ChatJobRecord.jobId ++
            t.history.panicked.map QueuedChatJob.jobId)) :=
  chat_queue_drains 1 1 _ _ rfl (forall_mem_nil _)

end ChatJobQueue
end CrabMate
