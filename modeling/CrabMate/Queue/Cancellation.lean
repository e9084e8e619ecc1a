import CrabMate.Queue.Service

/-! The cancel flags. The map of the queue lists the stream jobs that are registered and not yet
over, and a request to cancel reaches the job with the id and no other. -/
namespace CrabMate
open Run

namespace ChatJobQueue

namespace ChatSystem

/-- The stream jobs that died of a panic stay on the board. -/
def tickets (s : ChatSystem) : List Board.Ticket :=
  s.submissions.map Submission.ticket ++
    ((s.dispatcher.held ++ s.inner.pending).filterMap QueuedChatJob.ticket? ++
      (s.workers.filterMap Worker.ticket? ++ s.history.panicked.filterMap QueuedChatJob.ticket?))

/-- The cancel flags as a board with its tickets. -/
def board (s : ChatSystem) : Board.State where
  next := s.inner.nextJobId
  tickets := s.tickets
  board := s.inner.streamCancels
  flags := s.inner.flags
  struck := s.history.cancelled

end ChatSystem

variable {s t : ChatSystem}

namespace ChatSystem

def withoutWorker (s : ChatSystem) (i : ℕ) : ChatSystem :=
  { s with workers := s.workers.eraseIdx i }

theorem tickets_submission {i : ℕ} {submission : Submission}
    (h : s.submissions[i]? = some submission) :
    s.tickets.Perm (submission.ticket :: (s.endSubmission i).tickets) :=
  ((Station.perm_cons_eraseIdx h).map Submission.ticket).append_right _

theorem tickets_setSubmission {i : ℕ} {submission : Submission}
    (h : s.submissions[i]? = some submission) (submission' : Submission) :
    (s.setSubmission i submission').tickets.Perm
      (submission'.ticket :: (s.endSubmission i).tickets) := by
  have hi : i < s.submissions.length := (List.getElem?_eq_some_iff.mp h).1
  exact ((List.set_perm_cons_eraseIdx hi submission').map Submission.ticket).append_right _

theorem perm_of_workers {front : List Board.Ticket} (rest : List Board.Ticket)
    {workers : List Worker}
    (h : (workers.filterMap Worker.ticket?).Perm (front ++ rest)) (s : ChatSystem) :
    ({ s with workers := workers } : ChatSystem).tickets.Perm
      (front ++ (s.submissions.map Submission.ticket ++
        ((s.dispatcher.held ++ s.inner.pending).filterMap QueuedChatJob.ticket? ++
          (rest ++ s.history.panicked.filterMap QueuedChatJob.ticket?)))) := by
  refine List.perm_iff_count.mpr fun x => ?_
  have hx := h.count_eq x
  simp only [tickets, List.count_append] at hx ⊢
  omega

theorem tickets_worker {i : ℕ} {w : Worker} (h : s.workers[i]? = some w) :
    s.tickets.Perm (w.ticket?.toList ++ (s.withoutWorker i).tickets) := by
  refine perm_of_workers ((s.workers.eraseIdx i).filterMap Worker.ticket?) ?_ s
  have hperm := (Station.perm_cons_eraseIdx h).filterMap Worker.ticket?
  rw [List.filterMap_cons] at hperm
  cases hw : w.ticket? <;> simpa [hw] using hperm

theorem tickets_setPhase {i : ℕ} {w : Worker} (h : s.workers[i]? = some w) (job : QueuedChatJob)
    (phase : Phase) :
    (s.setPhase i job phase).tickets.Perm
      ((Worker.ticket? ⟨job, phase⟩).toList ++ (s.withoutWorker i).tickets) := by
  refine perm_of_workers ((s.workers.eraseIdx i).filterMap Worker.ticket?) ?_ s
  have hi : i < s.workers.length := (List.getElem?_eq_some_iff.mp h).1
  have hperm := (List.set_perm_cons_eraseIdx hi ⟨job, phase⟩).filterMap Worker.ticket?
  rw [List.filterMap_cons] at hperm
  cases hw : Worker.ticket? ⟨job, phase⟩ <;> simpa [hw] using hperm

theorem tickets_setPhase_same {i : ℕ} {job : QueuedChatJob} {phase : Phase}
    (h : s.workers[i]? = some ⟨job, phase⟩) (phase' : Phase)
    (hentered : phase'.entered = phase.entered) :
    (s.setPhase i job phase').tickets.Perm s.tickets := by
  have hset := tickets_setPhase h job phase'
  have hold := tickets_worker h
  simp only [Worker.ticket?, hentered] at hset hold
  exact hset.trans hold.symm

theorem tickets_enqueue {i : ℕ} (s : ChatSystem) (job : QueuedChatJob) :
    (s.enqueue i job).tickets.Perm (job.ticket?.toList ++ (s.endSubmission i).tickets) := by
  refine List.perm_iff_count.mpr fun x => ?_
  simp only [tickets, enqueue, endSubmission, List.filterMap_append, List.count_append,
    List.filterMap_cons, List.filterMap_nil]
  cases job.ticket? with
  | none => simp only [Option.toList_none, List.count_nil]; omega
  | some ticket => simp only [Option.toList_some]; omega

end ChatSystem

open ChatSystem

/-- The map of the cancel flags refines the board: each change is one of its moves. -/
theorem Change.board (hs : Board.Sound s.board) (h : Change s t) :
    t.board = s.board ∨ Board.Move s.board t.board := by
  cases h with
  | draw kind =>
    refine .inr (.draw ?_)
    refine List.perm_iff_count.mpr fun x => ?_
    simp only [ChatSystem.board, tickets, List.map_append, List.map_cons, List.map_nil,
      Submission.ticket, List.count_append, List.count_cons, List.count_nil]
    omega
  | leave h hticket =>
    have hperm := tickets_submission h
    rw [hticket] at hperm
    exact .inr (.drop hperm)
  | enter h hopen =>
    exact .inr (.rearrange ((tickets_setSubmission h _).trans (tickets_submission h).symm))
  | full h =>
    exact .inr (.rearrange ((tickets_setSubmission h _).trans (tickets_submission h).symm))
  | @register i jobId h =>
    exact .inr (.enter (tickets_submission h)
      (tickets_setSubmission h (.registered jobId s.inner.flags.length)))
  | @sendJson i jobId h hroom =>
    have hperm := (tickets_submission h).trans ((tickets_enqueue s (.json jobId)).symm.cons _)
    exact .inr (.drop hperm)
  | @sendStream i jobId cancel h hroom =>
    exact .inr (.rearrange ((tickets_enqueue s (.stream jobId cancel)).trans
      (tickets_submission h).symm))
  | unregisterRejected h => exact .inr (.withdraw (tickets_submission h))
  | recv hidle hpending =>
    left
    simp [ChatSystem.board, tickets, hidle, hpending, Dispatcher.held]
  | acquire hwaiting hfree =>
    left
    simp [ChatSystem.board, tickets, hwaiting, Dispatcher.held]
  | spawn hpermitted =>
    refine .inr (.rearrange ?_)
    refine List.perm_iff_count.mpr fun x => ?_
    simp only [ChatSystem.board, tickets, hpermitted, Dispatcher.held, List.nil_append,
      List.filterMap_append, List.count_append, List.filterMap_cons, List.filterMap_nil,
      Worker.ticket?, Phase.entered, if_true]
    omega
  | runEnds h outcome =>
    exact .inr (.rearrange (tickets_setPhase_same h (.ended outcome) rfl))
  | @unregister i jobId cancel outcome h =>
    have hperm := (tickets_worker h).trans (((tickets_setPhase h (.stream jobId cancel)
      (.unregistered outcome)).symm).cons (jobId, some cancel))
    exact .inr (.withdraw hperm)
  | @skipUnregister i jobId outcome h =>
    refine .inr (.rearrange ?_)
    exact (tickets_setPhase h (.json jobId) (.unregistered outcome)).trans (tickets_worker h).symm
  | @uncount i job outcome h =>
    exact .inr (.rearrange (tickets_setPhase_same h (.uncounted outcome) rfl))
  | @bump i job outcome h =>
    exact .inr (.rearrange (tickets_setPhase_same h (.bumped outcome) rfl))
  | @record i job outcome h durationMs =>
    exact .inr (.rearrange (tickets_setPhase_same h (.recorded outcome) rfl))
  | release h => exact .inr (.rearrange (tickets_worker h).symm)
  | @panic i job h =>
    refine .inr (.rearrange (List.Perm.trans ?_ (tickets_worker h).symm))
    refine List.perm_iff_count.mpr fun x => ?_
    simp only [tickets, releasePermit, withoutWorker, Worker.ticket?,
      Phase.entered, if_true, List.filterMap_append, List.filterMap_cons, List.filterMap_nil,
      List.count_append]
    cases job.ticket? with
    | none => simp only [Option.toList_none, List.count_nil]; omega
    | some ticket => simp only [Option.toList_some]; omega
  | @closed i jobId cancel h =>
    have hmem : (jobId, some cancel) ∈ s.tickets :=
      (tickets_worker h).mem_iff.mpr (List.mem_append_left _ List.mem_cons_self)
    exact .inr (.strike hmem (List.Perm.refl _))
  | cancel h => exact .inr (.strike ((hs.listed _ _).mp h) (List.Perm.refl _))
  | btwAcquire hfree | btwRelease hbtw | shutdown => exact .inl rfl

theorem board_sound_of_run (maxConcurrent maxPending : ℕ) (ops : List QueueOp) :
    Board.Sound (run ChatSystem.step (new maxConcurrent maxPending) ops).board := by
  have hnew : Board.Sound (new maxConcurrent maxPending).board := by
    refine ⟨List.nodup_nil, ?_, ?_, ?_, ?_, ?_, ?_, ?_⟩ <;>
      simp [ChatSystem.board, tickets, new, Dispatcher.held]
  refine ChatSystem.run_of_change (fun s => Board.Sound s.board) (fun s t hs h => ?_)
    hnew ops
  rcases h.board hs with heq | hmove
  · rwa [heq]
  · exact hs.move hmove

section Results

/-- A stream job is registered for cancellation: its request is between the registration and the
end of `try_submit_stream`, it waits, its run is not over, or its run died of a panic. -/
structure ChatSystem.Cancellable (s : ChatSystem) (jobId : ℕ) (cancel : CancelFlag) : Prop where
  somewhere : .registered jobId cancel ∈ s.submissions ∨ .full jobId cancel ∈ s.submissions ∨
    .stream jobId cancel ∈ s.dispatcher.held ++ s.inner.pending ∨
    (∃ w ∈ s.workers, w.job = .stream jobId cancel ∧ w.phase.entered = true) ∨
    .stream jobId cancel ∈ s.history.panicked

theorem Submission.ticket_eq_some {submission : Submission} {jobId : ℕ} {cancel : CancelFlag} :
    submission.ticket = (jobId, some cancel) ↔
      submission = .registered jobId cancel ∨ submission = .full jobId cancel := by
  cases submission <;> simp [Submission.ticket]

theorem QueuedChatJob.ticket?_eq_some {job : QueuedChatJob} {jobId : ℕ} {cancel : CancelFlag} :
    job.ticket? = some (jobId, some cancel) ↔ job = .stream jobId cancel := by
  cases job <;> simp [QueuedChatJob.ticket?]

theorem mem_filterMap_ticket {jobs : List QueuedChatJob} {jobId : ℕ} {cancel : CancelFlag} :
    (jobId, some cancel) ∈ jobs.filterMap QueuedChatJob.ticket? ↔
      .stream jobId cancel ∈ jobs := by
  rw [List.mem_filterMap]
  constructor
  · rintro ⟨job, hmem, hticket⟩
    rwa [← QueuedChatJob.ticket?_eq_some.mp hticket]
  · exact fun hmem => ⟨_, hmem, rfl⟩

theorem mem_tickets_iff {jobId : ℕ} {cancel : CancelFlag} :
    (jobId, some cancel) ∈ s.tickets ↔ s.Cancellable jobId cancel := by
  have hsub : (jobId, some cancel) ∈ s.submissions.map Submission.ticket ↔
      .registered jobId cancel ∈ s.submissions ∨ .full jobId cancel ∈ s.submissions := by
    simp only [List.mem_map, Submission.ticket_eq_some, and_or_left, exists_or, exists_eq_right]
  have hwork : (jobId, some cancel) ∈ s.workers.filterMap Worker.ticket? ↔
      ∃ w ∈ s.workers, w.job = .stream jobId cancel ∧ w.phase.entered = true := by
    simp only [List.mem_filterMap, Worker.ticket?, Option.ite_none_right_eq_some,
      QueuedChatJob.ticket?_eq_some, and_comm]
  rw [tickets, List.mem_append, List.mem_append, List.mem_append, hsub, mem_filterMap_ticket,
    hwork, mem_filterMap_ticket, or_assoc]
  exact ⟨fun h => ⟨h⟩, fun h => h.somewhere⟩

theorem requestStreamCancel_fst (g : Inner) (jobId : ℕ) :
    (g.requestStreamCancel jobId).1 = (g.streamCancels.lookup jobId).isSome := by
  unfold Inner.requestStreamCancel
  cases g.streamCancels.lookup jobId <;> rfl

/-- A request to cancel is granted exactly while a stream job with the id is registered. It sets
the flag of that job and of no other, and the flag of a registered job is set exactly when a
request for its id was granted or its event channel was closed. -/
theorem chat_queue_cancel_reaches (maxConcurrent maxPending : ℕ) (ops : List QueueOp)
    (jobId : ℕ) :
    let s := run ChatSystem.step (new maxConcurrent maxPending) ops
    ((s.inner.requestStreamCancel jobId).1 = true ↔ ∃ cancel, s.Cancellable jobId cancel) ∧
      ∀ otherId cancel, s.Cancellable otherId cancel →
        (s.inner.flags[cancel]? = some true ↔ otherId ∈ s.history.cancelled) ∧
        ((s.inner.requestStreamCancel jobId).2.flags[cancel]? = some true ↔
          otherId = jobId ∨ otherId ∈ s.history.cancelled) := by
  intro s
  have hsound : Board.Sound s.board := board_sound_of_run maxConcurrent maxPending ops
  have hlisted : ∀ n f, s.inner.streamCancels.lookup n = some (n, f) ↔ s.Cancellable n f :=
    fun n f => (hsound.listed n f).trans mem_tickets_iff
  refine ⟨?_, fun otherId cancel hother => ?_⟩
  · rw [requestStreamCancel_fst, Option.isSome_iff_exists]
    constructor
    · rintro ⟨⟨n, f⟩, hrow⟩
      have hn : n = jobId := (Table.lookup_eq_some_iff.mp hrow).2
      subst hn
      exact ⟨f, (hlisted n f).mp hrow⟩
    · rintro ⟨f, hf⟩
      exact ⟨_, (hlisted jobId f).mpr hf⟩
  · have hmem := mem_tickets_iff.mpr hother
    have hraised : s.inner.flags[cancel]? = some true ↔ otherId ∈ s.history.cancelled :=
      hsound.raised otherId cancel hmem
    refine ⟨hraised, ?_⟩
    cases hrow : s.inner.streamCancels.lookup jobId with
    | none =>
      have hne : otherId ≠ jobId := by
        rintro rfl
        rw [(hlisted otherId cancel).mpr hother] at hrow
        cases hrow
      simp [Inner.requestStreamCancel, hrow, hraised, hne]
    | some row =>
      obtain ⟨n, f⟩ := row
      have hn : n = jobId := (Table.lookup_eq_some_iff.mp hrow).2
      subst hn
      have hstruck := hsound.strike ((hsound.listed n f).mp hrow)
      have hflag := hstruck.raised otherId cancel hmem
      simp only [Inner.requestStreamCancel, hrow, Inner.store]
      rw [show (s.inner.flags.set f true)[cancel]? = some true ↔ _ from hflag, List.mem_append,
        List.mem_singleton, or_comm]
      rfl

end Results

end ChatJobQueue
end CrabMate
