import CrabMate.Lib.Run
import CrabMate.Jobs.Tables

/-! The registry over whole runs. Its tables stay in step, finished jobs keep their outcome, and
each callback is called once, when its job finishes. -/
namespace CrabMate
open Run List Option

/-- The registry with what its callers have seen: the jobs `register` returned with their
callbacks, the ids `try_start` handed out, and the callback calls that are under way or made. -/
structure JobSystem where
  inner : Inner
  drawn : ℕ
  registered : List (String × Option JobFinishedSink)
  handedOut : List String
  calling : List SinkCall
  called : List SinkCall
  deriving DecidableEq

inductive RegistryOp where
  | register (iteration : JobIteration) (now : ℤ) (workspace : String)
      (sourceTurnJobId : Option ℕ) (spawn : JobSpawn) (argsJson : String)
      (finishedSink : Option JobFinishedSink)
  | tryStart
  | pushOutput (id : String) (stream : SessionStream) (text : String)
  | cancel (id : String) (now : ℤ)
  | complete (id : String) (outcome : JobOutcome) (workspaceChanged : Bool) (now : ℤ)
  | getChecked (id : String) (now : ℤ)
  | pollOutput (id : String) (cursor : Option ℕ) (now : ℤ)
  | cleanup (iteration : JobIteration) (now : ℤ)
  | callSink (call : SinkCall)

namespace JobSystem

def new : JobSystem := ⟨.new, 0, [], [], [], []⟩

/-- The state after a change that may hand a callback over. -/
def handOver (s : JobSystem) (change : Option SinkCall × Inner) : JobSystem :=
  { s with inner := change.2, calling := s.calling ++ change.1.toList }

/-- One operation. `genToolJobId n` is the id of the `n`-th draw. -/
def step (limits : JobLimits) (genToolJobId : ℕ → String) (s : JobSystem) : RegistryOp → JobSystem
  | .register iteration now workspace sourceTurnJobId spawn argsJson finishedSink =>
    match s.inner.register limits iteration (genToolJobId s.drawn) now workspace sourceTurnJobId
      spawn argsJson finishedSink with
    | (.ok id, g) =>
      { s with
        inner := g, drawn := s.drawn + 1, registered := s.registered ++ [(id, finishedSink)] }
    | (.error _, g) => { s with inner := g }
  | .tryStart =>
    match s.inner.tryStart limits with
    | (some record, g) => { s with inner := g, handedOut := s.handedOut ++ [record.id] }
    | (none, g) => { s with inner := g }
  | .pushOutput id stream text => { s with inner := (s.inner.pushOutput limits id stream text).2 }
  | .cancel id now => s.handOver (s.inner.cancel id now).2
  | .complete id outcome workspaceChanged now =>
    s.handOver (s.inner.complete id outcome workspaceChanged now).2
  | .getChecked id now => { s with inner := (s.inner.getChecked limits id now).2 }
  | .pollOutput id cursor now => { s with inner := (s.inner.pollOutput limits id cursor now).2 }
  | .cleanup iteration now => { s with inner := (s.inner.cleanup limits iteration now).2 }
  | .callSink call =>
    if call ∈ s.calling then
      { s with calling := s.calling.erase call, called := s.called ++ [call] }
    else s

/-- The ids ever returned by `register`, in order. -/
def registeredIds (s : JobSystem) : List String := s.registered.map Prod.fst

/-- Workers complete the jobs they were handed, and the drawn ids differ. -/
def Permits (genToolJobId : ℕ → String) (s : JobSystem) : RegistryOp → Prop
  | .complete id _ _ _ => id ∈ s.handedOut
  | .register .. => genToolJobId s.drawn ∉ s.registeredIds
  | _ => True

instance (genToolJobId : ℕ → String) (s : JobSystem) (op : RegistryOp) :
    Decidable (s.Permits genToolJobId op) := by
  unfold Permits
  split <;> infer_instance

/-- The calls under way or made. -/
def calls (s : JobSystem) : List SinkCall := s.calling ++ s.called

/-- What the callers have seen fits the registry. -/
structure Accounts (s : JobSystem) : Prop where
  live : (s.inner.jobs.rows.map (·.id)).Sublist s.registeredIds
  remembered : ∀ id ∈ s.inner.expired, id ∈ s.registeredIds
  handed : ∀ id ∈ s.handedOut, ∀ r, s.inner.jobs.lookup id = some r → r.status ≠ .queued
  handedIds : ∀ id ∈ s.handedOut, id ∈ s.registeredIds
  waiting : ∀ id sink, (id, sink) ∈ s.inner.finishedSinks.rows ↔
    (id, some sink) ∈ s.registered ∧ s.inner.isOpen id = true
  taken : ∀ id sink, (∃ outcome, ⟨sink, id, outcome⟩ ∈ s.calls) ↔
    (id, some sink) ∈ s.registered ∧ s.inner.isOpen id = false
  once : (s.calls.map (·.id)).Nodup
  outcomes : ∀ call ∈ s.calls, ∀ r, s.inner.jobs.lookup call.id = some r →
    r.outcome = some call.outcome

variable {limits : JobLimits} {genToolJobId : ℕ → String} {s : JobSystem} {g : Inner}

theorem new_accounts : new.Accounts :=
  ⟨.slnil, by simp [new, Inner.new], by simp [new], by simp [new],
    by simp [new, Inner.new], by simp [new, calls], .nil, by simp [new, calls]⟩

theorem Accounts.quiet (h : s.Accounts) (hq : s.inner.Quiet g) :
    Accounts { s with inner := g } := by
  refine ⟨hq.ids.trans h.live, fun id hid => ?_, fun id hid r' hr' hqueued => ?_,
    h.handedIds, fun id sink => ?_, fun id sink => ?_, h.once, fun call hcall r' hr' => ?_⟩
  · obtain hold | hlive := hq.expired id hid
    · exact h.remembered id hold
    · exact h.live.subset hlive
  · obtain ⟨r, hr, -, -, hback⟩ := hq.records id r' hr'
    exact h.handed id hid r hr (hback hqueued)
  · rw [hq.opens, hq.sinks]
    exact h.waiting id sink
  · rw [hq.opens]
    exact h.taken id sink
  · obtain ⟨r, hr, hout, -, -⟩ := hq.records call.id r' hr'
    exact hout.trans (h.outcomes call hcall r hr)

theorem Accounts.lookup_none (h : s.Accounts) {id : String}
    (hid : id ∉ s.registeredIds) : s.inner.jobs.lookup id = none := by
  rw [Table.lookup_eq_none_iff]
  rintro r hr rfl
  exact hid (h.live.subset (List.mem_map_of_mem hr))

/-- Admission under a new id. -/
theorem Accounts.enrol (h : s.Accounts) (htidy : s.inner.Tidy limits) {r : JobRecord}
    (hnew : r.id ∉ s.registeredIds) (hqueued : r.status = .queued) (sink : Option JobFinishedSink) :
    Accounts
      { s with
        inner := s.inner.enrol r sink, drawn := s.drawn + 1
        registered := s.registered ++ [(r.id, sink)] } := by
  have hfresh := h.lookup_none hnew
  have hrows : (s.inner.enrol r sink).jobs.rows = s.inner.jobs.rows ++ [r] :=
    Table.rows_put_of_fresh (by simpa [Table.lookup_eq_none_iff] using hfresh)
  have hids : ∀ x : Option JobFinishedSink, (r.id, x) ∉ s.registered :=
    fun x hx => hnew (List.mem_map_of_mem hx)
  have hgrow : ∀ id ∈ s.registeredIds,
      id ∈ (s.registered ++ [(r.id, sink)]).map Prod.fst := by
    intro id hmem
    rw [map_append]
    exact mem_append_left _ hmem
  refine ⟨?_, fun id hmem => hgrow id (h.remembered id hmem), ?_,
    fun id hmem => hgrow id (h.handedIds id hmem), ?_, ?_, h.once, ?_⟩
  · rw [registeredIds, hrows, map_append, map_append]
    exact h.live.append (.refl _)
  · intro id hmem r' hr'
    rw [Inner.lookup_enrol hfresh] at hr'
    split at hr'
    · next heq => exact absurd (h.handedIds id hmem) (heq ▸ hnew)
    · exact h.handed id hmem r' hr'
  · intro id k
    rw [Inner.mem_sinks_enrol_iff (htidy.fresh_sinks hfresh), h.waiting,
      Inner.isOpen_enrol hfresh hqueued]
    by_cases heq : id = r.id
    · subst heq
      simp [hids, Prod.ext_iff]
    · simp [heq]
  · intro id k
    show (∃ outcome, _ ∈ s.calls) ↔ _
    rw [Inner.isOpen_enrol hfresh hqueued]
    by_cases heq : id = r.id
    · subst heq
      have hnone := (h.taken r.id k).not.mpr fun hmem => hids _ hmem.1
      simpa using hnone
    · simpa [heq] using h.taken id k
  · intro call hcall r' hr'
    rw [Inner.lookup_enrol hfresh] at hr'
    split at hr'
    · next heq =>
      have hreg := ((h.taken call.id call.sink).mp ⟨call.outcome, hcall⟩).1
      rw [heq] at hreg
      exact absurd hreg (hids _)
    · exact h.outcomes call hcall r' hr'

theorem Accounts.not_called (h : s.Accounts) {id : String}
    (hopen : s.inner.isOpen id = true) {call : SinkCall} (hcall : call ∈ s.calls) : call.id ≠ id := by
  rintro rfl
  have hclosed := ((h.taken call.id call.sink).mp ⟨call.outcome, hcall⟩).2
  rw [hopen] at hclosed
  cases hclosed

/-- The calls with one more under way. -/
def callsWith (s : JobSystem) (call : Option SinkCall) : List SinkCall :=
  (s.calling ++ call.toList) ++ s.called

theorem mem_callsWith {call : Option SinkCall} {x : SinkCall} :
    x ∈ s.callsWith call ↔ x ∈ s.calls ∨ call = some x := by
  simp only [callsWith, calls, mem_append, mem_toList]
  tauto

theorem nodup_callsWith (h : (s.calls.map (·.id)).Nodup) {call : Option SinkCall}
    (hnew : ∀ x, call = some x → ∀ y ∈ s.calls, y.id ≠ x.id) :
    ((s.callsWith call).map (·.id)).Nodup := by
  cases call with
  | none => simpa [callsWith, calls] using h
  | some x =>
    have hperm : (s.callsWith (some x)).Perm (x :: s.calls) := by
      rw [callsWith, calls, toList_some, append_assoc]
      exact perm_middle
    rw [(hperm.map _).nodup_iff, map_cons, nodup_cons]
    refine ⟨fun hmem => ?_, h⟩
    obtain ⟨y, hy, heq⟩ := List.mem_map.mp hmem
    exact hnew x rfl y hy heq

theorem mem_takenCall {g : Inner} {id : String} {outcome : JobOutcome} {x : SinkCall} :
    ((g.finishedSinks.lookup id).map fun k => (⟨k.2, id, outcome⟩ : SinkCall)) = some x ↔
      (id, x.sink) ∈ g.finishedSinks.rows ∧ x.id = id ∧ x.outcome = outcome := by
  rw [map_eq_some_iff]
  constructor
  · rintro ⟨k, hk, rfl⟩
    obtain ⟨hmem, hid⟩ := Table.lookup_eq_some_iff.mp hk
    exact ⟨hid ▸ hmem, rfl, rfl⟩
  · rintro ⟨hmem, hid, hout⟩
    refine ⟨(id, x.sink), Table.lookup_eq_some_iff.mpr ⟨hmem, rfl⟩, ?_⟩
    rw [← hid, ← hout]

/-- A job that finishes hands its callback over to be called with its outcome. -/
theorem Accounts.finish (h : s.Accounts) {id : String} {r : JobRecord}
    (hr : s.inner.jobs.lookup id = some r) (hopen : r.status.isTerminal = false)
    (f : JobRecord → JobRecord) (hf : ∀ r, (f r).id = r.id)
    (hdone : (f r).status.isTerminal = true) {outcome : JobOutcome}
    (hout : (f r).outcome = some outcome) (wasRunning : Bool)
    (outputs : Table (Prod.fst : String × JobOutputLog → String)) :
    Accounts
      { s with
        inner := { s.inner.finish id f hf wasRunning with outputs := outputs }
        calling := s.calling ++
          ((s.inner.finishedSinks.lookup id).map fun k => (⟨k.2, id, outcome⟩ : SinkCall)).toList } := by
  have hisOpen : s.inner.isOpen id = true := by simp [Inner.isOpen, hr, hopen]
  have hlookup : ∀ other, (s.inner.update id f hf).jobs.lookup other =
      if other = id then (s.inner.jobs.lookup id).map f else s.inner.jobs.lookup other :=
    Inner.lookup_update
  have hclosed : ∀ other, (s.inner.update id f hf).isOpen other =
      if other = id then false else s.inner.isOpen other := by
    intro other
    rw [Inner.isOpen_update hr, hdone]
    rfl
  refine ⟨?_, h.remembered, fun other hother r' hr' => ?_, h.handedIds, fun other k => ?_,
    fun other k => ?_, ?_, fun call hcall r' hr' => ?_⟩
  · exact (Inner.ids_update hf).symm ▸ h.live
  · change (s.inner.update id f hf).jobs.lookup other = some r' at hr'
    rw [hlookup] at hr'
    split at hr'
    · rw [hr, map_some, Option.some.injEq] at hr'
      rintro hqueued
      rw [← hr'] at hqueued
      simp [hqueued, JobStatus.isTerminal] at hdone
    · exact h.handed other hother r' hr'
  · show _ ∈ (s.inner.finishedSinks.deleteWhere _).rows ↔
      _ ∧ (s.inner.update id f hf).isOpen other = true
    rw [hclosed, Table.rows_deleteWhere, mem_filter, h.waiting]
    by_cases heq : other = id
    · simp [heq]
    · simp [heq]
  · show (∃ o, _ ∈ s.callsWith _) ↔ _ ∧ (s.inner.update id f hf).isOpen other = false
    simp only [mem_callsWith, mem_takenCall, hclosed]
    by_cases heq : other = id
    · subst heq
      have hnone : ∀ o, (⟨k, other, o⟩ : SinkCall) ∉ s.calls :=
        fun o hmem => h.not_called hisOpen hmem rfl
      simp [hnone, h.waiting, hisOpen]
    · simpa [heq] using h.taken other k
  · show ((s.callsWith _).map (·.id)).Nodup
    apply nodup_callsWith h.once
    rintro x hx call hcall
    exact (mem_takenCall.mp hx).2.1 ▸ h.not_called hisOpen hcall
  · change (s.inner.update id f hf).jobs.lookup call.id = some r' at hr'
    rw [hlookup] at hr'
    obtain hold | hnew := mem_callsWith.mp hcall
    · rw [if_neg (h.not_called hisOpen hold)] at hr'
      exact h.outcomes call hold r' hr'
    · obtain ⟨-, hid, houtcome⟩ := mem_takenCall.mp hnew
      rw [if_pos hid, hr, map_some, Option.some.injEq] at hr'
      rw [← hr', hout, houtcome]

theorem Accounts.callSink (h : s.Accounts) {call : SinkCall}
    (hcall : call ∈ s.calling) :
    Accounts
      { s with calling := s.calling.erase call, called := s.called ++ [call] } := by
  have hfront : (call :: (s.calling.erase call ++ s.called)).Perm s.calls :=
    ((perm_cons_erase hcall).append_right s.called).symm
  have hperm : (s.calling.erase call ++ (s.called ++ [call])).Perm s.calls := by
    rw [← append_assoc]
    exact (perm_append_singleton ..).trans hfront
  refine ⟨h.live, h.remembered, h.handed, h.handedIds, h.waiting, fun id k => ?_,
    (hperm.map _).nodup_iff.mpr h.once, fun x hx => h.outcomes x (hperm.mem_iff.mp hx)⟩
  rw [← h.taken id k]
  exact exists_congr fun o => hperm.mem_iff

theorem Accounts.handOut (h : s.Accounts) {id : String} (hid : id ∈ s.registeredIds)
    (hstarted : ∀ r, s.inner.jobs.lookup id = some r → r.status ≠ .queued) :
    Accounts { s with handedOut := s.handedOut ++ [id] } := by
  refine ⟨h.live, h.remembered, fun other hother => ?_, fun other hother => ?_, h.waiting,
    h.taken, h.once, h.outcomes⟩
  · obtain hold | hnew := mem_append.mp hother
    · exact h.handed other hold
    · exact mem_singleton.mp hnew ▸ hstarted
  · obtain hold | hnew := mem_append.mp hother
    · exact h.handedIds other hold
    · exact mem_singleton.mp hnew ▸ hid

/-- The registry's tables are in step and fit what the callers have seen. -/
structure Good (limits : JobLimits) (s : JobSystem) : Prop where
  tidy : s.inner.Tidy limits
  accounts : s.Accounts

theorem Good.keeps (h : s.Good limits) (hk : s.inner.Keeps limits g) :
    Good limits { s with inner := g } := ⟨hk.1, h.accounts.quiet hk.2⟩

theorem register_good (h : s.Good limits) (hfresh : genToolJobId s.drawn ∉ s.registeredIds)
    (iteration : JobIteration) (now : ℤ) (workspace : String) (sourceTurnJobId : Option ℕ)
    (spawn : JobSpawn) (argsJson : String) (finishedSink : Option JobFinishedSink) :
    (s.step limits genToolJobId (.register iteration now workspace sourceTurnJobId spawn argsJson
      finishedSink)).Good limits := by
  obtain ⟨g, hkeeps, ⟨e, hrefused⟩ | hadmitted⟩ := Inner.register_cases h.tidy iteration
    (genToolJobId s.drawn) now workspace sourceTurnJobId spawn argsJson finishedSink
  · simp only [step, hrefused]
    exact h.keeps hkeeps
  · simp only [step, hadmitted]
    have hg := h.keeps hkeeps
    exact ⟨Inner.enrol_tidy hg.tidy (hg.accounts.lookup_none hfresh)
        (fun hmem => hfresh (hg.accounts.remembered _ hmem)) rfl finishedSink,
      hg.accounts.enrol hg.tidy hfresh rfl finishedSink⟩

theorem tryStart_good (h : s.Good limits) :
    (s.step limits genToolJobId .tryStart).Good limits := by
  obtain hnone | ⟨id, queue, r, hq, hroom, hr, hqueued, hstart⟩ := Inner.tryStart_cases h.tidy
  · simp only [step, hnone]
    exact h
  · simp only [step, hstart]
    have hquiet : s.inner.Quiet { s.inner.update id Inner.startedRecord Inner.startedRecord_id with
        queue := queue, running := s.inner.running + 1 } :=
      (Inner.update_quiet hr Inner.startedRecord Inner.startedRecord_id
        (by simp [hqueued, JobStatus.isTerminal]) rfl rfl fun _ => hqueued).trans
          (.of_eq rfl rfl rfl)
    refine ⟨Inner.start_tidy h.tidy hq hroom hr _ _ rfl, ?_⟩
    obtain ⟨hmem, hid⟩ := Table.lookup_eq_some_iff.mp hr
    refine (h.accounts.quiet hquiet).handOut (h.accounts.live.subset ?_) fun r' hr' => ?_
    · exact List.mem_map.mpr ⟨r, hmem, rfl⟩
    · change (s.inner.update id Inner.startedRecord Inner.startedRecord_id).jobs.lookup r.id =
        some r' at hr'
      rw [Inner.lookup_update, if_pos hid, hr, map_some, Option.some.injEq] at hr'
      rw [← hr']
      exact JobStatus.noConfusion

theorem cancel_good (h : s.Good limits) (id : String) (now : ℤ) :
    (s.step limits genToolJobId (.cancel id now)).Good limits := by
  simp only [step]
  obtain hnone | ⟨r, hr, hrunning, hflag⟩ | ⟨r, hr, hqueued, hfinish⟩ :=
    Inner.cancel_cases s.inner id now
  · rw [hnone]
    simpa [handOver] using h
  · rw [hflag]
    have hopen : r.status.isTerminal = false := by simp [hrunning, JobStatus.isTerminal]
    have hkeeps : s.inner.Keeps limits
        (s.inner.update id Inner.flaggedRecord Inner.flaggedRecord_id) :=
      ⟨Inner.update_tidy h.tidy hr rfl, Inner.update_quiet hr _ _ hopen hopen rfl fun hq => hq⟩
    simpa [handOver] using h.keeps hkeeps
  · rw [hfinish]
    have hopen : r.status.isTerminal = false := by simp [hqueued, JobStatus.isTerminal]
    have htidy := Inner.finish_tidy h.tidy hr (Inner.finishedRecord Inner.cancelledOutcome now)
      (Inner.finishedRecord_id _ _) rfl
    simp only [hqueued, reduceCtorEq, decide_false] at htidy
    exact ⟨htidy, h.accounts.finish hr hopen _ (Inner.finishedRecord_id _ _) rfl rfl false _⟩

/-- The worker's job is not in the queue any more. -/
theorem complete_good (h : s.Good limits) (id : String) (outcome : JobOutcome)
    (workspaceChanged : Bool) (now : ℤ) (hown : id ∈ s.handedOut) :
    (s.step limits genToolJobId (.complete id outcome workspaceChanged now)).Good limits := by
  simp only [step]
  obtain hnone | ⟨r, hr, hopen, hdone, outputs, hids, hfinish⟩ :=
    Inner.complete_cases s.inner id outcome workspaceChanged now
  · rw [hnone]
    simpa [handOver] using h
  · rw [hfinish, ← h.tidy.queue_filter (h.accounts.handed id hown)]
    have htidy := Inner.finish_tidy h.tidy hr
      (Inner.completedRecord outcome workspaceChanged now) (Inner.completedRecord_id _ _ _) hdone
    exact ⟨Inner.outputs_tidy htidy hids _, h.accounts.finish hr hopen _ _ hdone rfl _ _⟩

theorem step_good (h : s.Good limits) (op : RegistryOp) (hop : s.Permits genToolJobId op) :
    (s.step limits genToolJobId op).Good limits := by
  cases op with
  | register iteration now workspace sourceTurnJobId spawn argsJson finishedSink =>
    exact register_good h hop ..
  | tryStart => exact tryStart_good h
  | pushOutput id stream text => exact h.keeps (Inner.pushOutput_keeps h.tidy id stream text)
  | cancel id now => exact cancel_good h id now
  | complete id outcome workspaceChanged now =>
    exact complete_good h id outcome workspaceChanged now hop
  | getChecked id now => exact h.keeps (Inner.getChecked_keeps h.tidy id now)
  | pollOutput id cursor now => exact h.keeps (Inner.pollOutput_keeps h.tidy id cursor now)
  | cleanup iteration now => exact h.keeps (Inner.cleanup_keeps h.tidy iteration now)
  | callSink call =>
    simp only [step]
    split
    · next hcall => exact ⟨h.tidy, h.accounts.callSink hcall⟩
    · exact h

theorem run_good {ops : List RegistryOp}
    (h : AllOk (step limits genToolJobId) (Permits genToolJobId) new ops) :
    (run (step limits genToolJobId) new ops).Good limits := by
  have hstep : ∀ s op, Good limits s → Permits genToolJobId s op →
      Good limits (step limits genToolJobId s op) :=
    fun _ op hs hop => step_good hs op hop
  exact invariant hstep ⟨Inner.new_tidy, new_accounts⟩ h

section Settled

/-- The job is known, and its record, where it exists, is finished in this way. -/
structure Settled (id : String) (status : JobStatus) (outcome : Option JobOutcome) (s : JobSystem) :
    Prop where
  known : id ∈ s.registeredIds
  terminal : status.isTerminal = true
  record : ∀ r, s.inner.jobs.lookup id = some r → r.status = status ∧ r.outcome = outcome

variable {id : String} {status : JobStatus} {outcome : Option JobOutcome}

theorem Settled.quiet (h : s.Settled id status outcome) (hq : s.inner.Quiet g) :
    Settled id status outcome { s with inner := g } := by
  refine ⟨h.known, h.terminal, fun r' hr' => ?_⟩
  obtain ⟨r, hr, hout, hterm, -⟩ := hq.records id r' hr'
  obtain ⟨hstatus, houtcome⟩ := h.record r hr
  exact ⟨(hterm (hstatus ▸ h.terminal)).trans hstatus, hout.trans houtcome⟩

/-- Another job finishes: this one is not open. -/
theorem Settled.finish (h : s.Settled id status outcome) {other : String} {r : JobRecord}
    (hr : s.inner.jobs.lookup other = some r) (hopen : r.status.isTerminal = false)
    {f : JobRecord → JobRecord} (hf : ∀ r, (f r).id = r.id) {s' : JobSystem}
    (hids : s'.registeredIds = s.registeredIds)
    (hjobs : s'.inner.jobs = (s.inner.update other f hf).jobs) :
    Settled id status outcome s' := by
  have hne : id ≠ other := by
    rintro rfl
    have hterm := h.terminal
    rw [← (h.record r hr).1, hopen] at hterm
    cases hterm
  refine ⟨hids ▸ h.known, h.terminal, fun r' hr' => ?_⟩
  rw [hjobs, Inner.lookup_update, if_neg hne] at hr'
  exact h.record r' hr'

theorem step_settled (h : s.Good limits) (hs : s.Settled id status outcome) (op : RegistryOp)
    (hop : s.Permits genToolJobId op) :
    (s.step limits genToolJobId op).Settled id status outcome := by
  cases op with
  | register iteration now workspace sourceTurnJobId spawn argsJson finishedSink =>
    obtain ⟨g, hkeeps, ⟨e, hrefused⟩ | hadmitted⟩ := Inner.register_cases h.tidy iteration
      (genToolJobId s.drawn) now workspace sourceTurnJobId spawn argsJson finishedSink
    · simp only [step, hrefused]
      exact hs.quiet hkeeps.2
    · simp only [step, hadmitted]
      have hg := (h.keeps hkeeps).accounts
      have hfresh : genToolJobId s.drawn ∉ s.registeredIds := hop
      have hne : id ≠ genToolJobId s.drawn := fun heq => hfresh (heq ▸ hs.known)
      refine ⟨?_, hs.terminal, fun r hr => ?_⟩
      · rw [registeredIds, map_append]
        exact mem_append_left _ hs.known
      · rw [Inner.lookup_enrol (hg.lookup_none hfresh), Inner.queuedRecord_id, if_neg hne] at hr
        exact (hs.quiet hkeeps.2).record r hr
  | tryStart =>
    obtain hnone | ⟨other, queue, r, -, -, hr, hqueued, hstart⟩ := Inner.tryStart_cases h.tidy
    · simp only [step, hnone]
      exact hs
    · simp only [step, hstart]
      exact hs.finish hr (by simp [hqueued, JobStatus.isTerminal]) Inner.startedRecord_id rfl rfl
  | pushOutput other stream text => exact hs.quiet (Inner.pushOutput_keeps h.tidy other stream text).2
  | cancel other now =>
    simp only [step]
    obtain hnone | ⟨r, hr, hrunning, hflag⟩ | ⟨r, hr, hqueued, hfinish⟩ :=
      Inner.cancel_cases s.inner other now
    · rw [hnone]
      exact ⟨hs.known, hs.terminal, hs.record⟩
    · rw [hflag]
      exact hs.finish hr (by simp [hrunning, JobStatus.isTerminal]) Inner.flaggedRecord_id rfl rfl
    · rw [hfinish]
      exact hs.finish hr (by simp [hqueued, JobStatus.isTerminal])
        (Inner.finishedRecord_id _ _) rfl rfl
  | complete other result workspaceChanged now =>
    simp only [step]
    obtain hnone | ⟨r, hr, hopen, -, outputs, -, hfinish⟩ :=
      Inner.complete_cases s.inner other result workspaceChanged now
    · rw [hnone]
      exact ⟨hs.known, hs.terminal, hs.record⟩
    · rw [hfinish]
      exact hs.finish hr hopen (Inner.completedRecord_id _ _ _) rfl rfl
  | getChecked other now => exact hs.quiet (Inner.getChecked_keeps h.tidy other now).2
  | pollOutput other cursor now => exact hs.quiet (Inner.pollOutput_keeps h.tidy other cursor now).2
  | cleanup iteration now => exact hs.quiet (Inner.cleanup_keeps h.tidy iteration now).2
  | callSink call =>
    simp only [step]
    split
    · exact ⟨hs.known, hs.terminal, hs.record⟩
    · exact hs

theorem run_settled {ops : List RegistryOp}
    (h : s.Good limits) (hops : AllOk (step limits genToolJobId) (Permits genToolJobId) s ops)
    (hs : s.Settled id status outcome) :
    (run (step limits genToolJobId) s ops).Settled id status outcome := by
  have hstep : ∀ s op, (Good limits s ∧ Settled id status outcome s) →
      Permits genToolJobId s op → Good limits (step limits genToolJobId s op) ∧
        Settled id status outcome (step limits genToolJobId s op) :=
    fun _ op hs hop => ⟨step_good hs.1 op hop, step_settled hs.1 hs.2 op hop⟩
  exact (invariant hstep ⟨h, hs⟩ hops).2

end Settled

/-- What the registry promises in every state: the counter, the queue, the output table and the
expired ids follow the records, and a callback has been taken out to be called, once and with the
job's outcome, exactly if its job has finished. -/
structure RegistryInvariant (limits : JobLimits) (s : JobSystem) : Prop where
  running : s.inner.running = s.inner.jobs.rows.countP fun r => r.status = .running
  bounded : s.inner.running ≤ limits.maxConcurrent
  queue : s.inner.queue = (s.inner.jobs.rows.filter fun r => r.status = .queued).map (·.id)
  queueNodup : s.inner.queue.Nodup
  queueOrder : s.inner.queue.Sublist s.registeredIds
  outputs : s.inner.outputs.rows.map Prod.fst = s.inner.jobs.rows.map (·.id)
  expired : ∀ id ∈ s.inner.expired, s.inner.jobs.lookup id = none
  once : (s.calls.map (·.id)).Nodup
  reported : ∀ id sink, (∃ outcome, ⟨sink, id, outcome⟩ ∈ s.calls) ↔
    (id, some sink) ∈ s.registered ∧ s.inner.isOpen id = false
  outcomes : ∀ call ∈ s.calls, ∀ r, s.inner.jobs.lookup call.id = some r →
    r.outcome = some call.outcome

theorem Good.invariant (h : s.Good limits) : s.RegistryInvariant limits := by
  have hsub : s.inner.queue.Sublist (s.inner.jobs.rows.map (·.id)) := by
    rw [h.tidy.queue]
    exact filter_sublist.map _
  exact ⟨h.tidy.running, h.tidy.bounded, h.tidy.queue, hsub.nodup s.inner.jobs.nodup,
    hsub.trans h.accounts.live, h.tidy.outputs, h.tidy.expired, h.accounts.once,
    h.accounts.taken, h.accounts.outcomes⟩

/-- In every run in which workers complete the jobs they were handed and the drawn ids differ, the
registry keeps its invariant, and a finished record keeps its status and outcome for as long as
it exists. -/
theorem registry_keeps_invariant (limits : JobLimits) (genToolJobId : ℕ → String)
    (earlier later : List RegistryOp)
    (h : AllOk (step limits genToolJobId) (Permits genToolJobId) new (earlier ++ later)) :
    let s := run (step limits genToolJobId) new earlier
    let s' := run (step limits genToolJobId) new (earlier ++ later)
    s'.RegistryInvariant limits ∧
      ∀ id r r', s.inner.jobs.lookup id = some r → r.status.isTerminal = true →
        s'.inner.jobs.lookup id = some r' → r'.status = r.status ∧ r'.outcome = r.outcome := by
  intro s s'
  refine ⟨(run_good h).invariant, fun id r r' hr hterm hr' => ?_⟩
  rw [allOk_append] at h
  have hgood := run_good h.1
  obtain ⟨hmem, hid⟩ := Table.lookup_eq_some_iff.mp hr
  have hsettled : s.Settled id r.status r.outcome := by
    refine ⟨hgood.accounts.live.subset (List.mem_map.mpr ⟨r, hmem, hid⟩), hterm, fun q hq => ?_⟩
    rw [hr, Option.some.injEq] at hq
    exact hq ▸ ⟨rfl, rfl⟩
  have hlater := run_settled hgood h.2 hsettled
  rw [← run_append] at hlater
  exact hlater.record r' hr'

section TwoJobs

/-- One job at a time, entries kept for 100 ns and 10 ns after their end. -/
def oneAtATime : JobLimits := ⟨1, 2, 100, 10, 3, 64⟩

def inOrder : JobIteration := ⟨fun records => records, fun _ => .refl _⟩

def drawnIds (n : ℕ) : String :=
  if n = 0 then "tooljob_5d1c0f6a9be24e07a3b18c2f4d6e7a90"
  else if n = 1 then "tooljob_0a4f93d2c7b8415e96d0e1f2a3b4c5d6"
  else "tooljob_e7c2b1a09f8d4c3e8b7a6f5d4c3b2a19"

def make : JobSpawn := ⟨"make", ["all"], "/ws", [], 600000000000, 4096⟩

def succeeded : JobOutcome := ⟨.succeeded, some 0, [], [], none, none⟩

/-- The first job runs to its end, the second is cancelled in the queue. -/
def twoJobs : List RegistryOp :=
  [.register inOrder 0 "/ws" (some 1) make "args" (some 7), .tryStart,
    .register inOrder 1 "/ws" (some 1) make "args" (some 8), .tryStart,
    .pushOutput (drawnIds 0) .stdout "ok", .cancel (drawnIds 1) 5, .callSink ⟨8, drawnIds 1,
      Inner.cancelledOutcome⟩, .complete (drawnIds 0) succeeded false 20]

/-- The second job expires and the third is registered. -/
def expiry : List RegistryOp :=
  [.getChecked (drawnIds 1) 200, .register inOrder 210 "/ws" none make "args" none,
    .cancel (drawnIds 0) 220]

theorem registry_keeps_invariant_twoJobs :
    AllOk (step oneAtATime drawnIds) (Permits drawnIds) new (twoJobs ++ expiry) ∧
      let s := run (step oneAtATime drawnIds) new (twoJobs ++ expiry)
      s.RegistryInvariant oneAtATime ∧ s.inner.queue = [drawnIds 2] ∧
        s.inner.expired = [drawnIds 1] ∧
        s.calls = [⟨7, drawnIds 0, succeeded⟩, ⟨8, drawnIds 1, Inner.cancelledOutcome⟩] :=
  have hok : AllOk (step oneAtATime drawnIds) (Permits drawnIds) new (twoJobs ++ expiry) := by
    decide +kernel
  ⟨hok, (registry_keeps_invariant oneAtATime drawnIds twoJobs expiry hok).1, by decide +kernel,
    by decide +kernel, by decide +kernel⟩

end TwoJobs

end JobSystem
end CrabMate
