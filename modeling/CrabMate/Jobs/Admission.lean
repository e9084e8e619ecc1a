import CrabMate.Jobs.Invariant

/-! Admission to the registry. A job is admitted by one caller and started by whichever caller
drains the queue next, so between the two more jobs can be admitted than may wait. -/
namespace CrabMate
open Run List

namespace Inner

section Registering

/-- No entry is free, and none can be freed. -/
def AtCapacity (limits : JobLimits) (g : Inner) : Prop :=
  limits.maxEntries ≤ g.jobs.rows.length ∧ ∀ r ∈ g.jobs.rows, r.status.isTerminal = false

/-- An entry is freed before a job is registered. -/
def Evicts (limits : JobLimits) (g : Inner) : Prop :=
  limits.maxEntries ≤ g.jobs.rows.length ∧ ∃ r ∈ g.jobs.rows, r.status.isTerminal = true

/-- Neither a slot nor a place in the queue is free. -/
def Full (limits : JobLimits) (g : Inner) : Prop :=
  limits.maxConcurrent ≤ g.running ∧ limits.maxQueued ≤ g.queue.length

instance (limits : JobLimits) (g : Inner) : Decidable (g.AtCapacity limits) :=
  inferInstanceAs (Decidable (_ ∧ _))

instance (limits : JobLimits) (g : Inner) : Decidable (g.Evicts limits) :=
  inferInstanceAs (Decidable (_ ∧ _))

instance (limits : JobLimits) (g : Inner) : Decidable (g.Full limits) :=
  inferInstanceAs (Decidable (_ ∧ _))

/-- The jobs that are waiting or running. -/
def load (g : Inner) : ℕ := g.queue.length + g.running

variable {limits : JobLimits} {g g' : Inner} (iteration : JobIteration)

theorem oldest_eq_none_iff {records : List JobRecord} : oldest records = none ↔ records = [] := by
  cases records with
  | nil => simp [oldest]
  | cons r rest =>
    simp only [oldest]
    split
    · simp
    · split <;> simp

theorem evictOneTerminal_eq_none_iff :
    g.evictOneTerminal iteration = none ↔ ∀ r ∈ g.jobs.rows, r.status.isTerminal = false := by
  have hperm : ∀ r, r ∈ iteration.order g.jobs.rows ↔ r ∈ g.jobs.rows :=
    fun r => (iteration.perm g.jobs.rows).mem_iff
  have hnone : g.evictOneTerminal iteration = none ↔
      oldest ((iteration.order g.jobs.rows).filter fun r => r.status.isTerminal) = none := by
    unfold evictOneTerminal
    split <;> rename_i hold <;> simp [hold]
  rw [hnone, oldest_eq_none_iff, filter_eq_nil_iff]
  simp [hperm]

/-- An eviction takes an entry, and no job that is waiting or running. -/
theorem evictOneTerminal_spec (h : g.Tidy limits)
    (hev : g.evictOneTerminal iteration = some g') :
    g'.queue = g.queue ∧ g'.running = g.running ∧ g' ≠ g := by
  obtain ⟨r, hr, hterm, rfl⟩ := evictOneTerminal_eq_some hev
  have hqueue : g.queue.filter (· ≠ r.id) = g.queue := by
    refine h.queue_filter fun q hq hqueued => ?_
    rw [hr, Option.some.injEq] at hq
    rw [hq, hqueued] at hterm
    cases hterm
  refine ⟨hqueue, rfl, fun hsame => ?_⟩
  have hgone : (g.forget r.id).jobs.lookup r.id = none := by rw [lookup_forget, if_pos rfl]
  have hjobs := congrArg Inner.jobs hsame
  change (g.forget r.id).jobs = g.jobs at hjobs
  rw [hjobs, hr] at hgone
  cases hgone

/-- What becomes of a job: it is refused for want of an entry, or for want of a place with or
without an entry freed before, or it is admitted. -/
theorem register_admission (h : g.Tidy limits) (id : String) (now : ℤ) (workspace : String)
    (sourceTurnJobId : Option ℕ) (spawn : JobSpawn) (argsJson : String)
    (finishedSink : Option JobFinishedSink) :
    let result := g.register limits iteration id now workspace sourceTurnJobId spawn argsJson
      finishedSink
    let record := queuedRecord id now workspace sourceTurnJobId spawn argsJson
    (g.AtCapacity limits ∧ result = (.error .atCapacity, g)) ∨
    (¬ g.AtCapacity limits ∧ g.Full limits ∧ ¬ g.Evicts limits ∧
      result = (.error .queueFull, g)) ∨
    (¬ g.AtCapacity limits ∧ g.Full limits ∧ g.Evicts limits ∧
      ∃ g' : Inner, g'.load = g.load ∧ g' ≠ g ∧ result = (.error .queueFull, g')) ∨
    (¬ g.AtCapacity limits ∧ ¬ g.Full limits ∧
      ∃ g' : Inner, g'.load = g.load ∧ result = (.ok id, g'.enrol record finishedSink)) := by
  intro result record
  by_cases hentries : limits.maxEntries ≤ g.jobs.rows.length
  · cases hev : g.evictOneTerminal iteration with
    | none =>
      left
      refine ⟨⟨hentries, (evictOneTerminal_eq_none_iff iteration).mp hev⟩, ?_⟩
      simp only [result, register, makeRoom, hentries, if_true, hev]
    | some g' =>
      right
      obtain ⟨hqueue, hrunning, hne⟩ := evictOneTerminal_spec iteration h hev
      have hterminal : ∃ r ∈ g.jobs.rows, r.status.isTerminal = true := by
        by_contra hnone
        have hall : ∀ r ∈ g.jobs.rows, r.status.isTerminal = false := by simpa using hnone
        rw [(evictOneTerminal_eq_none_iff iteration).mpr hall] at hev
        cases hev
      have hroom : ¬ g.AtCapacity limits := by
        rintro ⟨_, hall⟩
        obtain ⟨r, hr, hterm⟩ := hterminal
        rw [hall r hr] at hterm
        cases hterm
      have hload : g'.load = g.load := by rw [load, load, hqueue, hrunning]
      right
      by_cases hfull : g.Full limits
      · left
        refine ⟨hroom, hfull, ⟨hentries, hterminal⟩, g', hload, hne, ?_⟩
        simp only [result, register, makeRoom, hentries, if_true, hev, hrunning, hqueue,
          show limits.maxConcurrent ≤ g.running ∧ limits.maxQueued ≤ g.queue.length from hfull]
        simp
      · right
        refine ⟨hroom, hfull, g', hload, ?_⟩
        have hnot : ¬ (limits.maxConcurrent ≤ g.running ∧ limits.maxQueued ≤ g.queue.length) :=
          hfull
        simp only [result, register, makeRoom, hentries, if_true, hev, hrunning, hqueue, hnot,
          if_false]
        rfl
  · right
    have hroom : ¬ g.AtCapacity limits := fun hcap => hentries hcap.1
    by_cases hfull : g.Full limits
    · left
      refine ⟨hroom, hfull, fun hev => hentries hev.1, ?_⟩
      simp only [result, register, makeRoom, hentries, if_false,
        show limits.maxConcurrent ≤ g.running ∧ limits.maxQueued ≤ g.queue.length from hfull]
      simp
    · right
      right
      refine ⟨hroom, hfull, g, rfl, ?_⟩
      have hnot : ¬ (limits.maxConcurrent ≤ g.running ∧ limits.maxQueued ≤ g.queue.length) :=
        hfull
      simp only [result, register, makeRoom, hentries, if_false, hnot]
      rfl

@[simp] theorem load_enrol (r : JobRecord) (sink : Option JobFinishedSink) :
    (g.enrol r sink).load = g.load + 1 := by
  simp only [load, enrol, length_append, length_singleton]
  omega

end Registering

section Changes

variable {limits : JobLimits} {g : Inner}

theorem load_foldl_forget (ids : List String) : (ids.foldl forget g).load = g.load := by
  induction ids generalizing g with
  | nil => rfl
  | cons id ids ih => rw [foldl_cons, ih]; rfl

theorem load_getChecked (id : String) (now : ℤ) : (g.getChecked limits id now).2.load = g.load := by
  unfold getChecked
  split
  · rfl
  · split <;> rfl

theorem load_pollOutput (id : String) (cursor : Option ℕ) (now : ℤ) :
    (g.pollOutput limits id cursor now).2.load = g.load := by
  unfold pollOutput
  split
  · rfl
  · split <;> rfl

theorem load_pushOutput (id : String) (stream : SessionStream) (text : String) :
    (g.pushOutput limits id stream text).2.load = g.load := by
  unfold pushOutput
  split <;> rfl

theorem load_cleanup_le (iteration : JobIteration) (now : ℤ) :
    (g.cleanup limits iteration now).2.load ≤ g.load := by
  have hforget := load_foldl_forget (g := g) (((iteration.order g.jobs.rows).filter fun r =>
    r.status.isTerminal && r.pastRetention limits now).map (·.id))
  simp only [load] at hforget ⊢
  rw [← hforget]
  exact Nat.add_le_add_right (length_filter_le _ _) _

theorem load_finish_le (id : String) (f : JobRecord → JobRecord) (hf : ∀ r, (f r).id = r.id)
    (wasRunning : Bool) : (g.finish id f hf wasRunning).load ≤ g.load := by
  have hqueue := length_filter_le (· ≠ id) g.queue
  cases wasRunning <;> simp only [load, finish] <;> simp at * <;> omega

theorem load_cancel_le (id : String) (now : ℤ) : (g.cancel id now).2.2.load ≤ g.load := by
  obtain hnone | ⟨r, -, -, hflag⟩ | ⟨r, -, -, hfinish⟩ := cancel_cases g id now
  · exact Nat.le_of_eq (by rw [hnone])
  · rw [hflag]
    exact Nat.le_refl _
  · rw [hfinish]
    exact load_finish_le id _ _ false

theorem load_complete_le (id : String) (outcome : JobOutcome) (workspaceChanged : Bool) (now : ℤ) :
    (g.complete id outcome workspaceChanged now).2.2.load ≤ g.load := by
  obtain hnone | ⟨r, -, -, -, outputs, -, hfinish⟩ :=
    complete_cases g id outcome workspaceChanged now
  · exact Nat.le_of_eq (by rw [hnone])
  · rw [hfinish]
    simp only [load, finish]
    split <;> omega

theorem load_tryStart (h : g.Tidy limits) : (g.tryStart limits).2.load = g.load := by
  obtain hnone | ⟨id, queue, r, hq, -, -, -, hstart⟩ := tryStart_cases h
  · rw [hnone]
  · rw [hstart]
    simp only [load, hq, length_cons]
    omega

end Changes

end Inner

namespace JobSystem

section Model

variable (limits : JobLimits) (genToolJobId : ℕ → String) (s : JobSystem)

/-- `drain_queued`: starts jobs until none can be started. -/
def drainLoop : ℕ → JobSystem → JobSystem
  | 0, s => s
  | fuel + 1, s =>
    if (s.inner.tryStart limits).1.isSome then
      drainLoop fuel (s.step limits genToolJobId .tryStart)
    else s.step limits genToolJobId .tryStart

def drainQueued : JobSystem := drainLoop limits genToolJobId (s.inner.queue.length + 1) s

/-- A registration that is refused leaves the registry as it was. -/
def RefusalKeeps : RegistryOp → Prop
  | .register iteration now workspace sourceTurnJobId spawn argsJson finishedSink =>
    ∀ e g, s.inner.register limits iteration (genToolJobId s.drawn) now workspace sourceTurnJobId
      spawn argsJson finishedSink = (.error e, g) → g = s.inner
  | _ => True

/-- No entry is freed for a job that finds no place. -/
def EvictsForPlace : RegistryOp → Prop
  | .register .. => ¬ (s.inner.Evicts limits ∧ s.inner.Full limits)
  | _ => True

/-- A job that is admitted while a slot is free fits behind those that are to be started first. -/
def FitsBehind : RegistryOp → Prop
  | .register .. => ¬ s.inner.AtCapacity limits → s.inner.running < limits.maxConcurrent →
      s.inner.load < limits.maxConcurrent + limits.maxQueued
  | _ => True

instance (op : RegistryOp) : Decidable (s.FitsBehind limits op) :=
  match op with
  | .register .. => inferInstanceAs (Decidable (¬ s.inner.AtCapacity limits →
      s.inner.running < limits.maxConcurrent →
      s.inner.load < limits.maxConcurrent + limits.maxQueued))
  | .tryStart | .pushOutput .. | .cancel .. | .complete .. | .getChecked .. | .pollOutput ..
  | .cleanup .. | .callSink .. => .isTrue trivial

def Fits : Prop := s.inner.load ≤ limits.maxConcurrent + limits.maxQueued

def jobsWith (status : JobStatus) : ℕ := s.inner.jobs.rows.countP fun r => r.status = status

/-- While all slots are taken, no more jobs wait than may. -/
def WaitsWithin : Prop :=
  limits.maxConcurrent ≤ s.jobsWith .running → s.jobsWith .queued ≤ limits.maxQueued

end Model

section Steps

variable {limits : JobLimits} {genToolJobId : ℕ → String} {s : JobSystem}

theorem refusalKeeps_iff (h : s.Good limits) (op : RegistryOp) :
    s.RefusalKeeps limits genToolJobId op ↔ s.EvictsForPlace limits op := by
  cases op with
  | register iteration now workspace sourceTurnJobId spawn argsJson finishedSink =>
    simp only [RefusalKeeps, EvictsForPlace]
    obtain ⟨hcap, hresult⟩ | ⟨-, -, hkept, hresult⟩ | ⟨-, hfull, hevicts, g', -, hne, hresult⟩ |
        ⟨-, hplace, g', -, hresult⟩ :=
      Inner.register_admission iteration h.tidy (genToolJobId s.drawn) now workspace
        sourceTurnJobId spawn argsJson finishedSink
    · have hkept : ¬ s.inner.Evicts limits := by
        rintro ⟨-, r, hr, hterm⟩
        rw [hcap.2 r hr] at hterm
        cases hterm
      simp [hresult, hkept]
    · simp [hresult, hkept]
    · simp [hresult, hevicts, hfull, hne]
    · simp [hresult, hplace]
  | _ => rfl

theorem fits_step_iff (h : s.Good limits) (hs : s.Fits limits) (op : RegistryOp) :
    (s.step limits genToolJobId op).Fits limits ↔ s.FitsBehind limits op := by
  have hkept : ∀ s' : JobSystem, s'.inner.load ≤ s.inner.load → s'.Fits limits :=
    fun _ hle => Nat.le_trans hle hs
  cases op with
  | register iteration now workspace sourceTurnJobId spawn argsJson finishedSink =>
    simp only [FitsBehind]
    obtain ⟨hcap, hresult⟩ | ⟨-, hfull, -, hresult⟩ | ⟨-, hfull, -, g', hload, -, hresult⟩ |
        ⟨hroom, hplace, g', hload, hresult⟩ :=
      Inner.register_admission iteration h.tidy (genToolJobId s.drawn) now workspace
        sourceTurnJobId spawn argsJson finishedSink
    · simp only [step, hresult, hcap, not_true_eq_false, false_implies, iff_true]
      exact hs
    · simp only [step, hresult]
      exact iff_of_true hs fun _ hslot => absurd hfull.1 (Nat.not_le.mpr hslot)
    · simp only [step, hresult]
      exact iff_of_true (hkept _ (Nat.le_of_eq hload)) fun _ hslot =>
        absurd hfull.1 (Nat.not_le.mpr hslot)
    · simp only [step, hresult, Fits, Inner.load_enrol, hload, hroom, not_false_eq_true,
        forall_const]
      constructor
      · intro hfits _
        omega
      · intro hbehind
        by_cases hslot : s.inner.running < limits.maxConcurrent
        · exact hbehind hslot
        · have hqueue : ¬ limits.maxQueued ≤ s.inner.queue.length := fun hq =>
            hplace ⟨Nat.not_lt.mp hslot, hq⟩
          have hbounded := h.tidy.bounded
          unfold Inner.load
          omega
  | tryStart =>
    refine iff_of_true (hkept _ (Nat.le_of_eq ?_)) trivial
    rw [← Inner.load_tryStart h.tidy]
    simp only [step]
    split <;> rename_i hstart <;> rw [hstart]
  | pushOutput id stream text =>
    exact iff_of_true (hkept _ (Nat.le_of_eq (Inner.load_pushOutput id stream text))) trivial
  | cancel id now => exact iff_of_true (hkept _ (Inner.load_cancel_le id now)) trivial
  | complete id outcome workspaceChanged now =>
    exact iff_of_true (hkept _ (Inner.load_complete_le id outcome workspaceChanged now)) trivial
  | getChecked id now =>
    exact iff_of_true (hkept _ (Nat.le_of_eq (Inner.load_getChecked id now))) trivial
  | pollOutput id cursor now =>
    exact iff_of_true (hkept _ (Nat.le_of_eq (Inner.load_pollOutput id cursor now))) trivial
  | cleanup iteration now =>
    exact iff_of_true (hkept _ (Inner.load_cleanup_le iteration now)) trivial
  | callSink call =>
    refine iff_of_true (hkept _ (Nat.le_of_eq ?_)) trivial
    simp only [step]
    split <;> rfl

theorem Good.jobsWith_running (h : s.Good limits) : s.jobsWith .running = s.inner.running :=
  h.tidy.running.symm

theorem Good.jobsWith_queued (h : s.Good limits) : s.jobsWith .queued = s.inner.queue.length := by
  rw [h.tidy.queue, List.length_map, jobsWith, countP_eq_length_filter]

theorem Fits.waitsWithin (hs : s.Fits limits) (h : s.Good limits) : s.WaitsWithin limits := by
  intro hbusy
  rw [h.jobsWith_running] at hbusy
  rw [h.jobsWith_queued]
  unfold Fits Inner.load at hs
  omega

/-- A drain starts jobs until the queue is empty or all slots are taken. -/
theorem drainLoop_spec (genToolJobId : ℕ → String) (fuel : ℕ) (h : s.Good limits)
    (hfuel : s.inner.queue.length < fuel) :
    let s' := drainLoop limits genToolJobId fuel s
    s'.Good limits ∧ s'.inner.load = s.inner.load ∧
      (s'.inner.queue = [] ∨ s'.inner.running = limits.maxConcurrent) := by
  induction fuel generalizing s with
  | zero => exact absurd hfuel (Nat.not_lt_zero _)
  | succ fuel ih =>
    rw [drainLoop]
    have hgood : (s.step limits genToolJobId .tryStart).Good limits := tryStart_good h
    obtain hnone | ⟨id, queue, r, hq, -, -, -, hstart⟩ := Inner.tryStart_cases h.tidy
    · have hsame : s.step limits genToolJobId .tryStart = s := by simp only [step, hnone]
      simp only [hnone, Option.isSome_none, Bool.false_eq_true, if_false, hsame]
      refine ⟨h, trivial, ?_⟩
      by_cases hslot : limits.maxConcurrent ≤ s.inner.running
      · exact .inr (Nat.le_antisymm h.tidy.bounded hslot)
      · left
        cases hqueue : s.inner.queue with
        | nil => rfl
        | cons id queue =>
          obtain ⟨r, hr, -⟩ := h.tidy.mem_queue_iff.mp (hqueue ▸ mem_cons_self)
          -- a start would have taken a slot
          have hrunning := congrArg (fun p => p.2.running) hnone
          simp [Inner.tryStart, hslot, hqueue, hr, Inner.update] at hrunning
    · have hload := Inner.load_tryStart h.tidy
      rw [hstart] at hload
      have hstep : (s.step limits genToolJobId .tryStart).inner = (s.inner.tryStart limits).2 := by
        simp only [step, hstart]
      simp only [hstart, Option.isSome_some, if_true]
      have hlt : (s.step limits genToolJobId .tryStart).inner.queue.length < fuel := by
        rw [hstep, hstart]
        rw [hq, length_cons] at hfuel
        exact Nat.lt_of_succ_lt_succ hfuel
      obtain ⟨hgood', hload', hdone⟩ := ih hgood hlt
      refine ⟨hgood', ?_, hdone⟩
      rw [hload', hstep, hstart, hload]

/-- After a drain the wait is bounded exactly if everything fitted before it. -/
theorem drainQueued_waitsWithin_iff (h : s.Good limits) :
    (s.drainQueued limits genToolJobId).WaitsWithin limits ↔ s.Fits limits := by
  obtain ⟨hgood, hload, hdone⟩ :=
    drainLoop_spec genToolJobId _ h (Nat.lt_succ_self _)
  have hbounded := hgood.tidy.bounded
  unfold WaitsWithin Fits
  unfold Inner.load at hload ⊢
  rw [drainQueued, hgood.jobsWith_running, hgood.jobsWith_queued, ← hload]
  rcases hdone with hempty | hbusy
  · rw [hempty, length_nil] at hload ⊢
    omega
  · omega

end Steps

section Runs

/-- Along every run a refused registration changes nothing exactly if no entry is freed for a job
that finds no place; and the jobs that wait once the queue has been drained are bounded exactly if
every job admitted to a free slot fits behind those before it. Then they are bounded throughout. -/
theorem job_admission_iff (limits : JobLimits) (genToolJobId : ℕ → String) (ops : List RegistryOp)
    (h : AllOk (step limits genToolJobId) (Permits genToolJobId) new ops) :
    (AllOk (step limits genToolJobId) (RefusalKeeps limits genToolJobId) new ops ↔
      AllOk (step limits genToolJobId) (EvictsForPlace limits) new ops) ∧
    ((∀ k, ((run (step limits genToolJobId) new (ops.take k)).drainQueued limits
        genToolJobId).WaitsWithin limits) ↔
      AllOk (step limits genToolJobId) (FitsBehind limits) new ops) ∧
    (AllOk (step limits genToolJobId) (FitsBehind limits) new ops →
      ∀ k, (run (step limits genToolJobId) new (ops.take k)).WaitsWithin limits) := by
  have hgood : ∀ s op, Good limits s → Permits genToolJobId s op →
      Good limits (step limits genToolJobId s op) := fun _ op hs hop => step_good hs op hop
  have hnew : Good limits new := ⟨Inner.new_tidy, new_accounts⟩
  have hreached : ∀ k, Good limits (run (step limits genToolJobId) new (ops.take k)) := by
    intro k
    rw [← take_append_drop k ops, allOk_append] at h
    exact run_good h.1
  have hfits := always_iff_of_good hgood (fun _ op hs _ hfit => fits_step_iff hs hfit op) hnew
    (Nat.zero_le _ : Fits limits new) h
  refine ⟨allOk_congr_of_good hgood (fun _ op hs => refusalKeeps_iff hs op) hnew h, ?_, ?_⟩
  · rw [← hfits]
    exact forall_congr' fun k => drainQueued_waitsWithin_iff (hreached k)
  · intro hok k
    exact (hfits.mpr hok k).waitsWithin (hreached k)

/-- One job at a time, none may wait, and two entries. -/
def noneWaits : JobLimits := ⟨1, 0, 100, 10, 2, 64⟩

def enqueue (now : ℤ) : RegistryOp := .register inOrder now "/ws" (some 1) make "args" none

/-- A job runs to its end and another one starts. -/
def oneAfterAnother : List RegistryOp :=
  [enqueue 0, .tryStart, .complete (drawnIds 0) succeeded false 10, enqueue 20, .tryStart]

theorem job_admission_iff_oneAfterAnother :
    AllOk (step noneWaits drawnIds) (Permits drawnIds) new oneAfterAnother ∧
      ∀ k, (run (step noneWaits drawnIds) new (oneAfterAnother.take k)).WaitsWithin noneWaits :=
  have hok : AllOk (step noneWaits drawnIds) (Permits drawnIds) new oneAfterAnother := by
    decide +kernel
  ⟨hok, (job_admission_iff noneWaits drawnIds oneAfterAnother hok).2.2
    (by decide +kernel)⟩

/-- Two callers register before either drains, and both drain: one job waits that may not. In
another run a third job is refused, and the result of the first is gone. -/
theorem job_admission_races :
    (¬ ∀ ops : List RegistryOp, AllOk (step noneWaits drawnIds) (Permits drawnIds) new ops →
      (run (step noneWaits drawnIds) new ops).WaitsWithin noneWaits) ∧
    ¬ ∀ ops : List RegistryOp, AllOk (step noneWaits drawnIds) (Permits drawnIds) new ops →
      AllOk (step noneWaits drawnIds) (RefusalKeeps noneWaits drawnIds) new ops := by
  constructor
  · intro h
    have hwait := h [enqueue 0, enqueue 1, .tryStart, .tryStart, .tryStart] (by decide +kernel)
    exact absurd (hwait (by decide +kernel)) (by decide +kernel)
  · intro h
    have hkeeps := h (oneAfterAnother ++ [enqueue 30]) (by decide +kernel)
    rw [allOk_append] at hkeeps
    have hjobs := congrArg (fun g => g.jobs.rows.length) (hkeeps.2.1 .queueFull _ rfl)
    exact absurd hjobs (by decide +kernel)

end Runs

end JobSystem
end CrabMate
