import CrabMate.Jobs.Registry

/-! What the changes of the registry keep: the counter, the queue and the side tables follow the
records. -/
namespace CrabMate
open List Table

namespace Inner

/-- The job exists and is not finished. -/
def isOpen (g : Inner) (id : String) : Bool :=
  (g.jobs.lookup id).any fun r => !r.status.isTerminal

/-- The tables and the counter follow the records, which are in registration order. -/
structure Tidy (limits : JobLimits) (g : Inner) : Prop where
  running : g.running = g.jobs.rows.countP fun r => r.status = .running
  bounded : g.running ≤ limits.maxConcurrent
  queue : g.queue = (g.jobs.rows.filter fun r => r.status = .queued).map (·.id)
  outputs : g.outputs.rows.map Prod.fst = g.jobs.rows.map (·.id)
  expired : ∀ id ∈ g.expired, g.jobs.lookup id = none
  sinks : ∀ k ∈ g.finishedSinks.rows, g.isOpen k.1 = true

variable {limits : JobLimits} {g : Inner} {id : String} {r : JobRecord}

theorem Tidy.mem_queue_iff (h : g.Tidy limits) :
    id ∈ g.queue ↔ ∃ r, g.jobs.lookup id = some r ∧ r.status = .queued := by
  simp only [h.queue, mem_map, mem_filter, decide_eq_true_eq, Table.lookup_eq_some_iff]
  constructor
  · rintro ⟨r, ⟨hr, hq⟩, hid⟩
    exact ⟨r, ⟨hr, hid⟩, hq⟩
  · rintro ⟨r, ⟨hr, hid⟩, hq⟩
    exact ⟨r, ⟨hr, hq⟩, hid⟩

theorem Tidy.fresh_sinks (h : g.Tidy limits) (hfresh : g.jobs.lookup id = none) :
    ∀ k ∈ g.finishedSinks.rows, k.1 ≠ id := by
  rintro k hk rfl
  have hopen := h.sinks k hk
  simp [isOpen, hfresh] at hopen

theorem new_tidy : (new).Tidy limits := ⟨rfl, Nat.zero_le _, rfl, rfl, by simp [new], by simp [new]⟩

theorem mem_rememberExpired {other : String} (h : other ∈ (g.rememberExpired id).expired) :
    other ∈ g.expired ∨ other = id := by
  have hkept : ∀ kept : List String, (∀ x ∈ kept, x ∈ g.expired) →
      other ∈ (if id ∈ kept then kept else kept ++ [id]) → other ∈ g.expired ∨ other = id := by
    intro kept hsub hmem
    split at hmem
    · exact Or.inl (hsub _ hmem)
    · exact (mem_append.mp hmem).imp (hsub _) mem_singleton.mp
  refine hkept _ (fun x hx => ?_) h
  split at hx
  · exact mem_of_mem_tail hx
  · exact hx

@[simp] theorem running_forget : (g.forget id).running = g.running := rfl

@[simp] theorem queue_forget : (g.forget id).queue = g.queue := rfl

theorem jobs_forget : (g.forget id).jobs = g.jobs.deleteWhere fun r => r.id = id := rfl

theorem lookup_forget (other : String) :
    (g.forget id).jobs.lookup other = if other = id then none else g.jobs.lookup other := by
  rw [jobs_forget]
  split
  · next h => exact lookup_deleteWhere_of fun r hr => by simp [hr, h]
  · next h => exact lookup_deleteWhere_of_not fun r hr => by simp [hr, h]

theorem isOpen_forget (hr : g.jobs.lookup id = some r) (hterm : r.status.isTerminal = true)
    (other : String) : (g.forget id).isOpen other = g.isOpen other := by
  rw [isOpen, isOpen, lookup_forget]
  split
  · next h => simp [h, hr, hterm]
  · rfl

theorem sinks_forget (h : g.Tidy limits) (hr : g.jobs.lookup id = some r)
    (hterm : r.status.isTerminal = true) : (g.forget id).finishedSinks = g.finishedSinks := by
  apply Table.ext
  show g.finishedSinks.rows.filter _ = _
  rw [filter_eq_self]
  intro k hk
  have hopen := h.sinks k hk
  have hne : k.1 ≠ id := by
    rintro heq
    simp [isOpen, heq, hr, hterm] at hopen
  simpa using hne

theorem forget_tidy (h : g.Tidy limits) (hr : g.jobs.lookup id = some r)
    (hterm : r.status.isTerminal = true) : (g.forget id).Tidy limits := by
  obtain ⟨before, after, hrows, hbefore, hafter⟩ := exists_rows_eq hr
  have hid : r.id = id := (Table.lookup_eq_some_iff.mp hr).2
  have hrows' : (g.forget id).jobs.rows = before ++ after := by
    rw [jobs_forget, rows_deleteWhere, hrows]
    exact filter_delete_split hid hbefore hafter
  have hqueued : r.status ≠ .queued := by
    rintro heq
    simp [heq, JobStatus.isTerminal] at hterm
  have hrunning : r.status ≠ .running := by
    rintro heq
    simp [heq, JobStatus.isTerminal] at hterm
  refine ⟨?_, h.bounded, ?_, ?_, ?_, ?_⟩
  · have hcount := h.running
    rw [hrows] at hcount
    rw [hrows']
    simpa [hrunning] using hcount
  · have hqueue := h.queue
    rw [hrows] at hqueue
    rw [hrows']
    simpa [hqueued] using hqueue
  · show (g.outputs.rows.filter fun o => !decide (o.1 = id)).map Prod.fst = _
    have hmap : (g.outputs.rows.filter fun o => !decide (o.1 = id)).map Prod.fst =
        (g.outputs.rows.map Prod.fst).filter fun x => !decide (x = id) := by
      rw [filter_map]
      rfl
    rw [hmap, h.outputs, filter_map]
    rfl
  · intro other hother
    rw [lookup_forget]
    split
    · rfl
    · next hne =>
      obtain hmem | heq := mem_rememberExpired hother
      · exact h.expired other hmem
      · exact absurd heq hne
  · intro k hk
    rw [sinks_forget h hr hterm] at hk
    rw [isOpen_forget hr hterm]
    exact h.sinks k hk

section Update

variable {f : JobRecord → JobRecord} {hf : ∀ r, (f r).id = r.id}

theorem lookup_update (other : String) :
    (g.update id f hf).jobs.lookup other =
      if other = id then (g.jobs.lookup id).map f else g.jobs.lookup other := by
  split
  · next h =>
    subst h
    rw [update, lookup_updateWhere]
    cases hr : g.jobs.lookup other with
    | none => rfl
    | some r => simp [(Table.lookup_eq_some_iff.mp hr).2]
  · next h => exact lookup_updateWhere_of_not hf fun r hr => by simp [hr, h]

theorem exists_rows_update (hf : ∀ r, (f r).id = r.id) (hr : g.jobs.lookup id = some r) :
    ∃ before after, g.jobs.rows = before ++ r :: after ∧
      (g.update id f hf).jobs.rows = before ++ f r :: after ∧
      (∀ q ∈ before, q.id ≠ id) ∧ ∀ q ∈ after, q.id ≠ id := by
  obtain ⟨before, after, hrows, hbefore, hafter⟩ := exists_rows_eq hr
  have hid : r.id = id := (Table.lookup_eq_some_iff.mp hr).2
  refine ⟨before, after, hrows, ?_, hbefore, hafter⟩
  rw [update, rows_updateWhere, hrows]
  exact map_update_split f hid hbefore hafter

theorem isOpen_update (hr : g.jobs.lookup id = some r) (other : String) :
    (g.update id f hf).isOpen other =
      if other = id then !(f r).status.isTerminal else g.isOpen other := by
  rw [isOpen, isOpen, lookup_update]
  split
  · rw [hr]
    rfl
  · rfl

theorem isOpen_update_of_eq (hr : g.jobs.lookup id = some r)
    (hsame : (f r).status.isTerminal = r.status.isTerminal) (other : String) :
    (g.update id f hf).isOpen other = g.isOpen other := by
  rw [isOpen_update hr]
  split
  · next heq => simp [isOpen, heq, hr, hsame]
  · rfl

theorem lookup_update_none (hf : ∀ r, (f r).id = r.id) {other : String} (h : g.jobs.lookup other = none) :
    (g.update id f hf).jobs.lookup other = none := by
  rw [lookup_update]
  split
  · next heq => rw [← heq, h]; rfl
  · exact h

theorem ids_update (hf : ∀ r, (f r).id = r.id) :
    (g.update id f hf).jobs.rows.map (·.id) = g.jobs.rows.map (·.id) :=
  map_updateRow _ f hf _

theorem update_tidy (h : g.Tidy limits) (hr : g.jobs.lookup id = some r)
    (hstatus : (f r).status = r.status) : (g.update id f hf).Tidy limits := by
  obtain ⟨before, after, hrows, hrows', -, -⟩ := exists_rows_update hf hr
  refine ⟨?_, h.bounded, ?_, ?_, ?_, ?_⟩
  · have hcount := h.running
    rw [hrows] at hcount
    rw [hrows', update]
    simpa [countP_cons, hstatus] using hcount
  · have hqueue := h.queue
    rw [hrows] at hqueue
    rw [hrows', update]
    simpa [hstatus, filter_cons, hf, apply_ite (List.map JobRecord.id)] using hqueue
  · rw [ids_update]
    exact h.outputs
  · exact fun other hother => lookup_update_none hf (h.expired other hother)
  · intro k hk
    rw [isOpen_update_of_eq hr (by rw [hstatus])]
    exact h.sinks k hk

end Update

theorem start_tidy (h : g.Tidy limits) {queue : List String} (hq : g.queue = id :: queue)
    (hroom : g.running < limits.maxConcurrent) (hr : g.jobs.lookup id = some r)
    (f : JobRecord → JobRecord) (hf : ∀ r, (f r).id = r.id) (hstatus : (f r).status = .running) :
    Tidy limits { g.update id f hf with queue := queue, running := g.running + 1 } := by
  obtain ⟨before, after, hrows, hrows', hbefore, -⟩ := exists_rows_update hf hr
  have hid : r.id = id := (Table.lookup_eq_some_iff.mp hr).2
  have hqueue := h.queue
  rw [hrows, filter_append, map_append, hq] at hqueue
  have hnone : before.filter (fun r => r.status = .queued) = [] := by
    cases hb : before.filter (fun r => r.status = .queued) with
    | nil => rfl
    | cons q qs =>
      have hmem : q ∈ before := mem_of_mem_filter (hb ▸ mem_cons_self)
      rw [hb] at hqueue
      injection hqueue with hhead
      exact absurd hhead.symm (hbefore q hmem)
  have hqueued : r.status = .queued := by
    obtain ⟨q, hlookup, hstatus⟩ := h.mem_queue_iff.mp (hq ▸ mem_cons_self)
    rw [hr, Option.some.injEq] at hlookup
    exact hlookup ▸ hstatus
  refine ⟨?_, hroom, ?_, ?_, ?_, ?_⟩
  · have hcount := h.running
    rw [hrows] at hcount
    show g.running + 1 = _
    rw [hcount]
    show _ = (g.update id f hf).jobs.rows.countP _
    rw [hrows']
    simp [hstatus, hqueued]
    omega
  · show queue = ((g.update id f hf).jobs.rows.filter _).map _
    rw [hrows', filter_append, hnone, filter_cons_of_neg (by simp [hstatus])]
    rw [hnone, filter_cons_of_pos (by simp [hqueued])] at hqueue
    injection hqueue
  · exact h.outputs.trans (ids_update hf).symm
  · exact fun other hother => lookup_update_none hf (h.expired other hother)
  · intro k hk
    show (g.update id f hf).isOpen k.1 = true
    rw [isOpen_update_of_eq hr (by simp [hstatus, hqueued, JobStatus.isTerminal])]
    exact h.sinks k hk

theorem filter_ids_ne {records : List JobRecord} (h : ∀ q ∈ records, q.id ≠ id)
    (p : JobRecord → Bool) :
    ((records.filter p).map (·.id)).filter (· ≠ id) = (records.filter p).map (·.id) := by
  rw [filter_eq_self]
  intro x hx
  obtain ⟨q, hq, rfl⟩ := mem_map.mp hx
  simpa using h q (mem_of_mem_filter hq)

/-- A job that finishes leaves the queue, or gives its place among the running ones back, and its
callback is taken out. -/
def finish (g : Inner) (id : String) (f : JobRecord → JobRecord) (hf : ∀ r, (f r).id = r.id)
    (wasRunning : Bool) : Inner :=
  { g.update id f hf with
    queue := g.queue.filter (· ≠ id)
    running := if wasRunning then g.running - 1 else g.running
    finishedSinks := g.finishedSinks.deleteWhere fun k => k.1 = id }

theorem finish_tidy (h : g.Tidy limits) (hr : g.jobs.lookup id = some r)
    (f : JobRecord → JobRecord) (hf : ∀ r, (f r).id = r.id)
    (hdone : (f r).status.isTerminal = true) :
    (g.finish id f hf (r.status = .running)).Tidy limits := by
  obtain ⟨before, after, hrows, hrows', hbefore, hafter⟩ := exists_rows_update hf hr
  have hid : r.id = id := (Table.lookup_eq_some_iff.mp hr).2
  have hnotRunning : (f r).status ≠ .running := by
    rintro heq
    simp [heq, JobStatus.isTerminal] at hdone
  have hnotQueued : (f r).status ≠ .queued := by
    rintro heq
    simp [heq, JobStatus.isTerminal] at hdone
  have hcount := h.running
  have hbounded := h.bounded
  refine ⟨?_, ?_, ?_, ?_, ?_, ?_⟩
  · show _ = (g.update id f hf).jobs.rows.countP _
    rw [hrows] at hcount
    rw [hrows']
    simp only [countP_append, countP_cons, hnotRunning, decide_false] at hcount ⊢
    by_cases hrun : r.status = .running
    · simp [finish, hrun] at hcount ⊢
      omega
    · simp [finish, hrun] at hcount ⊢
      omega
  · show (if decide (r.status = .running) = true then g.running - 1 else g.running) ≤ _
    split <;> omega
  · show g.queue.filter _ = ((g.update id f hf).jobs.rows.filter _).map _
    rw [h.queue, hrows, hrows']
    simp only [filter_append, map_append, filter_ids_ne hbefore]
    have hgone : (f r :: after).filter (fun r => r.status = .queued) =
        after.filter fun r => r.status = .queued := filter_cons_of_neg (by simpa using hnotQueued)
    rw [hgone, ← filter_ids_ne hafter]
    by_cases hqueued : r.status = .queued
    · rw [filter_cons_of_pos (by simpa using hqueued), map_cons,
        filter_cons_of_neg (by simp [hid])]
    · rw [filter_cons_of_neg (by simpa using hqueued)]
  · exact h.outputs.trans (ids_update hf).symm
  · exact fun other hother => lookup_update_none hf (h.expired other hother)
  · intro k hk
    obtain ⟨hk, hne⟩ := mem_filter.mp hk
    have hne : k.1 ≠ id := by simpa using hne
    show (g.update id f hf).isOpen k.1 = true
    rw [isOpen_update hr, if_neg hne]
    exact h.sinks k hk

theorem outputs_tidy (h : g.Tidy limits)
    {outputs : Table (Prod.fst : String × JobOutputLog → String)}
    (hids : outputs.rows.map Prod.fst = g.outputs.rows.map Prod.fst) (dropped : ℕ) :
    Tidy limits { g with outputs := outputs, outputEventsDropped := dropped } :=
  ⟨h.running, h.bounded, h.queue, hids.trans h.outputs, h.expired, h.sinks⟩

theorem lookup_enrol (hfresh : g.jobs.lookup r.id = none) (sink : Option JobFinishedSink)
    (other : String) :
    (g.enrol r sink).jobs.lookup other = if other = r.id then some r else g.jobs.lookup other := by
  have hrows : (g.enrol r sink).jobs.rows = g.jobs.rows ++ [r] :=
    rows_put_of_fresh (by simpa [Table.lookup_eq_none_iff] using hfresh)
  rw [Table.lookup, hrows, find?_append]
  split
  · next h =>
    subst h
    have hnone : g.jobs.rows.find? (fun q => q.id = r.id) = none := hfresh
    simp [hnone]
  · next h =>
    have hne : ¬ r.id = other := fun heq => h heq.symm
    simp only [find?_singleton, hne, decide_false]
    exact Option.or_none

theorem isOpen_enrol (hfresh : g.jobs.lookup r.id = none) (hqueued : r.status = .queued)
    (sink : Option JobFinishedSink) (other : String) :
    (g.enrol r sink).isOpen other = (decide (other = r.id) || g.isOpen other) := by
  rw [isOpen, lookup_enrol hfresh]
  split
  · next h => simp [h, hqueued, JobStatus.isTerminal]
  · next h => simp [h, isOpen]

theorem mem_sinks_enrol_iff (hfresh : ∀ k ∈ g.finishedSinks.rows, k.1 ≠ r.id)
    (sink : Option JobFinishedSink) (k : String × JobFinishedSink) :
    k ∈ (g.enrol r sink).finishedSinks.rows ↔
      k ∈ g.finishedSinks.rows ∨ k.1 = r.id ∧ some k.2 = sink := by
  obtain ⟨id, label⟩ := k
  cases sink with
  | none => simp [enrol]
  | some label' =>
    have hput : (g.finishedSinks.put (r.id, label')).rows = g.finishedSinks.rows ++ [(r.id, label')] :=
      rows_put_of_fresh (by simpa using fun label h => hfresh (r.id, label) h rfl)
    simp [enrol, hput]

theorem enrol_tidy (h : g.Tidy limits) (hfresh : g.jobs.lookup r.id = none)
    (hnew : r.id ∉ g.expired) (hqueued : r.status = .queued) (sink : Option JobFinishedSink) :
    (g.enrol r sink).Tidy limits := by
  have hjobs : r.id ∉ g.jobs.rows.map (·.id) := by
    simpa [Table.lookup_eq_none_iff] using hfresh
  have hrows : (g.enrol r sink).jobs.rows = g.jobs.rows ++ [r] := rows_put_of_fresh hjobs
  have houtputs : (g.enrol r sink).outputs.rows = g.outputs.rows ++ [(r.id, .default)] :=
    rows_put_of_fresh (by rw [h.outputs]; exact hjobs)
  refine ⟨?_, h.bounded, ?_, ?_, ?_, ?_⟩
  · show g.running = _
    rw [hrows]
    simpa [hqueued] using h.running
  · show g.queue ++ [r.id] = _
    rw [hrows]
    simp [hqueued, h.queue]
  · rw [hrows, houtputs, map_append, map_append, h.outputs]
    rfl
  · intro other hother
    rw [lookup_enrol hfresh]
    split
    · next heq => exact absurd (heq ▸ hother) hnew
    · exact h.expired other hother
  · intro k hk
    rw [isOpen_enrol hfresh hqueued]
    obtain hold | ⟨hself, -⟩ := (mem_sinks_enrol_iff (h.fresh_sinks hfresh) sink k).mp hk
    · simp [h.sinks k hold]
    · simp [hself]

/-- A change that admits and finishes no job. -/
structure Quiet (g g' : Inner) : Prop where
  opens : ∀ id, g'.isOpen id = g.isOpen id
  sinks : g'.finishedSinks = g.finishedSinks
  ids : (g'.jobs.rows.map (·.id)).Sublist (g.jobs.rows.map (·.id))
  expired : ∀ id ∈ g'.expired, id ∈ g.expired ∨ id ∈ g.jobs.rows.map (·.id)
  records : ∀ id r', g'.jobs.lookup id = some r' → ∃ r, g.jobs.lookup id = some r ∧
    r'.outcome = r.outcome ∧ (r.status.isTerminal = true → r'.status = r.status) ∧
    (r'.status = .queued → r.status = .queued)

namespace Quiet

theorem refl (g : Inner) : g.Quiet g :=
  ⟨fun _ => rfl, rfl, .refl _, fun _ h => .inl h,
    fun _ r h => ⟨r, h, rfl, fun _ => rfl, fun hq => hq⟩⟩

theorem of_eq {g g' : Inner} (hjobs : g'.jobs = g.jobs)
    (hsinks : g'.finishedSinks = g.finishedSinks) (hexpired : g'.expired = g.expired) :
    g.Quiet g' := by
  have h := refl g
  refine ⟨fun id => ?_, hsinks, hjobs ▸ h.ids, hexpired ▸ h.expired, hjobs ▸ h.records⟩
  rw [isOpen, isOpen, hjobs]

theorem trans {g₁ g₂ g₃ : Inner} (h₁ : g₁.Quiet g₂) (h₂ : g₂.Quiet g₃) : g₁.Quiet g₃ := by
  refine ⟨fun id => (h₂.opens id).trans (h₁.opens id), h₂.sinks.trans h₁.sinks,
    h₂.ids.trans h₁.ids, fun id hid => ?_, fun id r' hr' => ?_⟩
  · obtain hold | hlive := h₂.expired id hid
    · exact h₁.expired id hold
    · exact .inr (h₁.ids.subset hlive)
  · obtain ⟨r, hr, hout, hterm, hqueued⟩ := h₂.records id r' hr'
    obtain ⟨q, hq, hout', hterm', hqueued'⟩ := h₁.records id r hr
    refine ⟨q, hq, hout.trans hout', fun ht => ?_, fun h => hqueued' (hqueued h)⟩
    have hsame := hterm' ht
    exact (hterm (hsame ▸ ht)).trans hsame

end Quiet

theorem forget_quiet (h : g.Tidy limits) (hr : g.jobs.lookup id = some r)
    (hterm : r.status.isTerminal = true) : g.Quiet (g.forget id) := by
  refine ⟨isOpen_forget hr hterm, sinks_forget h hr hterm, ?_, ?_, ?_⟩
  · exact filter_sublist.map _
  · intro other hother
    obtain hold | rfl := mem_rememberExpired hother
    · exact .inl hold
    · obtain ⟨hmem, hid⟩ := Table.lookup_eq_some_iff.mp hr
      exact .inr (mem_map.mpr ⟨r, hmem, hid⟩)
  · intro other r' hr'
    rw [lookup_forget] at hr'
    split at hr'
    · cases hr'
    · exact ⟨r', hr', rfl, fun _ => rfl, fun hq => hq⟩

theorem update_quiet (hr : g.jobs.lookup id = some r) (f : JobRecord → JobRecord)
    (hf : ∀ r, (f r).id = r.id) (hopen : r.status.isTerminal = false)
    (hopen' : (f r).status.isTerminal = false) (houtcome : (f r).outcome = r.outcome)
    (hqueued : (f r).status = .queued → r.status = .queued) : g.Quiet (g.update id f hf) := by
  refine ⟨isOpen_update_of_eq hr (hopen'.trans hopen.symm), rfl, ?_, fun _ h => .inl h, ?_⟩
  · rw [ids_update]
  · intro other r' hr'
    rw [lookup_update] at hr'
    split at hr'
    · next heq =>
      rw [hr, Option.map_some, Option.some.injEq] at hr'
      subst heq hr'
      exact ⟨r, hr, houtcome, fun ht => absurd ht (by simp [hopen]), hqueued⟩
    · exact ⟨r', hr', rfl, fun _ => rfl, fun hq => hq⟩

theorem Tidy.queue_live (h : g.Tidy limits) :
    (g.queue.filter fun id => id ∈ g.jobs.rows.map (·.id)) = g.queue := by
  rw [filter_eq_self]
  intro id hid
  obtain ⟨r, hr, -⟩ := h.mem_queue_iff.mp hid
  obtain ⟨hmem, rfl⟩ := Table.lookup_eq_some_iff.mp hr
  exact decide_eq_true (mem_map_of_mem hmem)

theorem Tidy.queue_filter (h : g.Tidy limits)
    (hne : ∀ r, g.jobs.lookup id = some r → r.status ≠ .queued) :
    g.queue.filter (· ≠ id) = g.queue := by
  rw [filter_eq_self]
  rintro x hx
  have hxid : x ≠ id := by
    rintro rfl
    obtain ⟨r, hr, hqueued⟩ := h.mem_queue_iff.mp hx
    exact hne r hr hqueued
  simpa using hxid

/-- The changes that keep the tables and neither enrol nor finish a job. -/
def Keeps (limits : JobLimits) (g g' : Inner) : Prop := g'.Tidy limits ∧ g.Quiet g'

theorem Keeps.refl (h : g.Tidy limits) : g.Keeps limits g := ⟨h, .refl g⟩

theorem Keeps.trans {g₁ g₂ g₃ : Inner} (h₁ : g₁.Keeps limits g₂) (h₂ : g₂.Keeps limits g₃) :
    g₁.Keeps limits g₃ := ⟨h₂.1, h₁.2.trans h₂.2⟩

theorem forget_keeps (h : g.Tidy limits) (hr : g.jobs.lookup id = some r)
    (hterm : r.status.isTerminal = true) : g.Keeps limits (g.forget id) :=
  ⟨forget_tidy h hr hterm, forget_quiet h hr hterm⟩

theorem evictOneTerminal_eq_some {iteration : JobIteration} {g' : Inner}
    (h : g.evictOneTerminal iteration = some g') :
    ∃ r, g.jobs.lookup r.id = some r ∧ r.status.isTerminal = true ∧
      g' = { g.forget r.id with queue := (g.forget r.id).queue.filter (· ≠ r.id) } := by
  unfold evictOneTerminal at h
  split at h
  · cases h
  · next r hmin =>
    obtain ⟨hmem, hterm⟩ := mem_filter.mp (oldest_mem hmin)
    refine ⟨r, ?_, hterm, (Option.some.inj h).symm⟩
    exact Table.lookup_eq_some_iff.mpr ⟨(iteration.perm _).mem_iff.mp hmem, rfl⟩

theorem evictOneTerminal_keeps (h : g.Tidy limits) (iteration : JobIteration) {g' : Inner}
    (hev : g.evictOneTerminal iteration = some g') : g.Keeps limits g' := by
  obtain ⟨r, hr, hterm, rfl⟩ := evictOneTerminal_eq_some hev
  have hkeeps := forget_keeps h hr hterm
  have hqueue : (g.forget r.id).queue.filter (· ≠ r.id) = (g.forget r.id).queue := by
    refine hkeeps.1.queue_filter fun q hq => ?_
    rw [lookup_forget, if_pos rfl] at hq
    cases hq
  rw [hqueue]
  exact hkeeps

theorem makeRoom_keeps (h : g.Tidy limits) (iteration : JobIteration) :
    g.Keeps limits (g.makeRoom limits iteration).2 := by
  unfold makeRoom
  split
  · split
    · exact .refl h
    · next hev => exact evictOneTerminal_keeps h iteration hev
  · exact .refl h

/-- The record of a job that has just been registered. -/
def queuedRecord (id : String) (now : ℤ) (workspace : String) (sourceTurnJobId : Option ℕ)
    (spawn : JobSpawn) (argsJson : String) : JobRecord :=
  ⟨id, workspace, sourceTurnJobId, .queued, now, none, false, false, spawn, argsJson, false, none⟩

@[simp] theorem queuedRecord_id (id : String) (now : ℤ) (workspace : String)
    (sourceTurnJobId : Option ℕ) (spawn : JobSpawn) (argsJson : String) :
    (queuedRecord id now workspace sourceTurnJobId spawn argsJson).id = id := rfl

/-- Room is made, and then the job is refused or admitted. -/
theorem register_cases (h : g.Tidy limits) (iteration : JobIteration) (id : String) (now : ℤ)
    (workspace : String) (sourceTurnJobId : Option ℕ) (spawn : JobSpawn) (argsJson : String)
    (finishedSink : Option JobFinishedSink) :
    ∃ g', g.Keeps limits g' ∧
      ((∃ e, g.register limits iteration id now workspace sourceTurnJobId spawn argsJson
          finishedSink = (.error e, g')) ∨
        g.register limits iteration id now workspace sourceTurnJobId spawn argsJson finishedSink =
          (.ok id, g'.enrol (queuedRecord id now workspace sourceTurnJobId spawn argsJson)
            finishedSink)) := by
  refine ⟨(g.makeRoom limits iteration).2, makeRoom_keeps h iteration, ?_⟩
  unfold register
  split
  · next e g' hmake => exact .inl ⟨e, by rw [hmake]⟩
  · next g' hmake =>
    rw [hmake]
    split
    · exact .inl ⟨_, rfl⟩
    · exact .inr rfl

theorem getChecked_keeps (h : g.Tidy limits) (id : String) (now : ℤ) :
    g.Keeps limits (g.getChecked limits id now).2 := by
  unfold getChecked
  split
  · exact .refl h
  · next record hr =>
    split
    · next hpast => exact forget_keeps h hr (Bool.and_eq_true_iff.mp hpast).1
    · exact .refl h

theorem pollOutput_keeps (h : g.Tidy limits) (id : String) (cursor : Option ℕ) (now : ℤ) :
    g.Keeps limits (g.pollOutput limits id cursor now).2 := by
  unfold pollOutput
  split
  · exact .refl h
  · next record hr =>
    split
    · next hpast => exact forget_keeps h hr (Bool.and_eq_true_iff.mp hpast).1
    · exact .refl h

theorem pushOutput_keeps (h : g.Tidy limits) (id : String) (stream : SessionStream)
    (text : String) : g.Keeps limits (g.pushOutput limits id stream text).2 := by
  unfold pushOutput
  split
  · exact .refl h
  · next log _ =>
    refine ⟨outputs_tidy h ?_ _, .of_eq rfl rfl rfl⟩
    exact map_updateRow _ (fun o => (o.1, (log.push stream text limits.outputBufferBytes).1))
      (fun _ => rfl) _

/-- The ids are removed one after another; each stays finished until its turn. -/
theorem foldl_forget_keeps (ids : List String) (h : g.Tidy limits) (hnodup : ids.Nodup)
    (hids : ∀ id ∈ ids, ∃ r, g.jobs.lookup id = some r ∧ r.status.isTerminal = true) :
    g.Keeps limits (ids.foldl forget g) := by
  induction ids generalizing g with
  | nil => exact .refl h
  | cons id ids ih =>
    obtain ⟨r, hr, hterm⟩ := hids id mem_cons_self
    obtain ⟨hnotin, hnodup⟩ := nodup_cons.mp hnodup
    have hkeeps := forget_keeps h hr hterm
    refine hkeeps.trans (ih hkeeps.1 hnodup fun other hother => ?_)
    rw [lookup_forget, if_neg (ne_of_mem_of_not_mem hother hnotin)]
    exact hids other (mem_cons_of_mem _ hother)

theorem cleanup_keeps (h : g.Tidy limits) (iteration : JobIteration) (now : ℤ) :
    g.Keeps limits (g.cleanup limits iteration now).2 := by
  have hnodup : (((iteration.order g.jobs.rows).filter fun r =>
      r.status.isTerminal && r.pastRetention limits now).map (·.id)).Nodup :=
    (filter_sublist.map _).nodup
      (((iteration.perm g.jobs.rows).map _).nodup_iff.mpr g.jobs.nodup)
  have hkeeps := foldl_forget_keeps _ h hnodup fun id hid => by
    obtain ⟨r, hr, rfl⟩ := mem_map.mp hid
    obtain ⟨hmem, hpast⟩ := mem_filter.mp hr
    exact ⟨r, Table.lookup_eq_some_iff.mpr ⟨(iteration.perm _).mem_iff.mp hmem, rfl⟩,
      (Bool.and_eq_true_iff.mp hpast).1⟩
  -- the queue holds live ids only, so the last sweep removes nothing
  dsimp only [cleanup]
  rw [hkeeps.1.queue_live]
  exact hkeeps

/-- The record a worker gets. -/
def startedRecord (r : JobRecord) : JobRecord := { r with status := .running, cancelRequested := false }

theorem startedRecord_id (r : JobRecord) : (startedRecord r).id = r.id := rfl

/-- Nothing happens, or the head of the queue starts. -/
theorem tryStart_cases (h : g.Tidy limits) :
    g.tryStart limits = (none, g) ∨
      ∃ id queue r, g.queue = id :: queue ∧ g.running < limits.maxConcurrent ∧
        g.jobs.lookup id = some r ∧ r.status = .queued ∧
        g.tryStart limits = (some (startedRecord r),
          { g.update id startedRecord startedRecord_id with
            queue := queue, running := g.running + 1 }) := by
  unfold tryStart
  split
  · exact .inl rfl
  · next hroom =>
    split
    · exact .inl rfl
    · next id queue hq =>
      obtain ⟨r, hr, hqueued⟩ := h.mem_queue_iff.mp (hq ▸ mem_cons_self)
      refine .inr ⟨id, queue, r, hq, Nat.lt_of_not_le hroom, hr, hqueued, ?_⟩
      have hstarted : (g.update id startedRecord startedRecord_id).jobs.lookup id =
          some (startedRecord r) := by
        rw [lookup_update, if_pos rfl, hr]
        rfl
      simp only [hr]
      exact Prod.ext hstarted rfl

def flaggedRecord (r : JobRecord) : JobRecord := { r with cancelRequested := true, cancelFlag := true }

theorem flaggedRecord_id (r : JobRecord) : (flaggedRecord r).id = r.id := rfl

/-- The record of a job that finishes with `outcome`. -/
def finishedRecord (outcome : JobOutcome) (now : ℤ) (r : JobRecord) : JobRecord :=
  { r with status := outcome.status, outcome := some outcome, finishedAt := some now }

theorem finishedRecord_id (outcome : JobOutcome) (now : ℤ) (r : JobRecord) :
    (finishedRecord outcome now r).id = r.id := rfl

/-- The callback call of a job that finishes. -/
def sinkCall (g : Inner) (id : String) (outcome : JobOutcome) : Option SinkCall :=
  (g.finishedSinks.lookup id).map fun k => ⟨k.2, id, outcome⟩

/-- Nothing changes, a running job is flagged, or a queued one finishes. -/
theorem cancel_cases (g : Inner) (id : String) (now : ℤ) :
    (g.cancel id now).2 = (none, g) ∨
      (∃ r, g.jobs.lookup id = some r ∧ r.status = .running ∧
        (g.cancel id now).2 = (none, g.update id flaggedRecord flaggedRecord_id)) ∨
      ∃ r, g.jobs.lookup id = some r ∧ r.status = .queued ∧
        (g.cancel id now).2 = (g.sinkCall id cancelledOutcome,
          g.finish id (finishedRecord cancelledOutcome now) (finishedRecord_id _ _) false) := by
  unfold cancel
  split
  · exact .inl rfl
  · next r hr =>
    split
    · next hqueued => exact .inr (.inr ⟨r, hr, hqueued, rfl⟩)
    · next hrunning => exact .inr (.inl ⟨r, hr, hrunning, rfl⟩)
    · exact .inl rfl

/-- The record that `complete` writes. -/
def completedRecord (outcome : JobOutcome) (workspaceChanged : Bool) (now : ℤ) (r : JobRecord) :
    JobRecord :=
  { finishedRecord outcome now r with workspaceChanged := workspaceChanged }

theorem completedRecord_id (outcome : JobOutcome) (workspaceChanged : Bool) (now : ℤ)
    (r : JobRecord) : (completedRecord outcome workspaceChanged now r).id = r.id := rfl

/-- Nothing changes, or an open job finishes with its output trimmed. -/
theorem complete_cases (g : Inner) (id : String) (outcome : JobOutcome) (workspaceChanged : Bool)
    (now : ℤ) :
    (g.complete id outcome workspaceChanged now).2 = (none, g) ∨
      ∃ r, g.jobs.lookup id = some r ∧ r.status.isTerminal = false ∧
        outcome.status.isTerminal = true ∧ ∃ outputs,
          outputs.rows.map Prod.fst = g.outputs.rows.map Prod.fst ∧
          (g.complete id outcome workspaceChanged now).2 = (g.sinkCall id outcome,
            { g.finish id (completedRecord outcome workspaceChanged now)
                (completedRecord_id _ _ _) (r.status = .running) with
              queue := g.queue
              outputs := outputs }) := by
  unfold complete
  split
  · exact .inl rfl
  · next r hr =>
    split
    · exact .inl rfl
    · next hopen =>
      simp only [Bool.or_eq_true, Bool.not_eq_true', not_or, Bool.not_eq_true,
        Bool.not_eq_false] at hopen
      refine .inr ⟨r, hr, hopen.1, hopen.2,
        g.outputs.updateWhere (fun o => o.1 = id)
          (fun o => (o.1, (o.2.terminalTrim r.spawn.maxOutputLen).1)) (fun _ => rfl), ?_, ?_⟩
      · exact map_updateRow _
          (fun o : String × JobOutputLog => (o.1, (o.2.terminalTrim r.spawn.maxOutputLen).1))
          (fun _ => rfl) _
      · simp only [takeSink, sinkCall, finish, update, decide_eq_true_eq]
        rfl

end Inner
end CrabMate
