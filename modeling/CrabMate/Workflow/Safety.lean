import CrabMate.Workflow.Schedule

/-! What holds in every state the scheduling loop reaches: a node is queued at most once and on
finished dependencies, results are never replaced, and at the end no active node is left out. -/
namespace CrabMate.Workflow
open List

section Results

/-- Later results: nothing recorded is lost or replaced. -/
def Completed.Extends (c c' : Completed) : Prop := ∀ id r, c id = some r → c' id = some r

variable {c c' : Completed}

theorem Completed.Extends.rfl : c.Extends c := fun _ _ h => h

theorem Completed.Extends.trans {c'' : Completed} (h : c.Extends c') (h' : c'.Extends c'') :
    c.Extends c'' := fun id r hid => h' id r (h id r hid)

theorem Completed.Extends.isSome (h : c.Extends c') {id : String} (hid : (c id).isSome) :
    (c' id).isSome := by
  obtain ⟨r, hr⟩ := Option.isSome_iff_exists.mp hid
  rw [h id r hr]
  rfl

theorem extends_update {id : String} (h : c id = none) (r : NodeRunResult) :
    c.Extends (Function.update c id (some r)) := by
  intro id' r' hr'
  have hne : id' ≠ id := by
    rintro rfl
    rw [h] at hr'
    cases hr'
  simpa [hne] using hr'

theorem nodeDepsResolved_mono (h : c.Extends c') {deps : List String}
    (hdeps : nodeDepsResolved deps c = true) : nodeDepsResolved deps c' = true := by
  simp only [nodeDepsResolved, all_eq_true] at hdeps ⊢
  exact fun d hd => h.isSome (hdeps d hd)

/-- A condition that holds keeps holding: it reads one result, which is not replaced. -/
theorem nodeRunIfSatisfied_mono {serde : Serde} (h : c.Extends c') {runIf : Option WorkflowRunIf}
    (hif : nodeRunIfSatisfied serde runIf c = true) : nodeRunIfSatisfied serde runIf c' = true := by
  cases runIf with
  | none => rfl
  | some cond =>
    unfold nodeRunIfSatisfied at hif ⊢
    cases hr : c cond.source with
    | none => simp [hr] at hif
    | some r => simpa [hr, h _ r hr] using hif

end Results

section Completion

variable {st : DagState}

@[simp] theorem recordNodeCompletion_completed (res : NodeRunResult) :
    (st.recordNodeCompletion res).completed = Function.update st.completed res.id (some res) := by
  unfold DagState.recordNodeCompletion
  split <;> rename_i hstatus
  · rfl
  · rfl
  · simp [← hstatus]

@[simp] theorem recordNodeCompletion_activeNodes (res : NodeRunResult) :
    (st.recordNodeCompletion res).activeNodes = st.activeNodes := by
  unfold DagState.recordNodeCompletion
  split <;> rfl

@[simp] theorem recordNodeCompletion_forEachPending (res : NodeRunResult) :
    (st.recordNodeCompletion res).forEachPending = st.forEachPending := by
  unfold DagState.recordNodeCompletion
  split <;> rfl

@[simp] theorem recordNodeCompletion_started (res : NodeRunResult) :
    (st.recordNodeCompletion res).started = st.started := by
  unfold DagState.recordNodeCompletion
  split <;> rfl

@[simp] theorem recordNodeCompletion_launched (res : NodeRunResult) :
    (st.recordNodeCompletion res).launched = st.launched := by
  unfold DagState.recordNodeCompletion
  split <;> rfl

@[simp] theorem recordNodeCompletion_inflight (res : NodeRunResult) :
    (st.recordNodeCompletion res).inflight = st.inflight := by
  unfold DagState.recordNodeCompletion
  split <;> rfl

@[simp] theorem recordNodeCompletion_ended (res : NodeRunResult) :
    (st.recordNodeCompletion res).ended = st.ended := by
  unfold DagState.recordNodeCompletion
  split <;> rfl

theorem recordNodeCompletion_firstFailure (res : NodeRunResult) :
    (st.recordNodeCompletion res).firstFailure.isSome =
      (st.firstFailure.isSome || res.status = .failed) := by
  unfold DagState.recordNodeCompletion
  split <;> rename_i hstatus <;> simp [hstatus]

/-- While something runs, the next completion is that of a running node. -/
theorem awaitNext_eq (c : Completion) (h : st.inflight ≠ []) :
    ∃ k, ∃ hk : k < st.inflight.length,
      awaitNext st c =
        { st with inflight := st.inflight.eraseIdx k, stallCount := 0 }.recordNodeCompletion
          (c.result st.inflight[k]) := by
  have hpos : 0 < st.inflight.length := length_pos_iff.mpr h
  have hk : c.pick % st.inflight.length < st.inflight.length := Nat.mod_lt _ hpos
  refine ⟨c.pick % st.inflight.length, hk, ?_⟩
  simp [awaitNext, getElem?_eq_getElem hk]

end Completion

section Consistency

/-- What the loop maintains between any two changes. -/
structure Consistent (serde : Serde) (st : DagState) : Prop where
  entry_id : ∀ {id r}, st.completed id = some r → r.id = id
  entry_started : ∀ {id}, (st.completed id).isSome → id ∈ st.started
  launched_started : ∀ l ∈ st.launched, l.node.id ∈ st.started
  launched_active : ∀ l ∈ st.launched, l.node ∈ st.activeNodes
  launched_nodup : (st.launched.map fun l => l.node.id).Nodup
  launched_deps : ∀ l ∈ st.launched, nodeDepsResolved l.node.deps l.completed = true
  launched_runIf : ∀ l ∈ st.launched, nodeRunIfSatisfied serde l.node.runIf l.completed = true
  launched_known : ∀ l ∈ st.launched, l.completed.Extends st.completed
  inflight_launched : ∀ l ∈ st.inflight, l ∈ st.launched
  inflight_open : ∀ l ∈ st.inflight, st.completed l.node.id = none
  inflight_nodup : (st.inflight.map fun l => l.node.id).Nodup

variable {serde : Serde} {spec : WorkflowSpec} {lk : Prop} {c : Completion}
  {st st' : DagState}

theorem consistent_start : Consistent serde (start spec) where
  entry_id h := by cases h
  entry_started h := by cases h
  launched_started := by simp [start]
  launched_active := by simp [start]
  launched_nodup := nodup_nil
  launched_deps := by simp [start]
  launched_runIf := by simp [start]
  launched_known := by simp [start]
  inflight_launched := by simp [start]
  inflight_open := by simp [start]
  inflight_nodup := nodup_nil

theorem Consistent.expand (h : Consistent serde st) : Consistent serde (expand serde st) :=
  { h with launched_active := fun l hl => mem_append_left _ (h.launched_active l hl) }

theorem Consistent.mark (h : Consistent serde st) {r : NodeRunResult}
    (hnone : st.completed r.id = none) (hfly : ∀ l ∈ st.inflight, l.node.id ≠ r.id) :
    Consistent serde (st.mark r) where
  entry_id := by
    intro id r' hr'
    by_cases hid : id = r.id
    · subst hid
      have hr : r = r' := by simpa [DagState.mark] using hr'
      rw [hr]
    · exact h.entry_id (by simpa [DagState.mark, hid] using hr')
  entry_started := by
    intro id hsome
    by_cases hid : id = r.id
    · simp [DagState.mark, hid]
    · exact mem_cons_of_mem _ (h.entry_started (by simpa [DagState.mark, hid] using hsome))
  launched_started l hl := mem_cons_of_mem _ (h.launched_started l hl)
  launched_active := h.launched_active
  launched_nodup := h.launched_nodup
  launched_deps := h.launched_deps
  launched_runIf := h.launched_runIf
  launched_known l hl := (h.launched_known l hl).trans (extends_update hnone r)
  inflight_launched := h.inflight_launched
  inflight_open l hl := by
    simpa [DagState.mark, hfly l hl] using h.inflight_open l hl
  inflight_nodup := h.inflight_nodup

theorem Consistent.launch (h : Consistent serde st) {n : WorkflowNodeSpec} (hn : Ready st n)
    (hif : nodeRunIfSatisfied serde n.runIf st.completed = true) :
    Consistent serde (st.launch n) where
  entry_id := h.entry_id
  entry_started hsome := mem_cons_of_mem _ (h.entry_started hsome)
  launched_started := forall_mem_cons.mpr
    ⟨mem_cons_self, fun l hl => mem_cons_of_mem _ (h.launched_started l hl)⟩
  launched_active := forall_mem_cons.mpr ⟨hn.active, h.launched_active⟩
  launched_nodup := by
    refine nodup_cons.mpr ⟨fun hmem => ?_, h.launched_nodup⟩
    obtain ⟨l, hl, hid⟩ := mem_map.mp hmem
    have hsame : l.node.id = n.id := hid
    exact hn.unstarted (hsame ▸ h.launched_started l hl)
  launched_deps := forall_mem_cons.mpr ⟨hn.deps, h.launched_deps⟩
  launched_runIf := forall_mem_cons.mpr ⟨hif, h.launched_runIf⟩
  launched_known := forall_mem_cons.mpr ⟨Completed.Extends.rfl, h.launched_known⟩
  inflight_launched := by
    intro l hl
    rcases mem_append.mp hl with hl | hl
    · exact mem_cons_of_mem _ (h.inflight_launched l hl)
    · rw [mem_singleton.mp hl]
      exact mem_cons_self
  inflight_open := by
    intro l hl
    rcases mem_append.mp hl with hl | hl
    · exact h.inflight_open l hl
    · rw [mem_singleton.mp hl]
      exact hn.undone
  inflight_nodup := by
    have hfresh : n.id ∉ st.inflight.map fun l => l.node.id := by
      intro hmem
      obtain ⟨l, hl, hid⟩ := mem_map.mp hmem
      exact hn.unstarted (hid ▸ h.launched_started l (h.inflight_launched l hl))
    simpa [DagState.launch, nodup_append] using
      ⟨h.inflight_nodup, by simpa using hfresh⟩

theorem mem_eraseIdx_ne {ls : List Launch} (hnodup : (ls.map fun l => l.node.id).Nodup) {k : ℕ}
    (hk : k < ls.length) : ∀ l ∈ ls.eraseIdx k, l.node.id ≠ ls[k].node.id := by
  induction ls generalizing k with
  | nil => simp
  | cons l₀ ls ih =>
    rw [map_cons, nodup_cons] at hnodup
    cases k with
    | zero =>
      intro l hl hid
      exact hnodup.1 (hid ▸ mem_map_of_mem hl)
    | succ k =>
      intro l hl hid
      rcases mem_cons.mp hl with rfl | hl
      · exact hnodup.1 (hid ▸ mem_map_of_mem (getElem_mem _))
      · exact ih hnodup.2 (by simpa using hk) l hl hid

theorem Consistent.complete (h : Consistent serde st) {k : ℕ} (hk : k < st.inflight.length)
    (c : Completion) :
    Consistent serde ({ st with
      inflight := st.inflight.eraseIdx k, stallCount := 0 }.recordNodeCompletion
        (c.result st.inflight[k])) := by
  have hmem : st.inflight[k] ∈ st.inflight := getElem_mem hk
  have hopen : st.completed st.inflight[k].node.id = none := h.inflight_open _ hmem
  have hrest : ∀ l ∈ st.inflight.eraseIdx k, l ∈ st.inflight := fun _ hl =>
    mem_of_mem_eraseIdx hl
  exact {
    entry_id := by
      intro id r hr
      rw [recordNodeCompletion_completed] at hr
      by_cases hid : id = st.inflight[k].node.id
      · subst hid
        have hres : c.result st.inflight[k] = r := by simpa [Completion.result] using hr
        rw [← hres]
        rfl
      · exact h.entry_id (by simpa [Completion.result, hid] using hr)
    entry_started := by
      intro id hsome
      rw [recordNodeCompletion_completed] at hsome
      rw [recordNodeCompletion_started]
      by_cases hid : id = st.inflight[k].node.id
      · exact hid ▸ h.launched_started _ (h.inflight_launched _ hmem)
      · exact h.entry_started (by simpa [Completion.result, hid] using hsome)
    launched_started := by simpa using h.launched_started
    launched_active := by simpa using h.launched_active
    launched_nodup := by simpa using h.launched_nodup
    launched_deps := by simpa using h.launched_deps
    launched_runIf := by simpa using h.launched_runIf
    launched_known := by
      simp only [recordNodeCompletion_launched, recordNodeCompletion_completed]
      exact fun l hl => (h.launched_known l hl).trans (extends_update hopen _)
    inflight_launched := by
      simp only [recordNodeCompletion_launched, recordNodeCompletion_inflight]
      exact fun l hl => h.inflight_launched l (hrest l hl)
    inflight_open := by
      simp only [recordNodeCompletion_inflight, recordNodeCompletion_completed]
      intro l hl
      have hne := mem_eraseIdx_ne h.inflight_nodup hk l hl
      simpa [Completion.result, hne] using h.inflight_open l (hrest l hl)
    inflight_nodup := by
      simp only [recordNodeCompletion_inflight]
      exact h.inflight_nodup.sublist ((eraseIdx_sublist _ _).map _) }

theorem Consistent.acts (h : Consistent serde st) (hact : Acts serde spec lk c st st') :
    Consistent serde st' := by
  cases hact with
  | skip _ hn _ =>
    refine h.mark hn.undone fun l hl hid => hn.unstarted ?_
    have hstarted := h.launched_started l (h.inflight_launched l hl)
    rwa [hid] at hstarted
  | launch _ hn hif => exact h.launch hn hif
  | complete hfly =>
    obtain ⟨k, hk, heq⟩ := awaitNext_eq c hfly
    rw [heq]
    exact h.complete hk c
  | abortMark hfly _ _ hundone => exact h.mark hundone (by simp [hfly])
  | livelockMark _ _ hfly _ hundone => exact h.mark hundone (by simp [hfly])
  | stall => exact { h with }
  | finish _ _ _ => exact { h with }

theorem Consistent.schedulePass (h : Consistent serde st) :
    Consistent serde (schedulePass serde spec st) := by
  have hacts : Relation.ReflTransGen
      (Acts serde spec False ⟨0, fun l => runIfSkipped l.node⟩)
      (Workflow.expand serde st) (Workflow.schedulePass serde spec st) := schedulePass_acts
  generalize Workflow.schedulePass serde spec st = s at hacts ⊢
  induction hacts with
  | refl => exact h.expand
  | tail _ hact ih => exact ih.acts hact

/-- A single change adds results and keeps those there are. -/
theorem Consistent.acts_extends (h : Consistent serde st) (hact : Acts serde spec lk c st st') :
    st.completed.Extends st'.completed := by
  cases hact with
  | skip _ hn _ => exact extends_update hn.undone _
  | launch _ _ _ => exact Completed.Extends.rfl
  | complete hfly =>
    obtain ⟨k, hk, heq⟩ := awaitNext_eq c hfly
    rw [heq, recordNodeCompletion_completed]
    exact extends_update (h.inflight_open _ (getElem_mem hk)) _
  | abortMark _ _ _ hundone => exact extends_update hundone _
  | livelockMark _ _ _ _ hundone => exact extends_update hundone _
  | stall => exact Completed.Extends.rfl
  | finish _ _ _ => exact Completed.Extends.rfl

theorem consistent_run (ops : List Completion) :
    Consistent serde (Run.run (iterate serde spec) (start spec) ops) :=
  run_invariant (Consistent serde) (fun _ h _ => h.expand) (fun _ _ _ _ h hact => h.acts hact)
    consistent_start ops

theorem Acts.activeNodes_eq (hact : Acts serde spec lk c st st') :
    st'.activeNodes = st.activeNodes := by
  cases hact with
  | complete hfly =>
    obtain ⟨k, hk, heq⟩ := awaitNext_eq c hfly
    rw [heq, recordNodeCompletion_activeNodes]
  | _ => rfl

theorem Acts.forEachPending_eq (hact : Acts serde spec lk c st st') :
    st'.forEachPending = st.forEachPending := by
  cases hact with
  | complete hfly =>
    obtain ⟨k, hk, heq⟩ := awaitNext_eq c hfly
    rw [heq, recordNodeCompletion_forEachPending]
  | _ => rfl

/-- Where the loop has ended, every active node has a result. -/
def EndsDone (st : DagState) : Prop :=
  st.ended = true → ∀ n ∈ st.activeNodes, (st.completed n.id).isSome

theorem EndsDone.acts (hst : Consistent serde st) (h : EndsDone st)
    (hact : Acts serde spec lk c st st') : EndsDone st' := by
  have hext := hst.acts_extends hact
  have hkeep : st'.ended = st.ended → EndsDone st' := by
    intro heq hend n hn
    rw [hact.activeNodes_eq] at hn
    exact hext.isSome (h (heq ▸ hend) n hn)
  cases hact with
  | finish _ hdone _ => exact fun _ => hdone
  | complete hfly =>
    obtain ⟨k, hk, heq⟩ := awaitNext_eq c hfly
    exact hkeep (by rw [heq, recordNodeCompletion_ended])
  | _ => exact hkeep rfl

theorem endsDone_run (ops : List Completion) :
    EndsDone (Run.run (iterate serde spec) (start spec) ops) := by
  have hstart : EndsDone (start spec) := fun hend => by cases hend
  have hinv : (fun st => Consistent serde st ∧ EndsDone st)
      (Run.run (iterate serde spec) (start spec) ops) := by
    refine run_invariant (fun st => Consistent serde st ∧ EndsDone st) ?_ ?_
      ⟨consistent_start, hstart⟩ ops
    · rintro st ⟨hst, -⟩ hrun
      refine ⟨hst.expand, fun hend => ?_⟩
      exact absurd (show st.ended = true from hend) (by simp [hrun])
    · rintro lk c st st' ⟨hst, hdone⟩ hact
      exact ⟨hst.acts hact, hdone.acts hst hact⟩
  exact hinv.2

theorem Acts.launched_of_halted (hhalt : halted spec st = true)
    (hact : Acts serde spec lk c st st') :
    st'.launched = st.launched ∧ halted spec st' = true := by
  cases hact with
  | skip hrun _ _ => rw [hrun] at hhalt; cases hhalt
  | launch hrun _ _ => rw [hrun] at hhalt; cases hhalt
  | complete hfly =>
    obtain ⟨k, hk, heq⟩ := awaitNext_eq c hfly
    rw [heq]
    simp only [halted, Bool.and_eq_true] at hhalt
    refine ⟨recordNodeCompletion_launched _, ?_⟩
    simp [halted, recordNodeCompletion_firstFailure, hhalt.1, hhalt.2]
  | _ => exact ⟨rfl, hhalt⟩

end Consistency

section Failures

variable {serde : Serde} {spec : WorkflowSpec} {lk : Prop} {c : Completion} {st st' : DagState}

/-- Every failed result is that of a node which was started on earlier results. -/
def FailedRan (launched : List Launch) (completed : Completed) : Prop :=
  ∀ id r, completed id = some r → r.status = .failed →
    ∃ l ∈ launched, l.node.id = id ∧ l.completed.Extends completed

theorem FailedRan.mono {launched launched' : List Launch} {completed : Completed}
    (h : FailedRan launched completed) (hsub : launched ⊆ launched') :
    FailedRan launched' completed := by
  intro id r hr hfailed
  obtain ⟨l, hl, hid, hext⟩ := h id r hr hfailed
  exact ⟨l, hsub hl, hid, hext⟩

theorem FailedRan.update {launched : List Launch} {completed : Completed}
    (h : FailedRan launched completed) {r : NodeRunResult} (hnone : completed r.id = none)
    (hr : r.status = .failed → ∃ l ∈ launched, l.node.id = r.id ∧ l.completed.Extends completed) :
    FailedRan launched (Function.update completed r.id (some r)) := by
  have hext := extends_update hnone r
  intro id r' hr' hfailed
  by_cases hid : id = r.id
  · rw [hid, Function.update_self] at hr'
    obtain rfl : r = r' := Option.some.inj hr'
    obtain ⟨l, hl, hlid, hlext⟩ := hr hfailed
    exact ⟨l, hl, hlid.trans hid.symm, hlext.trans hext⟩
  · rw [Function.update_of_ne hid] at hr'
    obtain ⟨l, hl, hlid, hlext⟩ := h id r' hr' hfailed
    exact ⟨l, hl, hlid, hlext.trans hext⟩

/-- Started nodes saw only failures that ran, and so far there are no others. -/
structure Witnessed (serde : Serde) (st : DagState) : Prop where
  consistent : Consistent serde st
  seen : ∀ l ∈ st.launched, FailedRan st.launched l.completed
  now : FailedRan st.launched st.completed

theorem Witnessed.acts (hno : ¬ lk) (h : Witnessed serde st) (hact : Acts serde spec lk c st st') :
    Witnessed serde st' := by
  have hcons := h.consistent.acts hact
  cases hact with
  | skip _ hn _ =>
    exact ⟨hcons, h.seen, h.now.update hn.undone fun hfailed => by cases hfailed⟩
  | @launch n _ hn _ =>
    have hsub : st.launched ⊆ (st.launch n).launched := fun _ hl => mem_cons_of_mem _ hl
    refine ⟨hcons, forall_mem_cons.mpr ⟨h.now.mono hsub, fun l hl => ?_⟩, h.now.mono hsub⟩
    exact (h.seen l hl).mono hsub
  | complete hfly =>
    obtain ⟨k, hk, heq⟩ := awaitNext_eq c hfly
    have hl : st.inflight[k] ∈ st.inflight := getElem_mem hk
    have hl' := h.consistent.inflight_launched _ hl
    rw [heq] at hcons ⊢
    refine ⟨hcons, by simpa using h.seen, ?_⟩
    rw [recordNodeCompletion_launched, recordNodeCompletion_completed]
    exact h.now.update (h.consistent.inflight_open _ hl) fun _ =>
      ⟨_, hl', rfl, h.consistent.launched_known _ hl'⟩
  | abortMark _ _ _ hundone =>
    exact ⟨hcons, h.seen, h.now.update hundone fun hfailed => by cases hfailed⟩
  | livelockMark _ hlk _ _ _ => exact absurd hlk hno
  | stall => exact ⟨hcons, h.seen, h.now⟩
  | finish _ _ _ => exact ⟨hcons, h.seen, h.now⟩

/-- What no mark changes is the same behind all of them. -/
theorem markRemaining_keeps {β : Type*} (f : DagState → β)
    (hmark : ∀ st r, f (DagState.mark st r) = f st) (marker : WorkflowNodeSpec → NodeRunResult)
    (st : DagState) : f (st.markRemaining marker) = f st := by
  unfold DagState.markRemaining
  generalize st.activeNodes = ns
  induction ns generalizing st with
  | nil => rfl
  | cons n ns ih =>
    rw [foldl_cons, ih]
    split
    · rfl
    · exact hmark st _

/-- An iteration that gives up starts nothing and is the last. -/
theorem iterate_of_livelocks (hrun : st.ended = false) (hlk : Livelocks serde spec st)
    (c : Completion) : (iterate serde spec st c).ended = true ∧
      (iterate serde spec st c).launched = (schedulePass serde spec st).launched := by
  obtain ⟨hfly, hfin, hhalt, hstall⟩ := hlk
  simp [iterate, hrun, hfly, handleEmptyInflight, hfin, hhalt, hstall,
    markRemaining_keeps DagState.launched fun _ _ => rfl]

theorem Witnessed.expand (h : Witnessed serde st) : Witnessed serde (expand serde st) :=
  ⟨h.consistent.expand, h.seen, h.now⟩

theorem Witnessed.schedulePass (h : Witnessed serde st) (c : Completion) :
    Witnessed serde (schedulePass serde spec st) := by
  have hpath : Relation.ReflTransGen (Acts serde spec False c) (Workflow.expand serde st)
      (Workflow.schedulePass serde spec st) := schedulePass_acts
  exact hpath.head_induction_on (motive := fun s _ => Witnessed serde s → Witnessed serde _) id
    (fun hact _ ih hs => ih (hs.acts not_false hact)) h.expand

/-- Giving up records failures that did not run, but only at the end. -/
def FailuresRan (serde : Serde) (st : DagState) : Prop :=
  (st.ended = false → Witnessed serde st) ∧
    ∀ l ∈ st.launched, FailedRan st.launched l.completed

theorem FailuresRan.iterate (h : FailuresRan serde st) (c : Completion) :
    FailuresRan serde (iterate serde spec st c) := by
  by_cases hend : st.ended
  · simpa only [Workflow.iterate, hend, if_true] using h
  have hrun : st.ended = false := by simpa using hend
  have hst := h.1 hrun
  by_cases hlk : Livelocks serde spec st
  · obtain ⟨hended, hlaunched⟩ := iterate_of_livelocks hrun hlk c
    refine ⟨fun hopen => ?_, ?_⟩
    · rw [hended] at hopen
      cases hopen
    · rw [hlaunched]
      exact (hst.schedulePass c).seen
  · have hnext := iterate_rule (Witnessed serde) hst (fun _ => hst.expand)
      fun _ _ hs (hact : Acts serde spec _ c _ _) => hs.acts hlk hact
    exact ⟨fun _ => hnext, hnext.seen⟩

/-- A started node saw no failure of a node that had not been started before it. -/
theorem failuresRan_run (ops : List Completion) :
    FailuresRan serde (Run.run (iterate serde spec) (start spec) ops) := by
  have hstart : Witnessed serde (start spec) :=
    ⟨consistent_start, by simp [start], fun _ _ h => by cases h⟩
  exact Run.invariant' (fun _ c h => h.iterate c) ⟨fun _ => hstart, hstart.seen⟩ ops

end Failures

end CrabMate.Workflow
