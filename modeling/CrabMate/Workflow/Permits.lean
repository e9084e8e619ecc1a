import CrabMate.Workflow.Safety

/-! The nodes of a workflow run on permits. The scheduling loop queues every node that became
ready; a queued node begins when it gets one of `max_parallelism` permits, which it holds until it
finishes. Which queued node gets a free permit is left open. -/
namespace CrabMate.Workflow
open List

/-- The loop with the nodes that have begun, the latest first. The loop is `awaiting` from the end
of a pass to the next node that finishes. -/
structure PermitRun where
  dag : DagState
  awaiting : Bool
  begun : List Launch

inductive PermitEvent where
  | schedule
  | acquire (pick : ℕ)
  | complete (c : Completion)

namespace PermitRun

section Model

variable (serde : Serde) (spec : WorkflowSpec) (s : PermitRun)

def start : PermitRun := ⟨Workflow.start spec, false, []⟩

def permits : ℕ := max spec.maxParallelism 1

def hasBegun (l : Launch) : Bool := s.begun.any fun b => b.node.id = l.node.id

def running : List Launch := s.dag.inflight.filter s.hasBegun

/-- The queued nodes without a permit. -/
def waiting : List Launch := s.dag.inflight.filter fun l => !s.hasBegun l

/-- `inflight.next()` polls the queued nodes: one of them may get a permit and begin, or one that
has begun finishes and is recorded. -/
def step : PermitEvent → PermitRun
  | .schedule =>
    if s.awaiting || s.dag.ended then s
    else
      let dag := schedulePass serde spec s.dag
      if dag.inflight.isEmpty then { s with dag := handleEmptyInflight spec dag }
      else { s with dag := dag, awaiting := true }
  | .acquire pick =>
    match s.dag.inflight[pick]? with
    | none => s
    | some l =>
      if s.awaiting && !s.hasBegun l && s.running.length < permits spec then
        { s with begun := l :: s.begun }
      else s
  | .complete c =>
    match s.dag.inflight[c.pick % s.dag.inflight.length]? with
    | none => s
    | some l =>
      if s.awaiting && s.hasBegun l then { s with dag := awaitNext s.dag c, awaiting := false }
      else s

/-- Where a failure stops the workflow, no queued node waits for a permit when a node fails. -/
def Drained : PermitEvent → Prop
  | .complete c => spec.failFast = true →
      ∀ l ∈ s.dag.inflight[c.pick % s.dag.inflight.length]?,
        s.hasBegun l = true → (c.result l).status = .failed → s.waiting = []
  | _ => True

instance (e : PermitEvent) : Decidable (s.Drained spec e) :=
  match e with
  | .complete _ => inferInstanceAs (Decidable (_ → ∀ l ∈ _, _ → _ → _))
  | .schedule | .acquire _ => .isTrue trivial

end Model

end PermitRun

section Passes

variable {serde : Serde} {spec : WorkflowSpec} {st : DagState} {β : Type*}

/-- What neither a skip nor a start nor an expansion changes is the same behind a pass. -/
theorem schedulePass_keeps (f : DagState → β) (hmark : ∀ st r, f (DagState.mark st r) = f st)
    (hlaunch : ∀ st n, f (DagState.launch st n) = f st) (hexpand : f (expand serde st) = f st) :
    f (schedulePass serde spec st) = f st := by
  have hfold : ∀ (ns : List WorkflowNodeSpec) (st : DagState),
      f (ns.foldl (scheduleNode serde) st) = f st := by
    intro ns
    induction ns with
    | nil => exact fun _ => rfl
    | cons n ns ih =>
      intro st
      rw [foldl_cons, ih, scheduleNode]
      split
      · rfl
      · exact hmark st _
      · exact hlaunch st n
  unfold schedulePass
  dsimp only
  split
  · exact hexpand
  · rw [hfold, hexpand]

theorem handleEmptyInflight_keeps (f : DagState → β)
    (hmark : ∀ st r, f (DagState.mark st r) = f st)
    (hend : ∀ st stalls ended, f { st with stallCount := stalls, ended := ended } = f st) :
    f (handleEmptyInflight spec st) = f st := by
  unfold handleEmptyInflight
  dsimp only
  split
  · exact hend st st.stallCount true
  · split
    · exact (hend (st.markRemaining _) (st.markRemaining _).stallCount true).trans
        (markRemaining_keeps f hmark _ st)
    · split
      · exact (hend (DagState.markRemaining _ _) _ true).trans
          ((markRemaining_keeps f hmark _ _).trans (hend st (st.stallCount + 1) st.ended))
      · exact hend st (st.stallCount + 1) st.ended

/-- Once a failure stops the workflow a pass queues nothing. -/
theorem schedulePass_of_halted (hhalt : halted spec st = true) :
    schedulePass serde spec st = expand serde st := if_pos hhalt

theorem Acts.launched_subset {lk : Prop} {c : Completion} {st' : DagState}
    (hact : Acts serde spec lk c st st') : st.launched ⊆ st'.launched := by
  cases hact with
  | launch _ _ _ => exact fun _ hl => mem_cons_of_mem _ hl
  | complete hfly =>
    obtain ⟨k, hk, heq⟩ := awaitNext_eq c hfly
    rw [heq, recordNodeCompletion_launched]
    exact fun _ hl => hl
  | _ => exact fun _ hl => hl

theorem schedulePass_launched : st.launched ⊆ (schedulePass serde spec st).launched := by
  have hpath : Relation.ReflTransGen (Acts serde spec False ⟨0, fun l => runIfSkipped l.node⟩)
      (expand serde st) (schedulePass serde spec st) := schedulePass_acts
  exact hpath.head_induction_on
    (motive := fun s _ => s.launched ⊆ (schedulePass serde spec st).launched)
    (fun _ hl => hl) fun hact _ ih => List.Subset.trans hact.launched_subset ih

end Passes

namespace PermitRun

variable {serde : Serde} {spec : WorkflowSpec} {s : PermitRun}

/-- The loop behind the permits is the scheduling loop: between two iterations, or in one. -/
inductive Follows (serde : Serde) (spec : WorkflowSpec) : PermitRun → Prop
  | between (ops : List Completion) (begun : List Launch) :
      Follows serde spec ⟨Run.run (iterate serde spec) (Workflow.start spec) ops, false, begun⟩
  | within (ops : List Completion) (begun : List Launch)
      (hrun : (Run.run (iterate serde spec) (Workflow.start spec) ops).ended = false)
      (hfly : (schedulePass serde spec
        (Run.run (iterate serde spec) (Workflow.start spec) ops)).inflight ≠ []) :
      Follows serde spec ⟨schedulePass serde spec
        (Run.run (iterate serde spec) (Workflow.start spec) ops), true, begun⟩

theorem Follows.step (h : Follows serde spec s) (e : PermitEvent) :
    Follows serde spec (s.step serde spec e) := by
  cases e with
  | schedule =>
    unfold PermitRun.step
    dsimp only
    split
    · exact h
    · next hopen =>
      rw [Bool.or_eq_true, not_or, Bool.not_eq_true, Bool.not_eq_true] at hopen
      cases h with
      | within => cases hopen.1
      | between ops begun =>
        split
        · next hfly =>
          -- the completion of this iteration is not looked at
          have hiterate : Follows serde spec _ :=
            .between (ops ++ [⟨0, fun l => runIfSkipped l.node⟩]) begun
          rw [Run.run_append, Run.run_cons, Run.run_nil, iterate, hopen.2] at hiterate
          simpa only [Bool.false_eq_true, if_false, hfly, if_true] using hiterate
        · next hfly => exact .within ops begun hopen.2 (by simpa using hfly)
  | acquire pick =>
    unfold PermitRun.step
    dsimp only
    split
    · exact h
    · split
      · cases h with
        | between ops begun => exact .between ops _
        | within ops begun hrun hfly => exact .within ops _ hrun hfly
      · exact h
  | complete c =>
    unfold PermitRun.step
    dsimp only
    split
    · exact h
    · split
      · next hboth =>
        cases h with
        | between ops begun => cases hboth
        | within ops begun hrun hfly =>
          have hiterate : Follows serde spec _ := .between (ops ++ [c]) begun
          rw [Run.run_append, Run.run_cons, Run.run_nil, iterate, hrun] at hiterate
          simpa only [Bool.false_eq_true, if_false, List.isEmpty_iff, hfly] using hiterate
      · exact h

theorem follows_run (events : List PermitEvent) :
    Follows serde spec (Run.run (step serde spec) (start spec) events) :=
  Run.invariant' (fun _ e h => h.step e) (.between [] []) events

theorem Follows.consistent (h : Follows serde spec s) : Consistent serde s.dag := by
  cases h with
  | between ops begun => exact consistent_run ops
  | within ops begun hrun hfly => exact (consistent_run ops).schedulePass

theorem Follows.endsDone (h : Follows serde spec s) : EndsDone s.dag := by
  cases h with
  | between ops begun => exact endsDone_run ops
  | within ops begun hrun hfly =>
    intro hend
    have hsame : (schedulePass serde spec
        (Run.run (iterate serde spec) (Workflow.start spec) ops)).ended = _ :=
      schedulePass_keeps DagState.ended (fun _ _ => rfl) (fun _ _ => rfl) rfl
    rw [hrun] at hsame
    cases hsame.symm.trans hend

section Steps

variable {l : Launch} {pick : ℕ} {c : Completion}

theorem waiting_eq_nil_iff :
    s.waiting = [] ↔ ∀ l ∈ s.dag.inflight, s.hasBegun l = true := by
  simp [waiting, filter_eq_nil_iff]

variable (serde spec) in
/-- All that a step does: a pass, one node that begins, or one that has begun and finishes. -/
theorem step_cases (s : PermitRun) (e : PermitEvent) :
    s.step serde spec e = s ∨
    (e = .schedule ∧ s.dag.launched ⊆ (s.step serde spec e).dag.launched ∧
      (s.step serde spec e).begun = s.begun ∧
      halted spec (s.step serde spec e).dag = halted spec s.dag ∧
      (halted spec s.dag = true → (s.step serde spec e).dag.inflight = s.dag.inflight)) ∨
    (∃ l ∈ s.dag.inflight, s.hasBegun l = false ∧
      s.step serde spec e = { s with begun := l :: s.begun }) ∨
    ∃ c k, ∃ hk : k < s.dag.inflight.length, e = .complete c ∧
      s.hasBegun s.dag.inflight[k] = true ∧
      s.dag.inflight[c.pick % s.dag.inflight.length]? = some s.dag.inflight[k] ∧
      s.step serde spec e = { s with
        dag := { s.dag with inflight := s.dag.inflight.eraseIdx k, stallCount := 0
          }.recordNodeCompletion (c.result s.dag.inflight[k])
        awaiting := false } := by
  cases e with
  | schedule =>
    by_cases hopen : (s.awaiting || s.dag.ended) = true
    · exact Or.inl (if_pos hopen)
    · refine Or.inr (Or.inl ⟨rfl, ?_⟩)
      simp only [step, if_neg hopen]
      split
      · refine ⟨?_, rfl, ?_, fun hhalt => ?_⟩
        · exact fun l hl => (handleEmptyInflight_keeps DagState.launched (fun _ _ => rfl)
            (fun _ _ _ => rfl)).symm ▸ schedulePass_launched hl
        · simp only [halted]
          rw [handleEmptyInflight_keeps DagState.firstFailure (fun _ _ => rfl) (fun _ _ _ => rfl),
            schedulePass_keeps DagState.firstFailure (fun _ _ => rfl) (fun _ _ => rfl) rfl]
        · rw [handleEmptyInflight_keeps DagState.inflight (fun _ _ => rfl) (fun _ _ _ => rfl),
            schedulePass_of_halted hhalt]
          rfl
      · refine ⟨schedulePass_launched, rfl, ?_, fun hhalt => ?_⟩
        · simp only [halted]
          rw [schedulePass_keeps DagState.firstFailure (fun _ _ => rfl) (fun _ _ => rfl) rfl]
        · rw [schedulePass_of_halted hhalt]
          rfl
  | acquire pick =>
    unfold step
    dsimp only
    split
    · exact Or.inl rfl
    · next l hl =>
      split
      · next hfree =>
        simp only [Bool.and_eq_true, Bool.not_eq_true'] at hfree
        exact Or.inr (Or.inr (Or.inl ⟨l, mem_of_getElem? hl, hfree.1.2, rfl⟩))
      · exact Or.inl rfl
  | complete c =>
    unfold step
    dsimp only
    split
    · exact Or.inl rfl
    · next l hl =>
      split
      · next hboth =>
        obtain ⟨hk, rfl⟩ := List.getElem?_eq_some_iff.mp hl
        refine Or.inr (Or.inr (Or.inr ⟨c, _, hk, rfl, (Bool.and_eq_true_iff.mp hboth).2, hl, ?_⟩))
        simp only [awaitNext, hl]
      · exact Or.inl rfl

/-- Whatever begins was queued, and begins once. -/
structure Begins (s : PermitRun) : Prop where
  queued : s.begun ⊆ s.dag.launched
  once : (s.begun.map fun l => l.node.id).Nodup

theorem Begins.step (hfollows : Follows serde spec s) (h : Begins s) (e : PermitEvent) :
    Begins (s.step serde spec e) := by
  rcases step_cases serde spec s e with heq | ⟨-, hsub, hbegun, -⟩ |
    ⟨l, hl, hnew, heq⟩ | ⟨c, k, hk, -, -, -, heq⟩
  · rwa [heq]
  · exact ⟨fun b hb => hsub (h.queued (hbegun ▸ hb)), hbegun ▸ h.once⟩
  · rw [heq]
    refine ⟨cons_subset.mpr ⟨hfollows.consistent.inflight_launched l hl, h.queued⟩,
      nodup_cons.mpr ⟨fun hmem => ?_, h.once⟩⟩
    obtain ⟨b, hb, hid⟩ := mem_map.mp hmem
    rw [hasBegun, any_eq_false] at hnew
    exact hnew b hb (decide_eq_true hid)
  · rw [heq]
    exact ⟨by simpa using h.queued, h.once⟩

variable (serde) in
/-- After a failure that stops the workflow no node waits: nothing begins any more. -/
theorem quiet_step (hhalt : halted spec s.dag = true) (hwait : s.waiting = [])
    (e : PermitEvent) :
    halted spec (s.step serde spec e).dag = true ∧ (s.step serde spec e).waiting = [] ∧
      (s.step serde spec e).begun = s.begun := by
  rcases step_cases serde spec s e with heq | ⟨-, -, hbegun, hsame, hfly⟩ |
    ⟨l, hl, hnew, -⟩ | ⟨c, k, hk, -, -, -, heq⟩
  · rw [heq]
    exact ⟨hhalt, hwait, rfl⟩
  · refine ⟨hsame.trans hhalt, waiting_eq_nil_iff.mpr fun l hl => ?_, hbegun⟩
    rw [hfly hhalt] at hl
    simpa only [hasBegun, hbegun] using waiting_eq_nil_iff.mp hwait l hl
  · rw [waiting_eq_nil_iff.mp hwait l hl] at hnew
    cases hnew
  · rw [heq]
    refine ⟨?_, waiting_eq_nil_iff.mpr fun l hl => ?_, rfl⟩
    · simp only [halted, Bool.and_eq_true] at hhalt ⊢
      simp [recordNodeCompletion_firstFailure, hhalt]
    · rw [recordNodeCompletion_inflight] at hl
      exact waiting_eq_nil_iff.mp hwait l (mem_of_mem_eraseIdx hl)

theorem quiet_run (hhalt : halted spec s.dag = true) (hwait : s.waiting = [])
    (events : List PermitEvent) :
    (Run.run (PermitRun.step serde spec) s events).begun = s.begun := by
  induction events generalizing s with
  | nil => rfl
  | cons e events ih =>
    obtain ⟨hhalt', hwait', hbegun⟩ := quiet_step serde hhalt hwait e
    rw [Run.run_cons, ih hhalt' hwait', hbegun]

/-- A failure that stops the workflow leaves no node waiting, if none waited when it happened. -/
theorem settled_step (h : halted spec s.dag = true → s.waiting = []) (e : PermitEvent)
    (hdrained : s.Drained spec e) (hhalt : halted spec (s.step serde spec e).dag = true) :
    (s.step serde spec e).waiting = [] := by
  by_cases hbefore : halted spec s.dag = true
  · exact (quiet_step serde hbefore (h hbefore) e).2.1
  rcases step_cases serde spec s e with heq | ⟨-, -, -, hsame, -⟩ |
    ⟨l, hl, hnew, heq⟩ | ⟨c, k, hk, rfl, hrunning, hpick, heq⟩
  · rw [heq] at hhalt
    exact absurd hhalt hbefore
  · rw [hsame] at hhalt
    exact absurd hhalt hbefore
  · rw [heq] at hhalt
    exact absurd hhalt hbefore
  · rw [heq] at hhalt ⊢
    simp only [halted, Bool.and_eq_true, recordNodeCompletion_firstFailure, Bool.or_eq_true,
      decide_eq_true_eq] at hhalt hbefore
    have hfailed : (c.result s.dag.inflight[k]).status = .failed :=
      hhalt.2.resolve_left fun hfirst => hbefore ⟨hhalt.1, hfirst⟩
    have hwait := hdrained hhalt.1 _ hpick hrunning hfailed
    refine waiting_eq_nil_iff.mpr fun l hl => ?_
    rw [recordNodeCompletion_inflight] at hl
    exact waiting_eq_nil_iff.mp hwait l (mem_of_mem_eraseIdx hl)

end Steps

end PermitRun

/-- In every run, whichever queued nodes get the free permits, in whatever order the running ones
finish and whatever they return: no id begins twice and only active nodes do, a node that begins was
given a result of each dependency, and at the end exactly one recorded result carries the id of an
active node. A failure under `fail_fast` is not followed by another begin if no queued node waited
for a permit when it happened. -/
theorem scheduling_safe (serde : Serde) (spec : WorkflowSpec) (events : List PermitEvent) :
    let s := Run.run (PermitRun.step serde spec) (PermitRun.start spec) events
    (s.begun.map fun l => l.node.id).Nodup ∧
    (∀ l ∈ s.begun, l.node ∈ s.dag.activeNodes ∧
      ∀ d ∈ l.node.deps, ∃ r, l.completed d = some r ∧ s.dag.completed d = some r) ∧
    (Run.AllOk (PermitRun.step serde spec) (PermitRun.Drained spec) (PermitRun.start spec) events →
      spec.failFast = true → s.dag.firstFailure.isSome →
      ∀ more, (Run.run (PermitRun.step serde spec) s more).begun = s.begun) ∧
    (s.dag.ended = true → ∀ n ∈ s.dag.activeNodes,
      ∃! e : String × NodeRunResult, s.dag.completed e.1 = some e.2 ∧ e.2.id = n.id) := by
  intro s
  have hfollows : PermitRun.Follows serde spec s := PermitRun.follows_run events
  have hst : Consistent serde s.dag := hfollows.consistent
  have hstep : ∀ s e, PermitRun.Follows serde spec s ∧ s.Begins →
      PermitRun.Follows serde spec (s.step serde spec e) ∧ (s.step serde spec e).Begins :=
    fun _ e h => ⟨h.1.step e, h.2.step h.1 e⟩
  have hbegins : s.Begins :=
    (Run.invariant' hstep ⟨.between [] [], ⟨nil_subset _, nodup_nil⟩⟩ events).2
  refine ⟨hbegins.once, fun l hl => ?_, fun hevents hff hfail => ?_, fun hend n hn => ?_⟩
  · have hl := hbegins.queued hl
    refine ⟨hst.launched_active l hl, fun d hd => ?_⟩
    have hdep : (l.completed d).isSome := all_eq_true.mp (hst.launched_deps l hl) d hd
    obtain ⟨r, hr⟩ := Option.isSome_iff_exists.mp hdep
    exact ⟨r, hr, hst.launched_known l hl d r hr⟩
  · have hkeep : ∀ s e, (halted spec s.dag = true → s.waiting = []) → PermitRun.Drained spec s e →
        halted spec (s.step serde spec e).dag = true → (s.step serde spec e).waiting = [] :=
      fun _ e h hok => PermitRun.settled_step h e hok
    have hsettled : halted spec s.dag = true → s.waiting = [] :=
      Run.invariant hkeep (fun _ => rfl) hevents
    have hhalt : halted spec s.dag = true := by simp [halted, hff, hfail]
    exact PermitRun.quiet_run hhalt (hsettled hhalt)
  · obtain ⟨r, hr⟩ := Option.isSome_iff_exists.mp (hfollows.endsDone hend n hn)
    refine ⟨(n.id, r), ⟨hr, hst.entry_id hr⟩, ?_⟩
    rintro ⟨id, r'⟩ ⟨hr', hid⟩
    have hkey : id = n.id := (hst.entry_id hr').symm.trans hid
    subst hkey
    rw [hr] at hr'
    rw [Option.some.inj hr']

section Runs

def independentNode (id : String) : WorkflowNodeSpec :=
  ⟨id, "run_command", .obj [], [], false, none, [], 0, none, none⟩

def twoIndependent (maxParallelism : ℕ) : WorkflowSpec :=
  ⟨maxParallelism, true, [independentNode "a", independentNode "b"], []⟩

def plainText : Serde := ⟨fun _ => none, fun _ => ""⟩

/-- The oldest node in flight finishes. -/
def finishes (status : NodeRunStatus) : PermitEvent :=
  .complete ⟨0, fun l => ⟨l.node.id, status, "", false, none, none, 1⟩⟩

/-- Two permits: both nodes run when the first one fails. -/
theorem scheduling_safe_twoPermits :
    let events : List PermitEvent := [.schedule, .acquire 0, .acquire 1, finishes .failed]
    let s := Run.run (PermitRun.step plainText (twoIndependent 2))
      (PermitRun.start (twoIndependent 2)) events
    s.begun.map (fun l => l.node.id) = ["b", "a"] ∧
      ∀ more, (Run.run (PermitRun.step plainText (twoIndependent 2)) s more).begun = s.begun :=
  ⟨by decide, (scheduling_safe plainText (twoIndependent 2) _).2.2.1 (by decide) rfl (by decide)⟩

/-- One permit: the second node is queued when the first one fails, and begins then. -/
theorem queued_node_begins_after_failure :
    validateDag (twoIndependent 1).nodes = .ok () ∧
      let s := Run.run (PermitRun.step plainText (twoIndependent 1))
        (PermitRun.start (twoIndependent 1)) [.schedule, .acquire 0, finishes .failed]
      (s.dag.firstFailure.map fun r => r.id) = some "a" ∧
        s.begun.map (fun l => l.node.id) = ["a"] ∧
        (Run.run (PermitRun.step plainText (twoIndependent 1)) s [.schedule, .acquire 0]).begun.map
          (fun l => l.node.id) = ["b", "a"] := by
  decide

end Runs

end CrabMate.Workflow
