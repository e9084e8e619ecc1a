import CrabMate.Workflow.Safety

/-! The run of one node. Its tool is called until a call passes, fails in a way that is not worth
another one, or uses up the retries; a panic of a call ends the run. -/
namespace CrabMate.Workflow
open List Option

section Model

/-- A panic, by its text where it has one. -/
abbrev Panic := Option String

/-- What the run of a node meets: it is turned away before its tool is called, or the tool returns
these results, by attempt. -/
inductive NodeTool where
  | refused (output : String) (errorCode : Option String)
  | calls (call : ℕ → Except Panic NodeRunResult)

def workflowNodeFailureRetryable (errorCode : Option String) : Bool :=
  errorCode = some "timeout" || errorCode = some "workflow_tool_join_error" ||
    errorCode = some "workflow_semaphore_closed"

def maxAttempts (n : WorkflowNodeSpec) : ℕ := max (min (n.maxRetries.toNat + 1) (2 ^ 32 - 1)) 1

/-- Another attempt follows a failed one. -/
def retriedAfter (n : WorkflowNodeSpec) (left : ℕ) (res : NodeRunResult) : Bool :=
  res.status ≠ .passed && 0 < left && workflowNodeFailureRetryable res.errorCode &&
    0 < n.maxRetries

/-- The calls from `attempt` on, at most `left`; `aggregate` says whether one before changed the
workspace. -/
def runToolWithRetries (n : WorkflowNodeSpec) (call : ℕ → Except Panic NodeRunResult) :
    ℕ → ℕ → Bool → Except Panic NodeRunResult
  | 0, _, _ => .error (some "workflow node must produce at least one attempt result")
  | left + 1, attempt, aggregate =>
    match call attempt with
    | .error panic => .error panic
    | .ok res =>
      if res.status = .passed then .ok { res with attempt := attempt }
      else if retriedAfter n left res then
        runToolWithRetries n call left (attempt + 1) (aggregate || res.workspaceChanged)
      else
        .ok { res with
          attempt := attempt, workspaceChanged := aggregate || res.workspaceChanged }

def nodePanicResult (subject : String) (id : String) (panic : Panic) : NodeRunResult :=
  ⟨id, .failed,
    match panic with
    | some message => s!"{subject} panic：{message}"
    | none => s!"{subject} panic（原因未知）",
    false, none, some "workflow_node_panic", 1⟩

/-- `subject` says in the text of a panic which phase the node ran in. -/
def runNode (subject : String) (n : WorkflowNodeSpec) : NodeTool → NodeRunResult
  | .refused output errorCode => ⟨n.id, .failed, output, false, none, errorCode, 1⟩
  | .calls call =>
    match runToolWithRetries n call (maxAttempts n) 1 false with
    | .ok res => { res with id := n.id }
    | .error panic => nodePanicResult subject n.id panic

/-- What the calls reported, in order, and whether the last one panicked. -/
def callTrail (n : WorkflowNodeSpec) (call : ℕ → Except Panic NodeRunResult) :
    ℕ → ℕ → List NodeRunResult × Bool
  | 0, _ => ([], true)
  | left + 1, attempt =>
    match call attempt with
    | .error _ => ([], true)
    | .ok res =>
      if retriedAfter n left res then
        (res :: (callTrail n call left (attempt + 1)).1, (callTrail n call left (attempt + 1)).2)
      else ([res], false)

/-- A node and what its run met. -/
structure NodeRun where
  node : WorkflowNodeSpec
  tool : NodeTool

namespace NodeRun

def trail (run : NodeRun) : List NodeRunResult × Bool :=
  match run.tool with
  | .refused _ _ => ([], false)
  | .calls call => callTrail run.node call (maxAttempts run.node) 1

/-- Some attempt reported a change of the workspace. -/
def reportedChange (run : NodeRun) : Bool := run.trail.1.any NodeRunResult.workspaceChanged

/-- Some attempt reported a change, no attempt panicked, and the last one did not pass without
reporting a change itself. -/
def keepsChange (run : NodeRun) : Bool :=
  !run.trail.2 && run.reportedChange &&
    run.trail.1.getLast?.all fun last => last.status ≠ .passed || last.workspaceChanged

end NodeRun

end Model

section Change

variable (n : WorkflowNodeSpec) (call : ℕ → Except Panic NodeRunResult)

theorem runToolWithRetries_spec (left attempt : ℕ) (aggregate : Bool) :
    match runToolWithRetries n call left attempt aggregate with
    | .error _ => (callTrail n call left attempt).2 = true
    | .ok res => (callTrail n call left attempt).2 = false ∧
        ∃ last, (callTrail n call left attempt).1.getLast? = some last ∧
          res.workspaceChanged =
            if last.status = .passed then last.workspaceChanged
            else aggregate ||
              (callTrail n call left attempt).1.any NodeRunResult.workspaceChanged := by
  induction left generalizing attempt aggregate with
  | zero => rfl
  | succ left ih =>
    rw [runToolWithRetries, callTrail]
    cases hcall : call attempt with
    | error panic => rfl
    | ok res =>
      by_cases hpassed : res.status = .passed
      · have hlast : retriedAfter n left res = false := by simp [retriedAfter, hpassed]
        simp [hpassed, hlast]
      · simp only [hpassed, if_false]
        cases hretried : retriedAfter n left res with
        | false => simp [hpassed]
        | true =>
          simp only [if_true]
          have hrest := ih (attempt + 1) (aggregate || res.workspaceChanged)
          cases hrun : runToolWithRetries n call left (attempt + 1)
              (aggregate || res.workspaceChanged) with
          | error panic =>
            rw [hrun] at hrest
            exact hrest
          | ok final =>
            rw [hrun] at hrest
            obtain ⟨hpanic, last, hlast, hchanged⟩ := hrest
            refine ⟨hpanic, last, ?_, ?_⟩
            · rw [getLast?_cons, hlast, getD_some]
            · rw [hchanged, any_cons, Bool.or_assoc]

theorem runNode_workspaceChanged (subject : String) (run : NodeRun) :
    (runNode subject run.node run.tool).workspaceChanged = run.keepsChange := by
  unfold NodeRun.keepsChange NodeRun.reportedChange NodeRun.trail
  cases htool : run.tool with
  | refused output errorCode => rfl
  | calls call =>
    have hspec := runToolWithRetries_spec run.node call (maxAttempts run.node) 1 false
    simp only [runNode]
    cases hrun : runToolWithRetries run.node call (maxAttempts run.node) 1 false with
    | error panic =>
      rw [hrun] at hspec
      simp [hspec, nodePanicResult]
    | ok res =>
      rw [hrun] at hspec
      obtain ⟨hpanic, last, hlast, hchanged⟩ := hspec
      simp only [hchanged, hpanic, hlast, all_some, Bool.false_or]
      by_cases hpassed : last.status = .passed
      · cases hlc : last.workspaceChanged with
        | false => simp [hpassed]
        | true =>
          have hany : (callTrail run.node call (maxAttempts run.node) 1).1.any
              NodeRunResult.workspaceChanged = true :=
            List.any_eq_true.mpr ⟨last, mem_of_getLast? hlast, hlc⟩
          simp [hpassed, hany]
      · simp [hpassed]

theorem NodeRun.reportedChange_of_keepsChange {run : NodeRun} (h : run.keepsChange = true) :
    run.reportedChange = true := by
  simp only [NodeRun.keepsChange, Bool.and_eq_true] at h
  exact h.1.2

end Change

section MainPhase

variable (serde : Serde) (spec : WorkflowSpec)

/-- The running node that finishes next, and what the run of each node met. -/
structure MainOp where
  pick : ℕ
  tool : Launch → NodeTool

def MainOp.completion (op : MainOp) : Completion :=
  ⟨op.pick, fun l => runNode "workflow 节点" l.node (op.tool l)⟩

def iterateMain (st : DagState) (op : MainOp) : DagState := iterate serde spec st op.completion

/-- The node an iteration waits for. -/
def finishing (st : DagState) (op : MainOp) : Option Launch :=
  if st.ended then none
  else
    (schedulePass serde spec st).inflight[op.pick % (schedulePass serde spec st).inflight.length]?

/-- The runs of nodes that finished, in the order in which they did. -/
def mainRuns : DagState → List MainOp → List NodeRun
  | _, [] => []
  | st, op :: ops =>
    ((finishing serde spec st op).map fun l => ⟨l.node, op.tool l⟩).toList ++
      mainRuns (iterateMain serde spec st op) ops

def NodeRun.mainResult (run : NodeRun) : NodeRunResult := runNode "workflow 节点" run.node run.tool

/-- Some result says that the workspace changed; every id with a result is started. -/
def DagState.workspaceChanged (st : DagState) : Bool :=
  st.started.any fun id => (st.completed id).any NodeRunResult.workspaceChanged

end MainPhase

section Iteration

variable {serde : Serde} {spec : WorkflowSpec} {st : DagState}

theorem runNode_id (subject : String) (n : WorkflowNodeSpec) (tool : NodeTool) :
    (runNode subject n tool).id = n.id := by
  unfold runNode
  split
  · rfl
  · split <;> rfl

/-- An iteration only ends, or waits for no node, or waits for a running one. -/
theorem iterateMain_cases (op : MainOp) :
    (st.ended = true ∧ finishing serde spec st op = none ∧ iterateMain serde spec st op = st) ∨
    (st.ended = false ∧ finishing serde spec st op = none ∧
      (schedulePass serde spec st).inflight = [] ∧
      iterateMain serde spec st op = handleEmptyInflight spec (schedulePass serde spec st)) ∨
    (st.ended = false ∧ ∃ l ∈ (schedulePass serde spec st).inflight,
      finishing serde spec st op = some l ∧ ∃ k,
        iterateMain serde spec st op =
          { schedulePass serde spec st with
            inflight := (schedulePass serde spec st).inflight.eraseIdx k
            stallCount := 0 }.recordNodeCompletion (NodeRun.mainResult ⟨l.node, op.tool l⟩)) := by
  unfold finishing iterateMain iterate
  cases hend : st.ended with
  | true => simp
  | false =>
    right
    by_cases hfly : (schedulePass serde spec st).inflight = []
    · left
      simp [hfly]
    · right
      have hpos := length_pos_iff.mpr hfly
      have hk : op.pick % (schedulePass serde spec st).inflight.length <
          (schedulePass serde spec st).inflight.length := Nat.mod_lt _ hpos
      have hresult : ∀ l : Launch,
          op.completion.result l = NodeRun.mainResult ⟨l.node, op.tool l⟩ := by
        intro l
        have hid := runNode_id "workflow 节点" l.node (op.tool l)
        simp only [Completion.result, MainOp.completion, NodeRun.mainResult]
        rw [← hid]
      refine ⟨rfl, _, getElem_mem hk, by simp [getElem?_eq_getElem hk],
        op.pick % (schedulePass serde spec st).inflight.length, ?_⟩
      simp only [List.isEmpty_iff, hfly, if_false, Bool.false_eq_true, awaitNext]
      rw [show op.completion.pick = op.pick from rfl, getElem?_eq_getElem hk]
      simp only [hresult]

/-- Nothing ran: results are added and kept, and none of the new ones reports a change. -/
structure Quiet (st st' : DagState) : Prop where
  known : st.completed.Extends st'.completed
  changes : ∀ id r, st'.completed id = some r → r.workspaceChanged = true →
    st.completed id = some r
  order : st'.completionOrder = st.completionOrder

theorem Quiet.refl : Quiet st st := ⟨Completed.Extends.rfl, fun _ _ h _ => h, rfl⟩

theorem Quiet.trans {s s' : DagState} (h : Quiet st s) (h' : Quiet s s') : Quiet st s' where
  known := h.known.trans h'.known
  changes id r hr hflag := h.changes id r (h'.changes id r hr hflag) hflag
  order := h'.order.trans h.order

theorem Quiet.mark {r : NodeRunResult} (hnone : st.completed r.id = none)
    (hflag : r.workspaceChanged = false) : Quiet st (st.mark r) where
  known := extends_update hnone r
  changes id r' hr' hflag' := by
    by_cases hid : id = r.id
    · have hsame : r = r' := by simpa [DagState.mark, hid] using hr'
      rw [← hsame, hflag] at hflag'
      cases hflag'
    · simpa [DagState.mark, hid] using hr'
  order := rfl

theorem quiet_scheduleNode (n : WorkflowNodeSpec) : Quiet st (scheduleNode serde st n) := by
  unfold scheduleNode
  split
  · exact Quiet.refl
  · rename_i hskip
    refine Quiet.mark ?_ rfl
    unfold nodeScheduleDecision at hskip
    by_cases htouched : n.id ∈ st.started ∨ (st.completed n.id).isSome
    · simp [htouched] at hskip
    · simpa [runIfSkipped] using fun h => htouched (.inr h)
  · exact ⟨Completed.Extends.rfl, fun _ _ h _ => h, rfl⟩

theorem quiet_schedulePass : Quiet st (schedulePass serde spec st) := by
  have hexpand : Quiet st (expand serde st) := ⟨Completed.Extends.rfl, fun _ _ h _ => h, rfl⟩
  unfold schedulePass
  by_cases hhalt : halted spec (expand serde st)
  · simpa only [hhalt, if_true] using hexpand
  · simp only [hhalt]
    have hfold : ∀ (ns : List WorkflowNodeSpec) (s : DagState),
        Quiet s (ns.foldl (scheduleNode serde) s) := by
      intro ns
      induction ns with
      | nil => exact fun _ => Quiet.refl
      | cons n ns ih => exact fun s => (quiet_scheduleNode n).trans (ih _)
    exact hexpand.trans (hfold _ _)

theorem quiet_markRemaining {marker : WorkflowNodeSpec → NodeRunResult}
    (hid : ∀ n, (marker n).id = n.id) (hflag : ∀ n, (marker n).workspaceChanged = false) :
    Quiet st (st.markRemaining marker) := by
  unfold DagState.markRemaining
  induction st.activeNodes generalizing st with
  | nil => exact Quiet.refl
  | cons n ns ih =>
    rw [foldl_cons]
    by_cases hdone : (st.completed n.id).isSome
    · rw [if_pos hdone]
      exact ih
    · rw [if_neg hdone]
      have hnone : st.completed (marker n).id = none := by simpa [hid] using hdone
      exact (Quiet.mark hnone (hflag n)).trans ih

theorem quiet_handleEmptyInflight : Quiet st (handleEmptyInflight spec st) := by
  have hended : ∀ s : DagState, Quiet st s → Quiet st { s with ended := true } := fun _ h =>
    ⟨h.known, h.changes, h.order⟩
  have hstalled : Quiet st { st with stallCount := st.stallCount + 1 } :=
    ⟨Completed.Extends.rfl, fun _ _ h _ => h, rfl⟩
  have haborted : Quiet st (st.markRemaining failFastSkipped) :=
    quiet_markRemaining (fun _ => rfl) fun _ => rfl
  have hgivenUp : Quiet st (DagState.markRemaining (livelocked (st.stallCount + 1))
      { st with stallCount := st.stallCount + 1 }) :=
    hstalled.trans (quiet_markRemaining (fun _ => rfl) fun _ => rfl)
  unfold handleEmptyInflight
  simp only
  split
  · exact hended _ Quiet.refl
  split
  · exact hended _ haborted
  split
  · exact hended _ hgivenUp
  · exact hstalled

theorem Consistent.iterateMain (h : Consistent serde st) (op : MainOp) :
    Consistent serde (iterateMain serde spec st op) :=
  iterate_rule (Consistent serde) h (fun _ => h.expand) fun _ _ hs hact => hs.acts hact

/-- What the node that finishes adds to a state in which nothing ran. -/
def Finishes (st st' : DagState) (run : NodeRun) : Prop :=
  ∃ s, Quiet st s ∧ s.completed run.node.id = none ∧
    st'.completed = Function.update s.completed run.node.id (some run.mainResult) ∧
    st'.completionOrder = s.completionOrder ++
      if run.mainResult.status = .passed then [run.node.id] else []

theorem Consistent.iterateMain_step (h : Consistent serde st) (op : MainOp) :
    match finishing serde spec st op with
    | none => Quiet st (Workflow.iterateMain serde spec st op)
    | some l => Finishes st (Workflow.iterateMain serde spec st op) ⟨l.node, op.tool l⟩ := by
  rcases @iterateMain_cases serde spec st op with
    ⟨_, hnone, heq⟩ | ⟨_, hnone, _, heq⟩ | ⟨_, l, hl, hsome, k, heq⟩
  · rw [hnone, heq]
    exact Quiet.refl
  · rw [hnone, heq]
    exact quiet_schedulePass.trans quiet_handleEmptyInflight
  · rw [hsome, heq]
    have hpass : Consistent serde (Workflow.schedulePass serde spec st) := h.schedulePass
    have hid : (NodeRun.mainResult ⟨l.node, op.tool l⟩).id = l.node.id := runNode_id _ _ _
    refine ⟨_, quiet_schedulePass, hpass.inflight_open l hl, ?_, ?_⟩
    · rw [recordNodeCompletion_completed, hid]
    · rw [← hid]
      unfold DagState.recordNodeCompletion
      split <;> rename_i hstatus <;> simp [hstatus]

end Iteration

section Runs

variable {serde : Serde} {spec : WorkflowSpec} {st : DagState}

theorem workspaceChanged_iff (h : Consistent serde st) :
    st.workspaceChanged = true ↔
      ∃ id r, st.completed id = some r ∧ r.workspaceChanged = true := by
  simp only [DagState.workspaceChanged, List.any_eq_true, Option.any_eq_true]
  constructor
  · rintro ⟨id, _, r, hr, hflag⟩
    exact ⟨id, r, hr, hflag⟩
  · rintro ⟨id, r, hr, hflag⟩
    exact ⟨id, h.entry_started (by rw [hr]; rfl), r, hr, hflag⟩

theorem Quiet.workspaceChanged {st' : DagState} (h : Quiet st st') (hst : Consistent serde st)
    (hst' : Consistent serde st') : st'.workspaceChanged = st.workspaceChanged := by
  rw [Bool.eq_iff_iff, workspaceChanged_iff hst, workspaceChanged_iff hst']
  constructor
  · rintro ⟨id, r, hr, hflag⟩
    exact ⟨id, r, h.changes id r hr hflag, hflag⟩
  · rintro ⟨id, r, hr, hflag⟩
    exact ⟨id, r, h.known id r hr, hflag⟩

theorem Finishes.workspaceChanged {st' : DagState} {run : NodeRun} (h : Finishes st st' run)
    (hst : Consistent serde st) (hst' : Consistent serde st') :
    st'.workspaceChanged = (st.workspaceChanged || run.keepsChange) := by
  obtain ⟨s, hquiet, hopen, hcompleted, _⟩ := h
  have hresult : run.mainResult.workspaceChanged = run.keepsChange :=
    runNode_workspaceChanged _ run
  rw [Bool.eq_iff_iff, Bool.or_eq_true, workspaceChanged_iff hst, workspaceChanged_iff hst',
    hcompleted]
  constructor
  · rintro ⟨id, r, hr, hflag⟩
    by_cases hid : id = run.node.id
    · right
      have hsame : run.mainResult = r := by simpa [hid] using hr
      rw [← hresult, hsame, hflag]
    · left
      exact ⟨id, r, hquiet.changes id r (by simpa [hid] using hr) hflag, hflag⟩
  · rintro (⟨id, r, hr, hflag⟩ | hkeeps)
    · exact ⟨id, r, extends_update hopen _ id r (hquiet.known id r hr), hflag⟩
    · exact ⟨run.node.id, run.mainResult, by simp, hresult.trans hkeeps⟩

/-- A node that finished has a result that stays. -/
theorem Finishes.isSome {st' : DagState} {run : NodeRun} (h : Finishes st st' run) :
    (st'.completed run.node.id).isSome := by
  obtain ⟨s, _, _, hcompleted, _⟩ := h
  simp [hcompleted]

theorem Finishes.known {st' : DagState} {run : NodeRun} (h : Finishes st st' run) :
    st.completed.Extends st'.completed := by
  obtain ⟨s, hquiet, hopen, hcompleted, _⟩ := h
  rw [hcompleted]
  exact hquiet.known.trans (extends_update hopen _)

def NodeRun.passed (run : NodeRun) : Bool := run.mainResult.status = .passed

/-- The ids of the nodes that passed, in the order in which they finished. -/
def passedIds (runs : List NodeRun) : List String :=
  (runs.filter NodeRun.passed).map fun run => run.node.id

theorem Finishes.completionOrder {st' : DagState} {run : NodeRun} (h : Finishes st st' run) :
    st'.completionOrder = st.completionOrder ++ passedIds [run] := by
  obtain ⟨s, hquiet, _, _, horder⟩ := h
  rw [horder, hquiet.order]
  by_cases hpassed : run.mainResult.status = .passed <;>
    simp [passedIds, NodeRun.passed, hpassed]

/-- The state of a run, from the runs of its nodes. -/
structure Ran (st st' : DagState) (runs : List NodeRun) : Prop where
  changed : st'.workspaceChanged = (st.workspaceChanged || runs.any NodeRun.keepsChange)
  order : st'.completionOrder = st.completionOrder ++ passedIds runs
  known : st.completed.Extends st'.completed
  isSome : ∀ run ∈ runs, (st'.completed run.node.id).isSome

theorem Consistent.ran (h : Consistent serde st) (ops : List MainOp) :
    Ran st (Run.run (Workflow.iterateMain serde spec) st ops) (mainRuns serde spec st ops) := by
  induction ops generalizing st with
  | nil => exact ⟨by simp [mainRuns], by simp [mainRuns, passedIds], Completed.Extends.rfl,
      by simp [mainRuns]⟩
  | cons op ops ih =>
    have hnext : Consistent serde (Workflow.iterateMain serde spec st op) := h.iterateMain op
    have hrest := ih hnext
    have hstep := @Consistent.iterateMain_step serde spec st h op
    rw [Run.run_cons, mainRuns]
    cases hfinishing : finishing serde spec st op with
    | none =>
      rw [hfinishing] at hstep
      rw [map_none, toList_none, nil_append]
      exact ⟨by rw [hrest.changed, hstep.workspaceChanged h hnext],
        by rw [hrest.order, hstep.order], hstep.known.trans hrest.known, hrest.isSome⟩
    | some l =>
      rw [hfinishing] at hstep
      rw [map_some, toList_some, singleton_append]
      constructor
      · rw [hrest.changed, hstep.workspaceChanged h hnext, any_cons, Bool.or_assoc]
      · rw [hrest.order, hstep.completionOrder, append_assoc, passedIds, passedIds,
          passedIds, ← map_append, ← filter_append, singleton_append]
      · exact hstep.known.trans hrest.known
      · intro run hrun
        rcases mem_cons.mp hrun with rfl | hrun
        · exact hrest.known.isSome hstep.isSome
        · exact hrest.isSome run hrun

end Runs
end CrabMate.Workflow
