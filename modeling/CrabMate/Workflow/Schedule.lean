import CrabMate.Lib.Run
import CrabMate.Workflow.Model
import Mathlib.Logic.Relation

/-! The scheduling loop of a workflow. An iteration expands the loops whose source has a result,
starts or skips every node that became ready, and then waits for one of the started nodes; any of
them may be the next to finish. To the loop a node is started when its future is queued; the permit
that the future waits for first is in `Permits`. -/
namespace CrabMate.Workflow
open List

section Model

/-- A node whose future was queued, with the results it was given. -/
structure Launch where
  node : WorkflowNodeSpec
  completed : Completed

/-- The state of the loop. `launched` keeps every node ever queued, the latest first. -/
structure DagState where
  activeNodes : List WorkflowNodeSpec
  forEachPending : List ForEachPendingSpec
  completed : Completed
  started : List String
  launched : List Launch
  inflight : List Launch
  completionOrder : List String
  firstFailure : Option NodeRunResult
  stallCount : ℕ
  ended : Bool

def start (spec : WorkflowSpec) : DagState :=
  ⟨spec.nodes, spec.forEachPending, fun _ => none, [], [], [], [], none, 0, false⟩

inductive NodeScheduleDecision where
  | ignore
  | skipRunIf
  | start
  deriving DecidableEq

def runIfSkipped (node : WorkflowNodeSpec) : NodeRunResult :=
  ⟨node.id, .skipped, "choice: run_if not satisfied", false, none,
    some "workflow_choice_skipped", 0⟩

def failFastSkipped (node : WorkflowNodeSpec) : NodeRunResult :=
  ⟨node.id, .skipped, "fail_fast: workflow aborted after first failure", false, none,
    some "workflow_fail_fast_aborted", 0⟩

def livelocked (stallCount : ℕ) (node : WorkflowNodeSpec) : NodeRunResult :=
  ⟨node.id, .failed,
    s!"workflow 调度活锁：连续 {stallCount} 次迭代无节点可调度（可能是运行时循环依赖），已强制终止",
    false, none, some "workflow_livelock", 0⟩

namespace DagState

/-- Records a result that no node returned: the node counts as started. -/
def mark (st : DagState) (r : NodeRunResult) : DagState :=
  { st with
    started := r.id :: st.started
    completed := Function.update st.completed r.id (some r) }

def launch (st : DagState) (node : WorkflowNodeSpec) : DagState :=
  { st with
    started := node.id :: st.started
    launched := ⟨node, st.completed⟩ :: st.launched
    inflight := st.inflight ++ [⟨node, st.completed⟩] }

def markRemaining (marker : WorkflowNodeSpec → NodeRunResult) (st : DagState) : DagState :=
  st.activeNodes.foldl
    (fun st node => if (st.completed node.id).isSome then st else st.mark (marker node)) st

def scheduleFinished (st : DagState) : Bool :=
  st.activeNodes.all (fun n => (st.completed n.id).isSome) && st.forEachPending.isEmpty

def recordNodeCompletion (st : DagState) (res : NodeRunResult) : DagState :=
  match res.status with
  | .passed =>
    { st with
      completionOrder := st.completionOrder ++ [res.id]
      completed := Function.update st.completed res.id (some res) }
  | .skipped => { st with completed := Function.update st.completed res.id (some res) }
  | .failed =>
    { st with
      firstFailure := some (st.firstFailure.getD res)
      completed := Function.update st.completed res.id (some { res with status := .failed }) }

def reportStatus (st : DagState) : String := if st.firstFailure.isSome then "failed" else "passed"

end DagState

/-- The running node that finishes next, and what its run returned for the results it was given. -/
structure Completion where
  pick : ℕ
  runNode : Launch → NodeRunResult

/-- A run's result carries the id of its node. -/
def Completion.result (c : Completion) (l : Launch) : NodeRunResult :=
  { c.runNode l with id := l.node.id }

def awaitNext (st : DagState) (c : Completion) : DagState :=
  let k := c.pick % st.inflight.length
  match st.inflight[k]? with
  | none => st
  | some l =>
    { st with inflight := st.inflight.eraseIdx k, stallCount := 0 }.recordNodeCompletion
      (c.result l)

def maxStall (spec : WorkflowSpec) : ℕ := (max (max spec.maxParallelism 1) 4 * 2) % 2 ^ 32

variable (serde : Serde) (spec : WorkflowSpec)

def nodeScheduleDecision (node : WorkflowNodeSpec) (st : DagState) : NodeScheduleDecision :=
  if node.id ∈ st.started ∨ (st.completed node.id).isSome then .ignore
  else if !nodeDepsResolved node.deps st.completed then .ignore
  else if !nodeRunIfSatisfied serde node.runIf st.completed then .skipRunIf
  else .start

def scheduleNode (st : DagState) (node : WorkflowNodeSpec) : DagState :=
  match nodeScheduleDecision serde node st with
  | .ignore => st
  | .skipRunIf => st.mark (runIfSkipped node)
  | .start => st.launch node

def expand (st : DagState) : DagState :=
  let expanded := expandPendingForEach serde st.forEachPending st.completed
  { st with forEachPending := expanded.1, activeNodes := st.activeNodes ++ expanded.2 }

/-- Once a failure stops the workflow, an iteration starts nothing. -/
def halted (st : DagState) : Bool := spec.failFast && st.firstFailure.isSome

def schedulePass (st : DagState) : DagState :=
  let st' := expand serde st
  if halted spec st' then st' else st'.activeNodes.foldl (scheduleNode serde) st'

def handleEmptyInflight (st : DagState) : DagState :=
  if st.scheduleFinished then { st with ended := true }
  else if halted spec st then { st.markRemaining failFastSkipped with ended := true }
  else
    let stalled := { st with stallCount := st.stallCount + 1 }
    if maxStall spec < stalled.stallCount then
      { stalled.markRemaining (livelocked stalled.stallCount) with ended := true }
    else stalled

/-- One turn of the loop; after its end nothing changes. -/
def iterate (st : DagState) (c : Completion) : DagState :=
  if st.ended then st
  else
    let st' := schedulePass serde spec st
    if st'.inflight.isEmpty then handleEmptyInflight spec st' else awaitNext st' c

end Model

section Actions

variable (serde : Serde) (spec : WorkflowSpec)

/-- The iteration from `st` gives up on the nodes that are left. -/
def Livelocks (st : DagState) : Prop :=
  let st' := schedulePass serde spec st
  st'.inflight.isEmpty = true ∧ st'.scheduleFinished = false ∧ halted spec st' = false ∧
    maxStall spec < st'.stallCount + 1

instance (st : DagState) : Decidable (Livelocks serde spec st) :=
  inferInstanceAs (Decidable (_ ∧ _ ∧ _ ∧ _))

/-- The node may be decided: it is active, untouched, and its dependencies have results. -/
structure Ready (st : DagState) (n : WorkflowNodeSpec) : Prop where
  active : n ∈ st.activeNodes
  unstarted : n.id ∉ st.started
  undone : st.completed n.id = none
  deps : nodeDepsResolved n.deps st.completed = true

/-- Everything an iteration can do behind the expansion of loops, one change at a time. `lk` says
whether it may give up, `c` which node finishes. -/
inductive Acts (lk : Prop) (c : Completion) : DagState → DagState → Prop
  | skip {st : DagState} {n : WorkflowNodeSpec} (hrun : halted spec st = false) (hn : Ready st n)
      (hif : nodeRunIfSatisfied serde n.runIf st.completed = false) :
      Acts lk c st (st.mark (runIfSkipped n))
  | launch {st : DagState} {n : WorkflowNodeSpec} (hrun : halted spec st = false) (hn : Ready st n)
      (hif : nodeRunIfSatisfied serde n.runIf st.completed = true) : Acts lk c st (st.launch n)
  | complete {st : DagState} (hfly : st.inflight ≠ []) :
      Acts lk c st (awaitNext st c)
  | abortMark {st : DagState} {n : WorkflowNodeSpec} (hfly : st.inflight = [])
      (hhalt : halted spec st = true) (hn : n ∈ st.activeNodes)
      (hundone : st.completed n.id = none) : Acts lk c st (st.mark (failFastSkipped n))
  | livelockMark {st : DagState} {n : WorkflowNodeSpec} (k : ℕ) (hlk : lk) (hfly : st.inflight = [])
      (hn : n ∈ st.activeNodes) (hundone : st.completed n.id = none) :
      Acts lk c st (st.mark (livelocked k n))
  | stall {st : DagState} : Acts lk c st { st with stallCount := st.stallCount + 1 }
  | finish {st : DagState} (hfly : st.inflight = [])
      (hdone : ∀ n ∈ st.activeNodes, (st.completed n.id).isSome)
      (hpending : st.forEachPending = [] ∨ halted spec st = true ∨ lk) :
      Acts lk c st { st with ended := true }

variable {serde spec} {lk : Prop} {c : Completion} {st : DagState}

theorem scheduleNode_activeNodes (n : WorkflowNodeSpec) :
    (scheduleNode serde st n).activeNodes = st.activeNodes := by
  unfold scheduleNode
  split <;> rfl

theorem halted_scheduleNode (n : WorkflowNodeSpec) :
    halted spec (scheduleNode serde st n) = halted spec st := by
  unfold scheduleNode
  split <;> rfl

theorem scheduleNode_acts {n : WorkflowNodeSpec} (hrun : halted spec st = false)
    (hn : n ∈ st.activeNodes) :
    Relation.ReflTransGen (Acts serde spec lk c) st (scheduleNode serde st n) := by
  unfold scheduleNode nodeScheduleDecision
  by_cases htouched : n.id ∈ st.started ∨ (st.completed n.id).isSome
  · simp only [htouched, if_true]
    exact .refl
  have hundone : st.completed n.id = none := by
    simpa using fun h => htouched (.inr h)
  by_cases hdeps : nodeDepsResolved n.deps st.completed
  · have hready : Ready st n := ⟨hn, fun h => htouched (.inl h), hundone, hdeps⟩
    by_cases hif : nodeRunIfSatisfied serde n.runIf st.completed
    · simpa [htouched, hdeps, hif] using Relation.ReflTransGen.single (Acts.launch hrun hready hif)
    · have hif' : nodeRunIfSatisfied serde n.runIf st.completed = false := by simpa using hif
      simpa [htouched, hdeps, hif'] using
        Relation.ReflTransGen.single (Acts.skip hrun hready hif')
  · simp only [htouched, hdeps, if_false]
    exact .refl

theorem foldl_scheduleNode_acts (ns : List WorkflowNodeSpec) (hrun : halted spec st = false)
    (hns : ∀ n ∈ ns, n ∈ st.activeNodes) :
    Relation.ReflTransGen (Acts serde spec lk c) st (ns.foldl (scheduleNode serde) st) := by
  induction ns generalizing st with
  | nil => exact .refl
  | cons n ns ih =>
    have hrun' : halted spec (scheduleNode serde st n) = false := by rw [halted_scheduleNode, hrun]
    have hns' : ∀ m ∈ ns, m ∈ (scheduleNode serde st n).activeNodes := by
      intro m hm
      rw [scheduleNode_activeNodes]
      exact hns m (mem_cons_of_mem _ hm)
    exact (scheduleNode_acts hrun (hns n mem_cons_self)).trans (ih hrun' hns')

theorem schedulePass_acts :
    Relation.ReflTransGen (Acts serde spec lk c) (expand serde st)
      (schedulePass serde spec st) := by
  unfold schedulePass
  by_cases hhalt : halted spec (expand serde st)
  · simp only [hhalt, if_true]
    exact .refl
  · simp only [hhalt]
    exact foldl_scheduleNode_acts _ (by simpa using hhalt) fun _ h => h

/-- Marking the nodes that are left, node by node. `Q` is what the marks rely on and keep. -/
theorem foldl_mark_acts {marker : WorkflowNodeSpec → NodeRunResult} {Q : DagState → Prop}
    (hQ : ∀ st r, Q st → Q (st.mark r))
    (hact : ∀ st n, Q st → n ∈ st.activeNodes → st.completed n.id = none →
      Acts serde spec lk c st (st.mark (marker n)))
    (ns : List WorkflowNodeSpec) (hst : Q st) (hns : ∀ n ∈ ns, n ∈ st.activeNodes) :
    let st' := ns.foldl
      (fun st n => if (st.completed n.id).isSome then st else st.mark (marker n)) st
    Relation.ReflTransGen (Acts serde spec lk c) st st' ∧ Q st' ∧
      st'.activeNodes = st.activeNodes := by
  induction ns generalizing st with
  | nil => exact ⟨.refl, hst, rfl⟩
  | cons n ns ih =>
    rw [foldl_cons]
    have hns' : ∀ m ∈ ns, m ∈ st.activeNodes := fun m hm => hns m (mem_cons_of_mem _ hm)
    by_cases hdone : (st.completed n.id).isSome
    · rw [if_pos hdone]
      exact ih hst hns'
    · rw [if_neg hdone]
      obtain ⟨hrest, hQ', hactive⟩ := ih (hQ st (marker n) hst) hns'
      have hfirst := hact st n hst (hns n mem_cons_self) (by simpa using hdone)
      exact ⟨.head hfirst hrest, hQ', hactive⟩

theorem isSome_foldl_mark {marker : WorkflowNodeSpec → NodeRunResult}
    (hid : ∀ n, (marker n).id = n.id) (ns : List WorkflowNodeSpec) (id : String)
    (h : (st.completed id).isSome ∨ ∃ n ∈ ns, n.id = id) :
    ((ns.foldl (fun st n => if (st.completed n.id).isSome then st else st.mark (marker n))
      st).completed id).isSome := by
  induction ns generalizing st with
  | nil => simpa using h
  | cons n ns ih =>
    rw [foldl_cons]
    apply ih
    by_cases hdone : (st.completed n.id).isSome
    · rw [if_pos hdone]
      rcases h with h | ⟨m, hm, rfl⟩
      · exact .inl h
      · rcases mem_cons.mp hm with rfl | hm
        · exact .inl hdone
        · exact .inr ⟨m, hm, rfl⟩
    · rw [if_neg hdone]
      by_cases hself : id = n.id
      · left
        simp [DagState.mark, hid, hself]
      · rcases h with h | ⟨m, hm, rfl⟩
        · left
          simpa [DagState.mark, hid, hself] using h
        · rcases mem_cons.mp hm with rfl | hm
          · exact absurd rfl hself
          · exact .inr ⟨m, hm, rfl⟩

/-- The marks leave every active node with a result. -/
theorem markRemaining_acts (lk : Prop) (c : Completion) (marker : WorkflowNodeSpec → NodeRunResult)
    (hid : ∀ n, (marker n).id = n.id) (Q : DagState → Prop) (hQ : ∀ st r, Q st → Q (st.mark r))
    (hact : ∀ st n, Q st → n ∈ st.activeNodes → st.completed n.id = none →
      Acts serde spec lk c st (st.mark (marker n))) (hst : Q st) :
    Relation.ReflTransGen (Acts serde spec lk c) st (st.markRemaining marker) ∧
      Q (st.markRemaining marker) ∧
      ∀ n ∈ (st.markRemaining marker).activeNodes,
        ((st.markRemaining marker).completed n.id).isSome := by
  obtain ⟨hmarks, hQ', hactive⟩ := foldl_mark_acts hQ hact st.activeNodes hst fun _ h => h
  refine ⟨hmarks, hQ', fun n hn => ?_⟩
  have hn' : n ∈ st.activeNodes := by simpa only [DagState.markRemaining, hactive] using hn
  exact isSome_foldl_mark hid st.activeNodes n.id (.inr ⟨n, hn', rfl⟩)

theorem handleEmptyInflight_acts (hfly : st.inflight = [])
    (hlk : st.scheduleFinished = false → halted spec st = false →
      maxStall spec < st.stallCount + 1 → lk) :
    Relation.ReflTransGen (Acts serde spec lk c) st (handleEmptyInflight spec st) := by
  unfold handleEmptyInflight
  by_cases hfin : st.scheduleFinished
  · rw [if_pos hfin]
    simp only [DagState.scheduleFinished, Bool.and_eq_true, all_eq_true,
      List.isEmpty_iff] at hfin
    exact .single (.finish hfly hfin.1 (.inl hfin.2))
  rw [if_neg hfin]
  by_cases hhalt : halted spec st
  · rw [if_pos hhalt]
    obtain ⟨hmarks, ⟨hfly', hhalt'⟩, hdone⟩ := markRemaining_acts lk c failFastSkipped
      (fun _ => rfl) (fun s => s.inflight = [] ∧ halted spec s = true) (fun _ _ h => h)
      (fun s n h hn hundone => Acts.abortMark h.1 h.2 hn hundone) ⟨hfly, hhalt⟩
    exact hmarks.tail (.finish hfly' hdone (.inr (.inl hhalt')))
  rw [if_neg hhalt]
  by_cases hstall : maxStall spec < st.stallCount + 1
  · rw [if_pos hstall]
    have hgive : lk := hlk (by simpa using hfin) (by simpa using hhalt) hstall
    have hstalled : ({ st with stallCount := st.stallCount + 1 } : DagState).inflight = [] := hfly
    obtain ⟨hmarks, hfly', hdone⟩ := markRemaining_acts lk c (livelocked (st.stallCount + 1))
      (fun _ => rfl) (fun s => s.inflight = []) (fun _ _ h => h)
      (fun s n h hn hundone => Acts.livelockMark (st.stallCount + 1) hgive h hn hundone) hstalled
    exact .head .stall (hmarks.tail (.finish hfly' hdone (.inr (.inr hgive))))
  · rw [if_neg hstall]
    exact .single .stall

/-- An iteration is an expansion of loops followed by single changes. -/
theorem iterate_acts (hrun : st.ended = false) :
    Relation.ReflTransGen (Acts serde spec (Livelocks serde spec st) c) (expand serde st)
      (iterate serde spec st c) := by
  unfold iterate
  rw [if_neg (by simp [hrun])]
  by_cases hfly : (schedulePass serde spec st).inflight = []
  · simp only [hfly, isEmpty_nil, if_true]
    exact schedulePass_acts.trans
      (handleEmptyInflight_acts hfly fun hfin hhalt hstall =>
        ⟨List.isEmpty_iff.mpr hfly, hfin, hhalt, hstall⟩)
  · simp only [List.isEmpty_iff, hfly, if_false]
    exact schedulePass_acts.tail (.complete hfly)

/-- What the expansion establishes and every single change keeps holds after the iteration. -/
theorem iterate_rule (Inv : DagState → Prop) (hst : Inv st)
    (hexpand : st.ended = false → Inv (expand serde st))
    (hacts : ∀ s s', Inv s → Acts serde spec (Livelocks serde spec st) c s s' → Inv s') :
    Inv (iterate serde spec st c) := by
  by_cases hend : st.ended
  · simpa only [iterate, hend, if_true] using hst
  · have hrun : st.ended = false := by simpa using hend
    exact (iterate_acts hrun).head_induction_on (motive := fun s _ => Inv s → Inv _) id
      (fun hact _ ih hs => ih (hacts _ _ hs hact)) (hexpand hrun)

theorem run_invariant (Inv : DagState → Prop)
    (hexpand : ∀ st, Inv st → st.ended = false → Inv (expand serde st))
    (hacts : ∀ lk c st st', Inv st → Acts serde spec lk c st st' → Inv st') (hst : Inv st)
    (ops : List Completion) : Inv (Run.run (iterate serde spec) st ops) :=
  Run.invariant' (fun s c h => iterate_rule Inv h (hexpand s h) (hacts _ c)) hst ops

end Actions

end CrabMate.Workflow
