import CrabMate.Lib.First
import CrabMate.Workflow.Attempts
import CrabMate.Workflow.Report

/-! The end of a failed workflow: the compensation nodes of the nodes that passed are run one after
the other, and the report and the returned flag say whether the workspace changed. -/
namespace CrabMate.Workflow
open RustStr List

section Model

/-- A workflow with what its end depends on. -/
structure RunSpec extends WorkflowSpec where
  compensateOnFailure : Bool
  summaryPreviewMaxChars : ℕ
  compensationPreviewMaxChars : ℕ

/-- The characters that fit into so many bytes. -/
def takeBytes : ℕ → Str → Str
  | _, [] => []
  | room, c :: s => if c.utf8Size ≤ room then c :: takeBytes (room - c.utf8Size) s else []

def truncateForSummary (s : String) (maxBytes : ℕ) : String :=
  if s.utf8ByteSize ≤ maxBytes then s
  else s!"{String.ofList (takeBytes maxBytes s.toList)}... (截断)"

def nodeStatusWord : NodeRunStatus → String
  | .passed => "passed"
  | .failed => "failed"
  | .skipped => "skipped"

/-- How the nodes of the author fared: passed, failed and skipped. A node without a result counts
as failed if it was started. -/
def tallySummaryStats (spec : RunSpec) (st : DagState) : ℕ × ℕ × ℕ :=
  let status (n : WorkflowNodeSpec) : NodeRunStatus :=
    match st.completed n.id with
    | some r => r.status
    | none => if n.id ∈ st.started then .failed else .skipped
  (spec.nodes.countP (status · = .passed), spec.nodes.countP (status · = .failed),
    spec.nodes.countP (status · = .skipped))

def nodeResultLine (r : NodeRunResult) (maxChars : ℕ) (statusDebug : Bool) : String :=
  let word := nodeStatusWord r.status
  let shown := if statusDebug then s!"\"{word}\"" else word
  s!"  - {r.id}: {shown}\n    output: {truncateForSummary r.output maxChars}\n"

def formatMainSummary (spec : RunSpec) (st : DagState) : String :=
  let stats := tallySummaryStats spec st
  let listed := st.completionOrder.eraseDups
  let maxChars := spec.summaryPreviewMaxChars
  let remaining := (spec.nodes.filter fun n => n.id ∉ listed).map fun n =>
    match st.completed n.id with
    | some r => nodeResultLine r maxChars false
    | none => s!"  - {n.id}: skipped\n"
  let failure := match st.firstFailure with
    | none => ""
    | some f =>
      let firstLine := String.ofList ((lines f.output.toList).headD [])
      s!"\n首个失败节点：{f.id}（tool={firstLine}）\n"
  "workflow_execute summary:\n" ++
    s!"- status: {st.reportStatus}\n- max_parallelism: {spec.maxParallelism}\n" ++
    s!"- fail_fast: {spec.failFast}\n- compensate_on_failure: {spec.compensateOnFailure}\n" ++
    s!"- stats: passed={stats.1}, failed={stats.2.1}, skipped={stats.2.2}\n" ++
    "- node results:\n" ++
    String.join ((listed.filterMap st.completed).map (nodeResultLine · maxChars true)) ++
    String.join remaining ++ failure

/-- The nodes by id, as they were parsed; of two with one id the last stays. -/
def lookupNode (nodes : List WorkflowNodeSpec) (id : String) : Option WorkflowNodeSpec :=
  nodes.reverse.find? fun n => n.id == id

def addCompensation (ids : List String) (comp : String) : List String :=
  if comp ∈ ids then ids else ids ++ [comp]

def collectCompensationIds (nodes : List WorkflowNodeSpec) (completionOrder : List String)
    (completed : Completed) : List String :=
  completionOrder.reverse.foldl
    (fun ids id =>
      if (completed id).isNone then ids
      else match lookupNode nodes id with
        | none => ids
        | some n => n.compensateWith.foldl addCompensation ids)
    []

/-- The text of the compensation so far, and the runs it made. -/
structure Compensations where
  out : String
  anyFailed : Bool
  anyWorkspaceChanged : Bool
  ran : List NodeRun

def NodeRun.compensationResult (run : NodeRun) : NodeRunResult :=
  runNode "补偿节点" run.node run.tool

def compensateStep (spec : RunSpec) (tool : String → NodeTool) (acc : Compensations)
    (compId : String) : Compensations :=
  match lookupNode spec.nodes compId with
  | none =>
    { acc with anyFailed := true, out := acc.out ++ s!"- {compId}: 失败（找不到节点定义）\n" }
  | some n =>
    let run : NodeRun := ⟨n, tool compId⟩
    let res := run.compensationResult
    let passed := res.status = .passed
    { out := acc.out ++
        if passed then s!"- {compId}: passed\n"
        else
          let shown := truncateForSummary res.output spec.compensationPreviewMaxChars
          s!"- {compId}: failed\n    output: {shown}\n"
      anyFailed := acc.anyFailed || !passed
      anyWorkspaceChanged := acc.anyWorkspaceChanged || res.workspaceChanged
      ran := acc.ran ++ [run] }

/-- `tool` is what the run of each compensation node meets. -/
def executeCompensations (spec : RunSpec) (st : DagState) (tool : String → NodeTool) :
    Compensations :=
  let ids := collectCompensationIds spec.nodes st.completionOrder st.completed
  if ids.isEmpty then ⟨"无补偿节点", false, false, []⟩
  else
    let listed := ", ".intercalate ids
    let done := ids.foldl (compensateStep spec tool)
      ⟨s!"将执行补偿节点（顺序：逆序收集）：{listed}\n", false, false, []⟩
    if done.anyFailed then
      { done with out := done.out ++ "\n补偿执行存在失败（需要人工介入确认一致性）。" }
    else done

structure CompensationPhase where
  humanSummary : String
  workspaceChanged : Bool
  summary : Option String
  executed : Bool
  ran : List NodeRun

def workflowCompensationAndHumanSummary (spec : RunSpec) (st : DagState) (mainSummary : String)
    (tool : String → NodeTool) : CompensationPhase :=
  if st.firstFailure.isNone then ⟨mainSummary, false, none, false, []⟩
  else if !spec.compensateOnFailure then
    ⟨mainSummary ++ "\n\n补偿已跳过（compensate_on_failure=false）", false, none, false, []⟩
  else
    let done := executeCompensations spec st tool
    ⟨mainSummary ++ "\n\n====================\n\n补偿执行结果：\n" ++ done.out,
      done.anyWorkspaceChanged, some done.out, true, done.ran⟩

structure WorkflowExecutionReport where
  status : String
  workspaceChanged : Bool
  stats : ℕ × ℕ × ℕ
  compensationExecuted : Bool
  compensationSummary : Option String
  completionOrder : List String
  humanSummary : String

/-- A run of a workflow: what the runs of its nodes met, and then those of the compensation. -/
structure WorkflowRun where
  serde : Serde
  spec : RunSpec
  ops : List MainOp
  compensationTool : String → NodeTool

namespace WorkflowRun

variable (w : WorkflowRun)

/-- The state the scheduling loop is left in. -/
def progress : DagState :=
  Run.run (iterateMain w.serde w.spec.toWorkflowSpec) (start w.spec.toWorkflowSpec) w.ops

def mainNodes : List NodeRun :=
  mainRuns w.serde w.spec.toWorkflowSpec (start w.spec.toWorkflowSpec) w.ops

def compensation : CompensationPhase :=
  workflowCompensationAndHumanSummary w.spec w.progress (formatMainSummary w.spec w.progress)
    w.compensationTool

/-- The report and the flag; nothing before the scheduling loop has come to its end. -/
def executeWorkflowDag : Option (WorkflowExecutionReport × Bool) :=
  if w.progress.ended then
    let workspaceChanged := w.progress.workspaceChanged
    let comp := w.compensation
    some
      ({ status := w.progress.reportStatus
         workspaceChanged := workspaceChanged || comp.workspaceChanged
         stats := tallySummaryStats w.spec w.progress
         compensationExecuted := comp.executed
         compensationSummary := comp.summary
         completionOrder := w.progress.completionOrder
         humanSummary := comp.humanSummary },
       workspaceChanged)
  else none

/-- Every run of a node, those of the compensation included. -/
def nodeRuns : List NodeRun := w.mainNodes ++ w.compensation.ran

/-- Some attempt of some node reported a change of the workspace. -/
def anyReported : Bool := w.nodeRuns.any NodeRun.reportedChange

/-- The nodes that passed, in the order in which they finished. -/
def passedNodes : List WorkflowNodeSpec := (w.mainNodes.filter NodeRun.passed).map NodeRun.node

/-- What is to be undone for the nodes that passed, the last one first: those of the nodes they name
that the workflow has, whether its author wrote them or a loop made them. -/
def wantedCompensations : List String :=
  (w.passedNodes.reverse.flatMap WorkflowNodeSpec.compensateWith).filter fun id =>
    w.progress.activeNodes.any fun n => n.id == id

def ranCompensations : List String := w.compensation.ran.map fun run => run.node.id

end WorkflowRun

/-- Everything wanted ran once, in the order in which it was wanted first. -/
structure CompensationComplete (wanted ran : List String) : Prop where
  once : ran.Nodup
  all : ∀ id, id ∈ ran ↔ id ∈ wanted
  ordered : ran.Pairwise fun a b => wanted.idxOf a < wanted.idxOf b

/-- The compensation nodes the author gave the node with the id. -/
def staticCompensations (nodes : List WorkflowNodeSpec) (id : String) : List String :=
  ((lookupNode nodes id).map WorkflowNodeSpec.compensateWith).getD []

/-- The author's nodes say what undoes the nodes that passed. -/
def WorkflowRun.ListsCompensations (w : WorkflowRun) : Prop :=
  ∀ n ∈ w.passedNodes, staticCompensations w.spec.nodes n.id = n.compensateWith

/-- What undoes the nodes that passed are nodes of the author. -/
def WorkflowRun.StaticCompensations (w : WorkflowRun) : Prop :=
  ∀ id ∈ w.wantedCompensations, (lookupNode w.spec.nodes id).isSome

end Model

section Collection

variable {nodes : List WorkflowNodeSpec} {spec : RunSpec}

theorem lookupNode_spec {id : String} {n : WorkflowNodeSpec} (h : lookupNode nodes id = some n) :
    n ∈ nodes ∧ n.id = id := by
  constructor
  · exact mem_reverse.mp (mem_of_find?_eq_some h)
  · simpa using find?_some h

theorem foldl_addCompensation (ids comps : List String) :
    comps.foldl addCompensation ids.eraseDups = (ids ++ comps).eraseDups := by
  induction comps generalizing ids with
  | nil => simp
  | cons comp comps ih =>
    have hadd : addCompensation ids.eraseDups comp = (ids ++ [comp]).eraseDups := by
      rw [First.eraseDups_concat, addCompensation]
      simp only [mem_eraseDups]
    rw [foldl_cons, hadd, ih, append_assoc, singleton_append]

/-- The compensation ids are the first occurrences in what the passed nodes list, the last node
first. -/
theorem collectCompensationIds_eq {order : List String} {completed : Completed}
    (h : ∀ id ∈ order, (completed id).isSome) :
    collectCompensationIds nodes order completed =
      (order.reverse.flatMap (staticCompensations nodes)).eraseDups := by
  have hfold : ∀ (rest : List String), (∀ id ∈ rest, (completed id).isSome) →
      ∀ ids : List String,
      rest.foldl (fun ids id => if (completed id).isNone then ids
        else match lookupNode nodes id with
          | none => ids
          | some n => n.compensateWith.foldl addCompensation ids) ids.eraseDups =
        (ids ++ rest.flatMap (staticCompensations nodes)).eraseDups := by
    intro rest hrest
    induction rest with
    | nil => simp
    | cons id rest ih =>
      intro ids
      have hid : (completed id).isNone = false := by simpa using hrest id mem_cons_self
      have ih' := ih fun id' hid' => hrest id' (mem_cons_of_mem _ hid')
      rw [foldl_cons, flatMap_cons, ← append_assoc, ← ih', hid]
      congr 1
      cases hnode : lookupNode nodes id with
      | none => simp [staticCompensations, hnode]
      | some n => simp [staticCompensations, hnode, foldl_addCompensation]
  exact hfold order.reverse (fun id hid => h id (mem_reverse.mp hid)) []

/-- The runs the compensation makes for the ids. -/
def compensationRuns (spec : RunSpec) (tool : String → NodeTool) (ids : List String) :
    List NodeRun :=
  ids.filterMap fun id => (lookupNode spec.nodes id).map fun n => ⟨n, tool id⟩

theorem map_id_compensationRuns (tool : String → NodeTool) (ids : List String) :
    (compensationRuns spec tool ids).map (fun run => run.node.id) =
      ids.filter fun id => (lookupNode spec.nodes id).isSome := by
  induction ids with
  | nil => rfl
  | cons id ids ih =>
    unfold compensationRuns at ih ⊢
    cases hnode : lookupNode spec.nodes id with
    | none => simp [hnode, ih]
    | some n => simp [hnode, ih, (lookupNode_spec hnode).2]

theorem foldl_compensateStep (tool : String → NodeTool) (ids : List String)
    (acc : Compensations) :
    let done := ids.foldl (compensateStep spec tool) acc
    done.ran = acc.ran ++ compensationRuns spec tool ids ∧
      done.anyWorkspaceChanged =
        (acc.anyWorkspaceChanged || (compensationRuns spec tool ids).any NodeRun.keepsChange) := by
  induction ids generalizing acc with
  | nil => simp [compensationRuns]
  | cons id ids ih =>
    obtain ⟨hran, hchanged⟩ := ih (compensateStep spec tool acc id)
    simp only [foldl_cons, hran, hchanged]
    cases hnode : lookupNode spec.nodes id with
    | none => simp [compensateStep, compensationRuns, hnode]
    | some n =>
      have hresult : (NodeRun.compensationResult ⟨n, tool id⟩).workspaceChanged =
          NodeRun.keepsChange ⟨n, tool id⟩ := runNode_workspaceChanged _ _
      simp [compensateStep, compensationRuns, hnode, hresult, Bool.or_assoc]

theorem executeCompensations_spec (st : DagState) (tool : String → NodeTool) :
    (executeCompensations spec st tool).ran = compensationRuns spec tool
        (collectCompensationIds spec.nodes st.completionOrder st.completed) ∧
      (executeCompensations spec st tool).anyWorkspaceChanged =
        (executeCompensations spec st tool).ran.any NodeRun.keepsChange := by
  unfold executeCompensations
  by_cases hids : collectCompensationIds spec.nodes st.completionOrder st.completed = []
  · simp [hids, compensationRuns]
  · simp only [List.isEmpty_iff, hids, if_false]
    obtain ⟨hran, hchanged⟩ := @foldl_compensateStep spec tool
      (collectCompensationIds spec.nodes st.completionOrder st.completed)
      ⟨_, false, false, []⟩
    split <;> exact ⟨hran, by rw [hchanged, hran]; rfl⟩

end Collection

section Flag

variable {w : WorkflowRun}

theorem executeWorkflowDag_eq_some {report : WorkflowExecutionReport} {flag : Bool}
    (h : w.executeWorkflowDag = some (report, flag)) :
    flag = w.progress.workspaceChanged ∧
      report.workspaceChanged = (w.progress.workspaceChanged || w.compensation.workspaceChanged) ∧
      report.status = w.progress.reportStatus := by
  unfold WorkflowRun.executeWorkflowDag at h
  split at h
  · obtain ⟨rfl, rfl⟩ := Prod.mk.inj (Option.some.inj h)
    exact ⟨rfl, rfl, rfl⟩
  · cases h

theorem ran_progress : Ran (start w.spec.toWorkflowSpec) w.progress w.mainNodes :=
  consistent_start.ran w.ops

/-- The loop's flag is what the runs of the main nodes keep of the changes they saw. -/
theorem progress_workspaceChanged :
    w.progress.workspaceChanged = w.mainNodes.any NodeRun.keepsChange :=
  ran_progress.changed.trans (Bool.false_or _)

theorem compensation_workspaceChanged :
    w.compensation.workspaceChanged = w.compensation.ran.any NodeRun.keepsChange := by
  unfold WorkflowRun.compensation workflowCompensationAndHumanSummary
  split
  · rfl
  split
  · rfl
  · exact (executeCompensations_spec w.progress w.compensationTool).2

theorem anyReported_of_keepsChange {runs : List NodeRun} (hsub : runs ⊆ w.nodeRuns)
    (h : runs.any NodeRun.keepsChange = true) : w.anyReported = true := by
  obtain ⟨run, hrun, hkeeps⟩ := any_eq_true.mp h
  exact any_eq_true.mpr ⟨run, hsub hrun, NodeRun.reportedChange_of_keepsChange hkeeps⟩

/-- When the flag of a finished workflow tells whether an attempt changed the workspace, and agrees
with the report. -/
theorem workspace_changed_flag_complete_iff (w : WorkflowRun) (report : WorkflowExecutionReport)
    (flag : Bool) (h : w.executeWorkflowDag = some (report, flag)) :
    ((flag = true ↔ w.anyReported = true) ∧ flag = report.workspaceChanged) ↔
      w.mainNodes.any NodeRun.keepsChange = true ∨ w.anyReported = false := by
  obtain ⟨hflag, hreport, _⟩ := executeWorkflowDag_eq_some h
  rw [hflag, hreport, progress_workspaceChanged, compensation_workspaceChanged]
  have hmain := anyReported_of_keepsChange (w := w) (subset_append_left _ _)
  have hcomp := anyReported_of_keepsChange (w := w) (subset_append_right _ _)
  cases hm : w.mainNodes.any NodeRun.keepsChange with
  | true => simp [hmain hm]
  | false =>
    cases hc : w.compensation.ran.any NodeRun.keepsChange with
    | true => simp [hcomp hc]
    | false => simp

def returns (status : NodeRunStatus) (workspaceChanged : Bool) : NodeTool :=
  .calls fun _ => .ok ⟨"", status, "", workspaceChanged, none, none, 1⟩

def editNode (compensateWith : List String) : WorkflowNodeSpec :=
  ⟨"edit", "write_file", .obj [], [], false, none, compensateWith, 0, none, none⟩

/-- The edit passes, the check behind it fails, and the edit is undone. -/
def undoRun : WorkflowRun where
  serde := fileListJson
  spec := ⟨⟨4, true, [editNode ["undo"], plainNode "check" "cargo_check" ["edit"],
    plainNode "undo" "git_restore" ["check"]], []⟩, true, 1200, 800⟩
  ops := [⟨0, fun _ => returns .passed false⟩, ⟨0, fun _ => returns .failed false⟩,
    ⟨0, fun _ => returns .passed false⟩]
  compensationTool _ := returns .passed true

theorem workspace_changed_flag_complete_iff_undo :
    ∃ report flag, undoRun.executeWorkflowDag = some (report, flag) ∧
      (((flag = true ↔ undoRun.anyReported = true) ∧ flag = report.workspaceChanged) ↔
        undoRun.mainNodes.any NodeRun.keepsChange = true ∨ undoRun.anyReported = false) :=
  ⟨_, _, if_pos (by decide),
    workspace_changed_flag_complete_iff undoRun _ _ (if_pos (by decide))⟩

/-- Only the compensation changed the workspace: the report says so, the flag does not. -/
theorem compensation_change_dropped :
    ¬ ∀ (w : WorkflowRun) (report : WorkflowExecutionReport) (flag : Bool),
      w.executeWorkflowDag = some (report, flag) →
        (flag = true ↔ w.anyReported = true) ∧ flag = report.workspaceChanged := by
  intro h
  obtain ⟨report, flag, hrun⟩ : ∃ report flag,
      undoRun.executeWorkflowDag = some (report, flag) := ⟨_, _, if_pos (by decide)⟩
  have hflag : flag = false := (executeWorkflowDag_eq_some hrun).1.trans (by decide)
  have htrue := (h undoRun report flag hrun).1.mpr (by decide)
  rw [hflag] at htrue
  cases htrue

end Flag

section Completeness

variable {w : WorkflowRun}

theorem static_active : ∀ n ∈ w.spec.nodes, n ∈ w.progress.activeNodes := by
  have hall : ∀ ops : List Completion,
      ∀ n ∈ w.spec.nodes, n ∈ (Run.run (iterate w.serde w.spec.toWorkflowSpec)
        (start w.spec.toWorkflowSpec) ops).activeNodes :=
    run_invariant (fun st => ∀ n ∈ w.spec.nodes, n ∈ st.activeNodes)
      (fun st hst _ n hn => mem_append_left _ (hst n hn))
      (fun _ _ _ _ hst hact => by rwa [hact.activeNodes_eq]) (fun _ hn => hn)
  have hmap : w.progress = Run.run (iterate w.serde w.spec.toWorkflowSpec)
      (start w.spec.toWorkflowSpec) (w.ops.map MainOp.completion) := by
    rw [WorkflowRun.progress, Run.run, Run.run, foldl_map]
    rfl
  rw [hmap]
  exact hall _

/-- The compensation runs, in order, what the author's nodes list for the nodes that passed. -/
theorem ranCompensations_eq (hfailed : w.progress.firstFailure.isSome)
    (hcomp : w.spec.compensateOnFailure = true) :
    w.ranCompensations =
      (((w.passedNodes.reverse.map WorkflowNodeSpec.id).flatMap
        (staticCompensations w.spec.nodes)).eraseDups).filter
          fun id => (lookupNode w.spec.nodes id).isSome := by
  have horder : w.progress.completionOrder = w.passedNodes.map WorkflowNodeSpec.id := by
    rw [ran_progress.order, WorkflowRun.passedNodes, map_map]
    rfl
  have hknown : ∀ id ∈ w.progress.completionOrder, (w.progress.completed id).isSome := by
    rw [horder]
    intro id hid
    obtain ⟨n, hn, rfl⟩ := mem_map.mp hid
    obtain ⟨run, hrun, rfl⟩ := mem_map.mp hn
    exact ran_progress.isSome run (mem_of_mem_filter hrun)
  have hran : w.compensation.ran = compensationRuns w.spec w.compensationTool
      (collectCompensationIds w.spec.nodes w.progress.completionOrder w.progress.completed) := by
    have hsome : w.progress.firstFailure.isNone = false := by
      rw [Option.isNone_eq_false_iff]
      exact hfailed
    simp only [WorkflowRun.compensation, workflowCompensationAndHumanSummary, hsome, hcomp,
      Bool.not_true, Bool.false_eq_true, if_false]
    exact (executeCompensations_spec w.progress w.compensationTool).1
  rw [WorkflowRun.ranCompensations, hran, map_id_compensationRuns,
    collectCompensationIds_eq hknown, horder, map_reverse]

/-- A failed workflow with compensation undoes what passed, completely and in order, where the
author's nodes list what is to be undone and hold the nodes that do it; and where they list it, only
then. -/
theorem compensation_complete_of_static (w : WorkflowRun) (report : WorkflowExecutionReport)
    (flag : Bool) (h : w.executeWorkflowDag = some (report, flag))
    (hfailed : report.status = "failed") (hcomp : w.spec.compensateOnFailure = true) :
    (w.ListsCompensations ∧ w.StaticCompensations →
      CompensationComplete w.wantedCompensations w.ranCompensations) ∧
    (w.ListsCompensations → CompensationComplete w.wantedCompensations w.ranCompensations →
      w.StaticCompensations) := by
  have hfailure : w.progress.firstFailure.isSome := by
    rw [(executeWorkflowDag_eq_some h).2.2, DagState.reportStatus] at hfailed
    by_contra hnone
    simp [hnone] at hfailed
  have hactive : ∀ id, (lookupNode w.spec.nodes id).isSome →
      w.progress.activeNodes.any (fun n => n.id == id) = true := by
    intro id hid
    obtain ⟨n, hn⟩ := Option.isSome_iff_exists.mp hid
    obtain ⟨hmem, rfl⟩ := lookupNode_spec hn
    exact any_eq_true.mpr ⟨n, static_active n hmem, by simp⟩
  -- Under the first condition the compensation is the wanted list, without what is not static.
  have hran : w.ListsCompensations → w.ranCompensations =
      w.wantedCompensations.eraseDups.filter fun id => (lookupNode w.spec.nodes id).isSome := by
    intro hlists
    have hlisted : (w.passedNodes.reverse.map WorkflowNodeSpec.id).flatMap
        (staticCompensations w.spec.nodes) =
          w.passedNodes.reverse.flatMap WorkflowNodeSpec.compensateWith := by
      rw [flatMap_map]
      exact flatMap_congr fun n hn => hlists n (mem_reverse.mp hn)
    rw [ranCompensations_eq hfailure hcomp, hlisted, WorkflowRun.wantedCompensations,
      ← First.filter_eraseDups, filter_filter]
    refine filter_congr fun id _ => ?_
    cases hnode : (lookupNode w.spec.nodes id).isSome with
    | false => rfl
    | true => rw [hactive id hnode, Bool.true_and]
  constructor
  · rintro ⟨hlists, hstatic⟩
    have hall : w.ranCompensations = w.wantedCompensations.eraseDups := by
      rw [hran hlists]
      exact filter_eq_self.mpr fun id hid => hstatic id (mem_eraseDups.mp hid)
    rw [hall]
    constructor
    · exact First.nodup_eraseDups _
    · exact fun id => mem_eraseDups
    · exact First.pairwise_idxOf_eraseDups _
  · intro hlists hcomplete id hid
    have hmem := (hcomplete.all id).mpr hid
    rw [hran hlists] at hmem
    exact (mem_filter.mp hmem).2

theorem compensation_complete_of_static_undo :
    CompensationComplete undoRun.wantedCompensations undoRun.ranCompensations :=
  (compensation_complete_of_static undoRun _ _ (if_pos (by decide)) (by decide) rfl).1
    ⟨by unfold WorkflowRun.ListsCompensations; decide,
      by unfold WorkflowRun.StaticCompensations; decide⟩

/-- What undoes the edit is the node a loop makes for its one item. -/
def loopUndoRun : WorkflowRun where
  serde := fileListJson
  spec := ⟨⟨4, false, [editNode ["each_0"], plainNode "check" "cargo_check" []],
    [{ scanLoop with source := "edit", extraDeps := ["edit"] }]⟩, true, 1200, 800⟩
  ops := [⟨0, fun _ => .calls fun _ => .ok ⟨"", .passed, "[\"a.rs\"]", true, none, none, 1⟩⟩,
    ⟨0, fun _ => returns .failed false⟩, ⟨0, fun _ => returns .passed false⟩,
    ⟨0, fun _ => returns .passed false⟩]
  compensationTool _ := returns .passed true

/-- The node is active and passed, and the compensation does not find it. -/
theorem loop_compensation_not_found :
    ¬ ∀ (w : WorkflowRun) (report : WorkflowExecutionReport) (flag : Bool),
      w.executeWorkflowDag = some (report, flag) → report.status = "failed" →
        w.spec.compensateOnFailure = true →
          CompensationComplete w.wantedCompensations w.ranCompensations := by
  intro h
  have hcomplete := h loopUndoRun _ _ (if_pos (by decide)) (by decide) rfl
  exact absurd ((hcomplete.all "each_0").mpr (by decide)) (by decide)

end Completeness
end CrabMate.Workflow
