import CrabMate.Workflow.Safety

/-! When a workflow that is reported passed has done all its work. The report looks at the first
failure only; results that are recorded elsewhere and loops that are dropped do not reach it. -/
namespace CrabMate.Workflow
open Option

section Truth

variable (serde : Serde) (spec : WorkflowSpec)

/-- The loop's source was skipped, or all its items became active nodes. -/
def LoopDone (st : DagState) (p : ForEachPendingSpec) : Prop :=
  ∃ r, st.completed p.source = some r ∧ (r.status = .skipped ∨
    ∃ items, resolveForEachItems serde p r = some items ∧
      ∀ n ∈ buildForEachNodes p items, n ∈ st.activeNodes)

/-- Nothing failed, and no loop was dropped. -/
def AllDone (st : DagState) : Prop :=
  (∀ id r, st.completed id = some r → r.status ≠ .failed) ∧
    ∀ p ∈ spec.forEachPending, LoopDone serde st p

/-- The items of every loop that is due can be read. -/
def itemsReadable (st : DagState) : Bool :=
  st.forEachPending.all fun p =>
    match st.completed p.source with
    | none => true
    | some r => r.status = .skipped || (resolveForEachItems serde p r).isSome

/-- The iteration drops no loop and does not give up. -/
def Keeps (st : DagState) (_ : Completion) : Prop :=
  itemsReadable serde st = true ∧ ¬ Livelocks serde spec st

instance (st : DagState) (c : Completion) : Decidable (Keeps serde spec st c) :=
  inferInstanceAs (Decidable (_ ∧ _))

end Truth

section Invariant

variable {serde : Serde} {spec : WorkflowSpec} {lk : Prop} {c : Completion}
  {st st' : DagState}

/-- What a run without dropped loops maintains. -/
structure Reported (serde : Serde) (spec : WorkflowSpec) (st : DagState) : Prop where
  consistent : Consistent serde st
  failure : st.firstFailure = none → ∀ id r, st.completed id = some r → r.status ≠ .failed
  loops : ∀ p ∈ spec.forEachPending, p ∈ st.forEachPending ∨ LoopDone serde st p
  closed : st.ended = true → st.forEachPending = [] ∨ halted spec st = true

theorem reported_start : Reported serde spec (start spec) where
  consistent := consistent_start
  failure _ _ _ h := by cases h
  loops _ hp := .inl hp
  closed h := by cases h

theorem mem_expandOne {p : ForEachPendingSpec} {r : NodeRunResult} {items : List String}
    (hrun : r.status ≠ .skipped) (hitems : resolveForEachItems serde p r = some items) :
    expandOne serde p r = buildForEachNodes p items := by
  unfold expandOne
  rw [hitems]
  cases hstatus : r.status with
  | skipped => exact absurd hstatus hrun
  | passed => rfl
  | failed => rfl

theorem LoopDone.mono {p : ForEachPendingSpec} (h : LoopDone serde st p)
    (hext : st.completed.Extends st'.completed) (hactive : st.activeNodes ⊆ st'.activeNodes) :
    LoopDone serde st' p := by
  obtain ⟨r, hr, hdone⟩ := h
  refine ⟨r, hext _ _ hr, ?_⟩
  rcases hdone with hskip | ⟨items, hitems, hnodes⟩
  · exact .inl hskip
  · exact .inr ⟨items, hitems, fun n hn => hactive (hnodes n hn)⟩

/-- A readable loop whose source has a result is expanded in full. -/
theorem loopDone_expand (hread : itemsReadable serde st = true) {p : ForEachPendingSpec}
    (hp : p ∈ st.forEachPending) {r : NodeRunResult} (hr : st.completed p.source = some r) :
    LoopDone serde (expand serde st) p := by
  refine ⟨r, hr, ?_⟩
  have hdue := List.all_eq_true.mp hread p hp
  simp only [hr, Bool.or_eq_true, decide_eq_true_eq] at hdue
  by_cases hskip : r.status = .skipped
  · exact .inl hskip
  obtain ⟨items, hitems⟩ := isSome_iff_exists.mp (hdue.resolve_left hskip)
  refine .inr ⟨items, hitems, fun n hn => List.mem_append_right _ ?_⟩
  refine List.mem_flatMap.mpr ⟨p, hp, ?_⟩
  simpa [hr, mem_expandOne hskip hitems] using hn

theorem Reported.expand (h : Reported serde spec st) (hread : itemsReadable serde st = true)
    (hrun : st.ended = false) : Reported serde spec (expand serde st) where
  consistent := h.consistent.expand
  failure := h.failure
  loops := by
    intro p hp
    rcases h.loops p hp with hp | hdone
    · cases hr : st.completed p.source with
      | none =>
        left
        exact List.mem_filter.mpr ⟨hp, by simp [hr]⟩
      | some r => exact .inr (loopDone_expand hread hp hr)
    · have hsub : st.activeNodes ⊆ (Workflow.expand serde st).activeNodes :=
        List.subset_append_left _ _
      have hext : st.completed.Extends (Workflow.expand serde st).completed :=
        Completed.Extends.rfl
      exact .inr (hdone.mono hext hsub)
  closed hend := by
    rw [show (Workflow.expand serde st).ended = st.ended from rfl, hrun] at hend
    cases hend

/-- A change that does not give up records a failed result only together with the first failure. -/
theorem acts_failure (hno : ¬ lk) (hact : Acts serde spec lk c st st')
    (h : st.firstFailure = none → ∀ id r, st.completed id = some r → r.status ≠ .failed)
    (hnone : st'.firstFailure = none) (id : String) (r : NodeRunResult)
    (hr : st'.completed id = some r) : r.status ≠ .failed := by
  have hmark : ∀ m : NodeRunResult, m.status = .skipped → st.firstFailure = none →
      (st.mark m).completed id = some r → r.status ≠ .failed := by
    intro m hm hnone hr
    by_cases hid : id = m.id
    · have heq : m = r := by simpa [DagState.mark, hid] using hr
      simp [← heq, hm]
    · exact h hnone id r (by simpa [DagState.mark, hid] using hr)
  cases hact with
  | skip _ _ _ => exact hmark _ rfl hnone hr
  | launch _ _ _ => exact h hnone id r hr
  | complete hfly =>
    obtain ⟨k, hk, heq⟩ := awaitNext_eq c hfly
    rw [heq] at hr hnone
    have hff := congrArg Option.isSome hnone
    simp only [recordNodeCompletion_firstFailure, isSome_none, Bool.or_eq_false_iff,
      isSome_eq_false_iff, isNone_iff_eq_none, decide_eq_false_iff_not] at hff
    rw [recordNodeCompletion_completed] at hr
    by_cases hid : id = (c.result st.inflight[k]).id
    · have hres : c.result st.inflight[k] = r := by simpa [hid] using hr
      exact hres ▸ hff.2
    · exact h hff.1 id r (by simpa [hid] using hr)
  | abortMark _ _ _ _ => exact hmark _ rfl hnone hr
  | livelockMark _ hlk _ _ _ => exact absurd hlk hno
  | stall => exact h hnone id r hr
  | finish _ _ _ => exact h hnone id r hr

theorem Reported.acts (hno : ¬ lk) (h : Reported serde spec st)
    (hact : Acts serde spec lk c st st') : Reported serde spec st' where
  consistent := h.consistent.acts hact
  failure := acts_failure hno hact h.failure
  loops p hp := by
    rw [hact.forEachPending_eq]
    refine (h.loops p hp).imp_right fun hdone => ?_
    exact hdone.mono (h.consistent.acts_extends hact) fun n hn => by
      rwa [hact.activeNodes_eq]
  closed := by
    have hkeep : st'.ended = st.ended → st'.ended = true →
        st'.forEachPending = [] ∨ halted spec st' = true := by
      intro heq hend
      rw [hact.forEachPending_eq]
      exact (h.closed (heq ▸ hend)).imp_right fun hhalt => (hact.launched_of_halted hhalt).2
    cases hact with
    | complete hfly =>
      obtain ⟨k, hk, heq⟩ := awaitNext_eq c hfly
      exact hkeep (by rw [heq, recordNodeCompletion_ended])
    | finish _ _ hpending =>
      intro _
      rcases hpending with hpending | hhalt | hlk
      · exact .inl hpending
      · exact .inr hhalt
      · exact absurd hlk hno
    | _ => exact hkeep rfl

theorem reported_run {ops : List Completion}
    (hops : Run.AllOk (iterate serde spec) (Keeps serde spec) (start spec) ops) :
    Reported serde spec (Run.run (iterate serde spec) (start spec) ops) := by
  refine Run.invariant (fun st c h hok => ?_) reported_start hops
  exact iterate_rule (Reported serde spec) h (h.expand hok.1) fun _ _ hs hact =>
    hs.acts hok.2 hact

end Invariant

/-- A run that drops no loop and does not give up is reported passed only when all work is done. -/
theorem passed_report_truthful (serde : Serde) (spec : WorkflowSpec) (ops : List Completion)
    (hops : Run.AllOk (iterate serde spec) (Keeps serde spec) (start spec) ops)
    (hend : (Run.run (iterate serde spec) (start spec) ops).ended = true)
    (hpassed : (Run.run (iterate serde spec) (start spec) ops).reportStatus = "passed") :
    AllDone serde spec (Run.run (iterate serde spec) (start spec) ops) := by
  have h := reported_run hops
  have hnone : (Run.run (iterate serde spec) (start spec) ops).firstFailure = none := by
    by_contra hsome
    rw [DagState.reportStatus, if_pos (by simpa [isSome_iff_ne_none] using hsome)] at hpassed
    exact absurd hpassed (by decide)
  refine ⟨h.failure hnone, fun p hp => (h.loops p hp).resolve_left fun hpending => ?_⟩
  rcases h.closed hend with hnil | hhalt
  · simp [hnil] at hpending
  · simp [halted, hnone] at hhalt

section Runs

def plainNode (id toolName : String) (deps : List String) : WorkflowNodeSpec :=
  ⟨id, toolName, .obj [], deps, false, none, [], 0, none, none⟩

/-- One read for each file the scan lists. -/
def scanLoop : ForEachPendingSpec :=
  ⟨"each", "scan", some "$", none, "item", 32, false, "read_file",
    .obj [("path", .str "\x7b\x7bitem\x7d\x7d")], false, none, [], 0, none, ["scan"]⟩

def scanFlow : WorkflowSpec := ⟨4, true, [plainNode "scan" "list_files" []], [scanLoop]⟩

/-- Every node passes with the same output, the oldest running one first. -/
def passing (output : String) : Completion :=
  ⟨0, fun l => ⟨l.node.id, .passed, output, false, some 0, none, 1⟩⟩

/-- The reader on the two texts the scan prints. -/
def fileListJson : Serde where
  fromStr text := if text = "[\"a.rs\"]" then some (.arr [.str "a.rs"]) else none
  toStr _ := ""

/-- The scan lists one file: the loop is expanded and its node runs before the report. -/
theorem passed_report_truthful_scan :
    AllDone fileListJson scanFlow
      (Run.run (iterate fileListJson scanFlow) (start scanFlow)
        [passing "[\"a.rs\"]", passing "[\"a.rs\"]", passing "[\"a.rs\"]"]) :=
  passed_report_truthful _ _ _ (by decide) (by decide) (by decide)

/-- The scan passes with a text that is no JSON: the loop is dropped and the run reported passed. -/
theorem passed_report_drops_loop :
    validateDag scanFlow.nodes = .ok () ∧
    (Run.run (iterate fileListJson scanFlow) (start scanFlow)
      [passing "no files", passing "no files"]).ended = true ∧
    (Run.run (iterate fileListJson scanFlow) (start scanFlow)
      [passing "no files", passing "no files"]).reportStatus = "passed" ∧
    ¬ AllDone fileListJson scanFlow (Run.run (iterate fileListJson scanFlow) (start scanFlow)
      [passing "no files", passing "no files"]) := by
  refine ⟨by decide, by decide, by decide, fun h => ?_⟩
  obtain ⟨r, hr, hdone⟩ := h.2 scanLoop List.mem_cons_self
  obtain rfl : (⟨"scan", .passed, "no files", false, some 0, none, 1⟩ : NodeRunResult) = r :=
    Option.some.inj hr
  rcases hdone with hskip | ⟨items, hitems, -⟩
  · cases hskip
  · have hnone : resolveForEachItems fileListJson scanLoop
        ⟨"scan", .passed, "no files", false, some 0, none, 1⟩ = none := by decide
    rw [hnone] at hitems
    cases hitems

end Runs

end CrabMate.Workflow
