import CrabMate.Workflow.Safety
import Mathlib.Data.List.Nodup

/-! When the results of a workflow do not depend on the order in which its nodes finish. A
condition is read at the moment its node becomes ready, so its source must have finished by then in
every order. -/
namespace CrabMate.Workflow
open List Function

section Order

variable (serde : Serde) (spec : WorkflowSpec) (outcome : String → NodeRunResult)

/-- What the node of an id returns whenever it is run. -/
def resultOf (id : String) : NodeRunResult := { outcome id with id := id }

/-- An iteration in which the picked node finishes, with the result its id determines. -/
def iterateBy (st : DagState) (pick : ℕ) : DagState :=
  iterate serde spec st ⟨pick, fun l => outcome l.node.id⟩

/-- Every node the workflow can come to have. -/
def workNodes : List WorkflowNodeSpec :=
  spec.nodes ++ spec.forEachPending.flatMap fun p => expandOne serde p (resultOf outcome p.source)

/-- `source` is a dependency of the node, directly or through other nodes. -/
inductive Precedes (nodes : List WorkflowNodeSpec) (source : String) : WorkflowNodeSpec → Prop
  | dep {n : WorkflowNodeSpec} (h : source ∈ n.deps) : Precedes nodes source n
  | through {n m : WorkflowNodeSpec} (hm : m ∈ nodes) (hdep : m.id ∈ n.deps)
      (h : Precedes nodes source m) : Precedes nodes source n

/-- No two nodes share an id, and a condition is about a node that comes first or about none. -/
structure Ordered : Prop where
  distinct : ((workNodes serde spec outcome).map WorkflowNodeSpec.id).Nodup
  guarded : ∀ n ∈ spec.nodes, ∀ g, n.runIf = some g →
    Precedes spec.nodes g.source n ∨
      g.source ∉ (workNodes serde spec outcome).map WorkflowNodeSpec.id

/-- The result of a node whose dependencies have the results `completed`. -/
def verdict (completed : Completed) (n : WorkflowNodeSpec) : NodeRunResult :=
  if nodeRunIfSatisfied serde n.runIf completed then resultOf outcome n.id else runIfSkipped n

end Order

section Determined

/-- Every result is the verdict on its node, and every node stems from the workflow. -/
structure Determined (serde : Serde) (spec : WorkflowSpec) (outcome : String → NodeRunResult)
    (st : DagState) : Prop where
  consistent : Consistent serde st
  active : ∀ n ∈ st.activeNodes, n ∈ workNodes serde spec outcome
  static : ∀ n ∈ spec.nodes, n ∈ st.activeNodes
  decided : ∀ id r, st.completed id = some r →
    ∃ n ∈ st.activeNodes, n.id = id ∧ nodeDepsResolved n.deps st.completed = true ∧
      r = verdict serde outcome st.completed n
  pending : ∀ p ∈ st.forEachPending, p ∈ spec.forEachPending
  loops : ∀ p ∈ spec.forEachPending, p ∈ st.forEachPending ∨
    ∃ r, st.completed p.source = some r ∧ ∀ n ∈ expandOne serde p r, n ∈ st.activeNodes
  closed : st.ended = true → st.forEachPending = []

variable {serde : Serde} {spec : WorkflowSpec} {outcome : String → NodeRunResult} {lk : Prop}
  {c : Completion} {st st' : DagState}

theorem determined_start : Determined serde spec outcome (start spec) where
  consistent := consistent_start
  active _ hn := mem_append_left _ hn
  static _ hn := hn
  decided _ _ h := by cases h
  pending _ hp := hp
  loops _ hp := .inl hp
  closed h := by cases h

theorem runIf_expandOne {p : ForEachPendingSpec} {r : NodeRunResult} {n : WorkflowNodeSpec}
    (hn : n ∈ expandOne serde p r) : n.runIf = none := by
  have hbuild : ∀ items, n ∈ buildForEachNodes p items → n.runIf = none := by
    intro items hmem
    obtain ⟨i, hi, rfl⟩ := mem_mapIdx.mp hmem
    rfl
  unfold expandOne at hn
  split at hn
  · cases hn
  · cases hn
  · exact hbuild _ hn

theorem Ordered.eq_of_id (ho : Ordered serde spec outcome) {n m : WorkflowNodeSpec}
    (hn : n ∈ workNodes serde spec outcome) (hm : m ∈ workNodes serde spec outcome)
    (hid : n.id = m.id) : n = m :=
  inj_on_of_nodup_map ho.distinct hn hm hid

theorem Determined.precedes_done (h : Determined serde spec outcome st)
    (ho : Ordered serde spec outcome) {source : String} {n : WorkflowNodeSpec}
    (hpre : Precedes spec.nodes source n)
    (hdeps : nodeDepsResolved n.deps st.completed = true) : (st.completed source).isSome := by
  induction hpre with
  | dep hmem => exact all_eq_true.mp hdeps _ hmem
  | @through n m hm hdep _ ih =>
    have hdone : (st.completed m.id).isSome := all_eq_true.mp hdeps _ hdep
    obtain ⟨r, hr⟩ := Option.isSome_iff_exists.mp hdone
    obtain ⟨m', hm', hid, hdeps', -⟩ := h.decided _ _ hr
    obtain rfl : m' = m := ho.eq_of_id (h.active _ hm') (mem_append_left _ hm) hid
    exact ih hdeps'

theorem Determined.none_of_foreign (h : Determined serde spec outcome st) {id : String}
    (hid : id ∉ (workNodes serde spec outcome).map WorkflowNodeSpec.id) :
    st.completed id = none := by
  by_contra hsome
  obtain ⟨r, hr⟩ := Option.ne_none_iff_exists'.mp hsome
  obtain ⟨n, hn, rfl, -⟩ := h.decided _ _ hr
  exact hid (mem_map_of_mem (h.active n hn))

/-- The condition of a ready node reads the same in all later results of the workflow. -/
theorem Determined.runIf_eq (h : Determined serde spec outcome st)
    (ho : Ordered serde spec outcome) {n : WorkflowNodeSpec} (hn : n ∈ st.activeNodes)
    (hdeps : nodeDepsResolved n.deps st.completed = true) {later : Completed}
    (hext : st.completed.Extends later)
    (hforeign : ∀ id, id ∉ (workNodes serde spec outcome).map WorkflowNodeSpec.id →
      later id = none) :
    nodeRunIfSatisfied serde n.runIf later = nodeRunIfSatisfied serde n.runIf st.completed := by
  cases hif : n.runIf with
  | none => rfl
  | some g =>
    have hstatic : n ∈ spec.nodes := by
      rcases mem_append.mp (h.active n hn) with hstatic | hloop
      · exact hstatic
      · obtain ⟨p, -, hmem⟩ := mem_flatMap.mp hloop
        rw [runIf_expandOne hmem] at hif
        cases hif
    have hsame : later g.source = st.completed g.source := by
      rcases ho.guarded n hstatic g hif with hpre | hforeign'
      · obtain ⟨r, hr⟩ := Option.isSome_iff_exists.mp (h.precedes_done ho hpre hdeps)
        rw [hr, hext _ _ hr]
      · rw [hforeign _ hforeign', h.none_of_foreign hforeign']
    simp only [nodeRunIfSatisfied, hsame]

/-- Recording the verdict on a ready node keeps every result a verdict. -/
theorem Determined.decided_record (h : Determined serde spec outcome st)
    (ho : Ordered serde spec outcome) {n : WorkflowNodeSpec} (hn : n ∈ st.activeNodes)
    (hundone : st.completed n.id = none)
    (hdeps : nodeDepsResolved n.deps st.completed = true) {later : Completed}
    (hlater : later =
      Function.update st.completed n.id (some (verdict serde outcome st.completed n)))
    (id : String) (r : NodeRunResult) (hr : later id = some r) :
    ∃ m ∈ st.activeNodes, m.id = id ∧ nodeDepsResolved m.deps later = true ∧
      r = verdict serde outcome later m := by
  have hext : st.completed.Extends later := hlater ▸ extends_update hundone _
  have hforeign : ∀ id, id ∉ (workNodes serde spec outcome).map WorkflowNodeSpec.id →
      later id = none := by
    intro id hid
    have hne : id ≠ n.id := fun heq => hid (heq ▸ mem_map_of_mem (h.active n hn))
    rw [hlater, update_of_ne hne, h.none_of_foreign hid]
  have hverdict : ∀ m ∈ st.activeNodes, nodeDepsResolved m.deps st.completed = true →
      verdict serde outcome st.completed m = verdict serde outcome later m := by
    intro m hm hdeps'
    rw [verdict, verdict, h.runIf_eq ho hm hdeps' hext hforeign]
  by_cases hid : id = n.id
  · rw [hlater, hid, update_self] at hr
    exact ⟨n, hn, hid.symm, nodeDepsResolved_mono hext hdeps,
      (Option.some.inj hr).symm.trans (hverdict n hn hdeps)⟩
  · rw [hlater, update_of_ne hid] at hr
    obtain ⟨m, hm, hmid, hdeps', rfl⟩ := h.decided id r hr
    exact ⟨m, hm, hmid, nodeDepsResolved_mono hext hdeps', hverdict m hm hdeps'⟩

theorem Determined.expand (h : Determined serde spec outcome st) (hrun : st.ended = false) :
    Determined serde spec outcome (expand serde st) where
  consistent := h.consistent.expand
  active n hn := by
    rcases mem_append.mp hn with hn | hn
    · exact h.active n hn
    obtain ⟨p, hp, hmem⟩ := mem_flatMap.mp hn
    cases hr : st.completed p.source with
    | none => simp [hr] at hmem
    | some r =>
      have hmem : n ∈ expandOne serde p r := by simpa [hr] using hmem
      obtain ⟨m, -, hid, -, hverdict⟩ := h.decided _ _ hr
      unfold verdict at hverdict
      split at hverdict
      · rw [hverdict, hid] at hmem
        exact mem_append_right _ (mem_flatMap.mpr ⟨p, h.pending p hp, hmem⟩)
      · rw [hverdict] at hmem
        cases hmem
  static n hn := mem_append_left _ (h.static n hn)
  decided id r hr := by
    obtain ⟨n, hn, hrest⟩ := h.decided id r hr
    exact ⟨n, mem_append_left _ hn, hrest⟩
  pending p hp := h.pending p (mem_of_mem_filter hp)
  loops p hp := by
    rcases h.loops p hp with hp' | ⟨r, hr, hnodes⟩
    · cases hr : st.completed p.source with
      | none => exact .inl (mem_filter.mpr ⟨hp', by simp [hr]⟩)
      | some r =>
        refine .inr ⟨r, hr, fun n hn => mem_append_right _ ?_⟩
        exact mem_flatMap.mpr ⟨p, hp', by simpa [hr] using hn⟩
    · exact .inr ⟨r, hr, fun n hn => mem_append_left _ (hnodes n hn)⟩
  closed hend := by
    rw [show (Workflow.expand serde st).ended = st.ended from rfl, hrun] at hend
    cases hend

/-- The verdict on a running node is what its run returns: its condition held when it started. -/
theorem Determined.verdict_inflight (h : Determined serde spec outcome st) {l : Launch}
    (hl : l ∈ st.inflight) : verdict serde outcome st.completed l.node =
      resultOf outcome l.node.id := by
  have hl' := h.consistent.inflight_launched l hl
  have hif := nodeRunIfSatisfied_mono (h.consistent.launched_known l hl')
    (h.consistent.launched_runIf l hl')
  rw [verdict, if_pos hif]

theorem Determined.acts (h : Determined serde spec outcome st) (ho : Ordered serde spec outcome)
    (hff : spec.failFast = false) (hno : ¬ lk)
    (hc : ∀ l, c.result l = resultOf outcome l.node.id) (hact : Acts serde spec lk c st st') :
    Determined serde spec outcome st' := by
  have hrest : (∀ id r, st'.completed id = some r →
      ∃ n ∈ st'.activeNodes, n.id = id ∧ nodeDepsResolved n.deps st'.completed = true ∧
        r = verdict serde outcome st'.completed n) →
      (st'.ended = true → st'.forEachPending = []) → Determined serde spec outcome st' := by
    intro hdecided hclosed
    have hext := h.consistent.acts_extends hact
    refine ⟨h.consistent.acts hact, ?_, ?_, hdecided, ?_, ?_, hclosed⟩
    · rw [hact.activeNodes_eq]
      exact h.active
    · rw [hact.activeNodes_eq]
      exact h.static
    · rw [hact.forEachPending_eq]
      exact h.pending
    · rw [hact.forEachPending_eq, hact.activeNodes_eq]
      intro p hp
      refine (h.loops p hp).imp_right ?_
      rintro ⟨r, hr, hnodes⟩
      exact ⟨r, hext _ _ hr, hnodes⟩
  have hrun : halted spec st = false := by simp [halted, hff]
  cases hact with
  | @skip n _ hn hif =>
    have hverdict : runIfSkipped n = verdict serde outcome st.completed n := by
      simp [verdict, hif]
    refine hrest (h.decided_record ho hn.active hn.undone hn.deps ?_) h.closed
    rw [← hverdict]
    rfl
  | launch _ _ _ => exact hrest h.decided h.closed
  | complete hfly =>
    obtain ⟨k, hk, heq⟩ := awaitNext_eq c hfly
    have hl : st.inflight[k] ∈ st.inflight := getElem_mem hk
    have hl' := h.consistent.inflight_launched _ hl
    have hdeps := nodeDepsResolved_mono (h.consistent.launched_known _ hl')
      (h.consistent.launched_deps _ hl')
    refine hrest ?_ (by simpa [heq] using h.closed)
    rw [show (awaitNext st c).activeNodes = st.activeNodes by simp [heq]]
    refine h.decided_record ho (h.consistent.launched_active _ hl')
      (h.consistent.inflight_open _ hl) hdeps ?_
    rw [heq, recordNodeCompletion_completed, hc, h.verdict_inflight hl]
    rfl
  | abortMark _ hhalt _ _ => rw [hrun] at hhalt; cases hhalt
  | livelockMark _ hlk _ _ _ => exact absurd hlk hno
  | stall => exact hrest h.decided h.closed
  | finish _ _ hpending =>
    refine hrest h.decided fun _ => ?_
    rcases hpending with hpending | hhalt | hlk
    · exact hpending
    · rw [hrun] at hhalt
      cases hhalt
    · exact absurd hlk hno

theorem determined_run (ho : Ordered serde spec outcome) (hff : spec.failFast = false)
    {picks : List ℕ}
    (hok : Run.AllOk (iterateBy serde spec outcome) (fun st _ => ¬ Livelocks serde spec st)
      (start spec) picks) :
    Determined serde spec outcome (Run.run (iterateBy serde spec outcome) (start spec) picks) := by
  refine Run.invariant (fun st k h hlk => ?_) determined_start hok
  exact iterate_rule (Determined serde spec outcome) h h.expand fun _ _ hs hact =>
    hs.acts ho hff hlk (fun _ => rfl) hact

end Determined

section Agreement

variable {serde : Serde} {spec : WorkflowSpec} {outcome : String → NodeRunResult} {lk : Prop}
  {c : Completion} {last st st' : DagState}

/-- The last state of a run that did not give up. -/
structure Final (serde : Serde) (spec : WorkflowSpec) (outcome : String → NodeRunResult)
    (last : DagState) : Prop extends Determined serde spec outcome last where
  done : ∀ n ∈ last.activeNodes, (last.completed n.id).isSome
  expanded : last.forEachPending = []

/-- What a state of one run shares with the last state of another. -/
structure LeadsTo (serde : Serde) (spec : WorkflowSpec) (outcome : String → NodeRunResult)
    (last st : DagState) : Prop extends Determined serde spec outcome st where
  results : st.completed.Extends last.completed
  shared : ∀ n ∈ st.activeNodes, n ∈ last.activeNodes
  running : ∀ l ∈ st.inflight, last.completed l.node.id = some (resultOf outcome l.node.id)

/-- A node that is ready in one run has its verdict in the last state of the other. -/
theorem LeadsTo.verdict_eq (h : LeadsTo serde spec outcome last st)
    (ho : Ordered serde spec outcome) (hlast : Final serde spec outcome last)
    {n : WorkflowNodeSpec} (hn : n ∈ st.activeNodes)
    (hdeps : nodeDepsResolved n.deps st.completed = true) :
    last.completed n.id = some (verdict serde outcome st.completed n) := by
  obtain ⟨r, hr⟩ := Option.isSome_iff_exists.mp (hlast.done n (h.shared n hn))
  obtain ⟨m, hm, hid, -, rfl⟩ := hlast.decided _ _ hr
  obtain rfl : m = n := ho.eq_of_id (hlast.toDetermined.active m hm) (h.active n hn) hid
  have hif := h.runIf_eq ho hn hdeps h.results fun _ hid => hlast.none_of_foreign hid
  rw [hr, verdict, verdict, hif]

theorem LeadsTo.expand (h : LeadsTo serde spec outcome last st)
    (hlast : Final serde spec outcome last) (hrun : st.ended = false) :
    LeadsTo serde spec outcome last (expand serde st) where
  toDetermined := h.toDetermined.expand hrun
  results := h.results
  shared n hn := by
    rcases mem_append.mp hn with hn | hn
    · exact h.shared n hn
    obtain ⟨p, hp, hmem⟩ := mem_flatMap.mp hn
    cases hr : st.completed p.source with
    | none => simp [hr] at hmem
    | some r =>
      rcases hlast.loops p (h.pending p hp) with hp' | ⟨r', hr', hnodes⟩
      · simp [hlast.expanded] at hp'
      · rw [h.results _ _ hr] at hr'
        cases hr'
        exact hnodes n (by simpa [hr] using hmem)
  running := h.running

theorem extends_update_of_eq {c later : Completed} (h : c.Extends later) {id : String}
    {r : NodeRunResult} (hr : later id = some r) :
    Completed.Extends (Function.update c id (some r)) later := by
  intro id' r' hr'
  by_cases hid : id' = id
  · rw [hid, update_self] at hr'
    rw [hid, hr, hr']
  · rw [update_of_ne hid] at hr'
    exact h id' r' hr'

theorem LeadsTo.acts (h : LeadsTo serde spec outcome last st) (ho : Ordered serde spec outcome)
    (hff : spec.failFast = false) (hno : ¬ lk)
    (hc : ∀ l, c.result l = resultOf outcome l.node.id) (hlast : Final serde spec outcome last)
    (hact : Acts serde spec lk c st st') : LeadsTo serde spec outcome last st' := by
  have hrun : halted spec st = false := by simp [halted, hff]
  have hdet := h.toDetermined.acts ho hff hno hc hact
  cases hact with
  | @skip n _ hn hif =>
    have hskip := h.verdict_eq ho hlast hn.active hn.deps
    rw [verdict, if_neg (by simp [hif])] at hskip
    exact ⟨hdet, extends_update_of_eq h.results hskip, h.shared, h.running⟩
  | @launch n _ hn hif =>
    have hresult := h.verdict_eq ho hlast hn.active hn.deps
    rw [verdict, if_pos hif] at hresult
    refine ⟨hdet, h.results, h.shared, fun l hl => ?_⟩
    rcases mem_append.mp hl with hl | hl
    · exact h.running l hl
    · rw [mem_singleton.mp hl]
      exact hresult
  | complete hfly =>
    obtain ⟨k, hk, heq⟩ := awaitNext_eq c hfly
    have hresult := h.running _ (getElem_mem hk)
    rw [heq] at hdet ⊢
    refine ⟨hdet, ?_, by simpa using h.shared, fun l hl => ?_⟩
    · rw [recordNodeCompletion_completed, hc]
      exact extends_update_of_eq h.results hresult
    · rw [recordNodeCompletion_inflight] at hl
      exact h.running l (mem_of_mem_eraseIdx hl)
  | abortMark _ hhalt _ _ => rw [hrun] at hhalt; cases hhalt
  | livelockMark _ hlk _ _ _ => exact absurd hlk hno
  | stall => exact ⟨hdet, h.results, h.shared, h.running⟩
  | finish _ _ _ => exact ⟨hdet, h.results, h.shared, h.running⟩

theorem leadsTo_run (ho : Ordered serde spec outcome) (hff : spec.failFast = false)
    (hlast : Final serde spec outcome last) {picks : List ℕ}
    (hok : Run.AllOk (iterateBy serde spec outcome) (fun st _ => ¬ Livelocks serde spec st)
      (start spec) picks) :
    LeadsTo serde spec outcome last
      (Run.run (iterateBy serde spec outcome) (start spec) picks) := by
  have hstart : LeadsTo serde spec outcome last (start spec) :=
    ⟨determined_start, fun _ _ h => (by cases h), hlast.static, by simp [start]⟩
  refine Run.invariant (fun st k h hlk => ?_) hstart hok
  exact iterate_rule (LeadsTo serde spec outcome last) h (h.expand hlast) fun _ _ hs hact =>
    hs.acts ho hff hlk (fun _ => rfl) hlast hact

theorem endsDone_runBy (picks : List ℕ) :
    EndsDone (Run.run (iterateBy serde spec outcome) (start spec) picks) := by
  have hmap : Run.run (iterateBy serde spec outcome) (start spec) picks =
      Run.run (iterate serde spec) (start spec)
        (picks.map fun k => ⟨k, fun l => outcome l.node.id⟩) := by
    simp only [Run.run, foldl_map]
    rfl
  rw [hmap]
  exact endsDone_run _

theorem final_run (ho : Ordered serde spec outcome) (hff : spec.failFast = false)
    {picks : List ℕ}
    (hok : Run.AllOk (iterateBy serde spec outcome) (fun st _ => ¬ Livelocks serde spec st)
      (start spec) picks)
    (hend : (Run.run (iterateBy serde spec outcome) (start spec) picks).ended = true) :
    Final serde spec outcome (Run.run (iterateBy serde spec outcome) (start spec) picks) where
  toDetermined := determined_run ho hff hok
  done := endsDone_runBy picks hend
  expanded := (determined_run ho hff hok).closed hend

end Agreement

/-- Two runs of a workflow whose conditions are ordered end with the same nodes and the same result
of every node, in whatever orders the nodes finished. -/
theorem results_confluent (serde : Serde) (spec : WorkflowSpec)
    (outcome : String → NodeRunResult) (picks₁ picks₂ : List ℕ)
    (ho : Ordered serde spec outcome) (hff : spec.failFast = false)
    (hok₁ : Run.AllOk (iterateBy serde spec outcome) (fun st _ => ¬ Livelocks serde spec st)
      (start spec) picks₁)
    (hok₂ : Run.AllOk (iterateBy serde spec outcome) (fun st _ => ¬ Livelocks serde spec st)
      (start spec) picks₂)
    (hend₁ : (Run.run (iterateBy serde spec outcome) (start spec) picks₁).ended = true)
    (hend₂ : (Run.run (iterateBy serde spec outcome) (start spec) picks₂).ended = true) :
    (∀ n, n ∈ (Run.run (iterateBy serde spec outcome) (start spec) picks₁).activeNodes ↔
      n ∈ (Run.run (iterateBy serde spec outcome) (start spec) picks₂).activeNodes) ∧
    ∀ id, (Run.run (iterateBy serde spec outcome) (start spec) picks₁).completed id =
      (Run.run (iterateBy serde spec outcome) (start spec) picks₂).completed id := by
  have h₁ := leadsTo_run ho hff (final_run ho hff hok₂ hend₂) hok₁
  have h₂ := leadsTo_run ho hff (final_run ho hff hok₁ hend₁) hok₂
  refine ⟨fun n => ⟨h₁.shared n, h₂.shared n⟩, fun id => ?_⟩
  cases hr : (Run.run (iterateBy serde spec outcome) (start spec) picks₁).completed id with
  | some r => exact (h₁.results id r hr).symm
  | none =>
    cases hr' : (Run.run (iterateBy serde spec outcome) (start spec) picks₂).completed id with
    | none => rfl
    | some r =>
      rw [h₂.results id r hr'] at hr
      cases hr

section Runs

/-- `publish` runs when `lint` passes, behind the nodes `deps`. -/
def publishFlow (deps : List String) : WorkflowSpec where
  maxParallelism := 4
  failFast := false
  nodes := [⟨"lint", "cargo_clippy", .obj [], [], false, none, [], 0, none, none⟩,
    ⟨"build", "cargo_build", .obj [], [], false, none, [], 0, none, none⟩,
    ⟨"publish", "git_push", .obj [], deps, false, none, [], 0, none,
      some (.branch "lint" .success)⟩]
  forEachPending := []

def allPass (id : String) : NodeRunResult := ⟨id, .passed, "ok", false, some 0, none, 1⟩

def readsNothing : Serde := ⟨fun _ => none, fun _ => ""⟩

theorem ordered_publishFlow : Ordered readsNothing (publishFlow ["lint", "build"]) allPass where
  distinct := by decide
  guarded n hn g hg := by
    left
    simp only [publishFlow, mem_cons, not_mem_nil, or_false] at hn
    rcases hn with rfl | rfl | rfl
    · cases hg
    · cases hg
    · cases hg
      exact .dep (by decide)

/-- With the lint among its dependencies, `publish` runs in both orders. -/
theorem results_confluent_publish :
    (Run.run (iterateBy readsNothing (publishFlow ["lint", "build"]) allPass)
      (start (publishFlow ["lint", "build"])) [0, 0, 0, 0]).completed "publish" =
    (Run.run (iterateBy readsNothing (publishFlow ["lint", "build"]) allPass)
      (start (publishFlow ["lint", "build"])) [1, 0, 0, 0]).completed "publish" :=
  (results_confluent readsNothing (publishFlow ["lint", "build"]) allPass [0, 0, 0, 0] [1, 0, 0, 0]
    ordered_publishFlow rfl (by decide) (by decide) (by decide) (by decide)).2 "publish"

/-- Behind the build alone, `publish` passes when the lint finishes first and is skipped when the
build does. -/
theorem publish_depends_on_order :
    validateDag (publishFlow ["build"]).nodes = .ok () ∧ (publishFlow ["build"]).failFast = false ∧
    (Run.run (iterateBy readsNothing (publishFlow ["build"]) allPass)
      (start (publishFlow ["build"])) [0, 0, 0, 0]).ended = true ∧
    (Run.run (iterateBy readsNothing (publishFlow ["build"]) allPass)
      (start (publishFlow ["build"])) [1, 0, 0]).ended = true ∧
    ((Run.run (iterateBy readsNothing (publishFlow ["build"]) allPass)
      (start (publishFlow ["build"])) [0, 0, 0, 0]).completed "publish").map NodeRunResult.status =
        some .passed ∧
    ((Run.run (iterateBy readsNothing (publishFlow ["build"]) allPass)
      (start (publishFlow ["build"])) [1, 0, 0]).completed "publish").map NodeRunResult.status =
        some .skipped := by
  refine ⟨by decide, rfl, by decide, by decide, by decide, by decide⟩

end Runs

end CrabMate.Workflow
