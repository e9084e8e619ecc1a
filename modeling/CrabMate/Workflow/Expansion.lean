import CrabMate.Lib.Separated
import CrabMate.Workflow.Layers
import CrabMate.Workflow.Report
import Mathlib.Algebra.Order.BigOperators.Group.List
import Mathlib.Algebra.Order.Group.Nat

/-! When every item of a loop gets a node of its own. The ids of these nodes are made from the id of
the loop and live beside the ids the author chose; a node whose id is taken is never started. -/
namespace CrabMate.Workflow
open List Option

section Model

variable (serde : Serde)

/-- The items the source of a loop hands over, all of them; a skipped source hands over none. -/
def deliveredItems (p : ForEachPendingSpec) (r : NodeRunResult) : Option (List String) :=
  match r.status, p.staticItems with
  | .skipped, _ => none
  | _, some items => some items
  | _, none =>
    (p.jsonPath.filter (!·.isEmpty)).bind fun path =>
      (resolveJsonPathValue serde r.output path).bind fun value =>
        value.asArr?.map fun xs => xs.map (itemToString serde)

/-- The loops that are expanded next, each with its items. -/
def deliveries (st : DagState) : List (ForEachPendingSpec × List String) :=
  st.forEachPending.filterMap fun p =>
    ((st.completed p.source).bind (deliveredItems serde p)).map fun items => (p, items)

/-- The loop and the item of every node there should be. -/
def itemsDue (st : DagState) : List (ForEachPendingSpec × String) :=
  (deliveries serde st).flatMap fun d => d.2.map fun item => (d.1, item)

/-- The node runs the tool of the loop on the item. -/
def RunsItem (due : ForEachPendingSpec × String) (n : WorkflowNodeSpec) : Prop :=
  n.toolName = due.1.toolName ∧
    n.toolArgs = substituteItemInValue due.1.itemVar due.2 due.1.toolArgsTemplate

/-- The expansion gives every delivered item one node, whose id no other active node has. -/
def EachItemOnce (st : DagState) : Prop :=
  ∃ new, (expand serde st).activeNodes = st.activeNodes ++ new ∧
    List.Forall₂ RunsItem (itemsDue serde st) new ∧
    (new.map WorkflowNodeSpec.id).Nodup ∧ ∀ n ∈ new, ∀ m ∈ st.activeNodes, m.id ≠ n.id

/-- No loop has more items than it may have, no active node has an id of theirs, and no two loops
share the id they start from. -/
structure FreshItems (st : DagState) : Prop where
  capped : ∀ d ∈ deliveries serde st, d.2.length ≤ d.1.maxItems.toNat
  apart : ∀ d ∈ deliveries serde st, ∀ i < d.2.length, ∀ m ∈ st.activeNodes,
    m.id ≠ forEachNodeId d.1.baseId i
  distinct : (deliveries serde st).Pairwise fun d d' =>
    d.2 ≠ [] → d'.2 ≠ [] → d.1.baseId ≠ d'.1.baseId

/-- The nodes the expansion adds. -/
def newNodes (st : DagState) : List WorkflowNodeSpec :=
  (deliveries serde st).flatMap fun d => buildForEachNodes d.1 (d.2.take d.1.maxItems.toNat)

end Model

section Ids

/-- The id of an item's node determines the loop's id and the position of the item. -/
theorem forEachNodeId_inj {baseId baseId' : String} {i j : ℕ}
    (h : forEachNodeId baseId i = forEachNodeId baseId' j) : baseId = baseId' ∧ i = j := by
  have hlist : ∀ (b : String) (k : ℕ),
      (forEachNodeId b k).toList = b.toList ++ '_' :: Nat.toDigits 10 k := by
    intro b k
    simp [forEachNodeId]
  have heq := congrArg String.toList h
  rw [hlist, hlist] at heq
  obtain ⟨hbase, hdigits⟩ := cut_last_inj Nat.underscore_not_in_toDigits
    Nat.underscore_not_in_toDigits heq
  refine ⟨String.toList_inj.mp hbase, ?_⟩
  have hvalue := congrArg (Nat.ofDigitChars 10 · 0) hdigits
  simpa only [Nat.ofDigitChars_ten_toDigits] using hvalue

theorem map_id_buildForEachNodes (p : ForEachPendingSpec) (items : List String) :
    (buildForEachNodes p items).map WorkflowNodeSpec.id =
      (List.range items.length).map (forEachNodeId p.baseId) := by
  apply ext_getElem
  · simp [buildForEachNodes]
  · intro i hi hi'
    simp [buildForEachNodes, forEachNode]

theorem nodup_itemIds (baseId : String) (k : ℕ) :
    ((List.range k).map (forEachNodeId baseId)).Nodup :=
  nodup_range.map fun _ _ h => (forEachNodeId_inj h).2

end Ids

section Expansion

variable {serde : Serde} {st : DagState}

theorem resolveForEachItems_eq (p : ForEachPendingSpec) (r : NodeRunResult) :
    expandOne serde p r =
      ((deliveredItems serde p r).map fun items =>
        buildForEachNodes p (items.take p.maxItems.toNat)).getD [] := by
  unfold expandOne deliveredItems resolveForEachItems
  cases hstatus : r.status with
  | skipped => rfl
  | passed | failed =>
    cases p.staticItems with
    | some items => simp [take_eq_take_min]
    | none =>
      cases p.jsonPath.filter (!·.isEmpty) with
      | none => rfl
      | some path =>
        simp only [bind_some]
        cases resolveJsonPathValue serde r.output path with
        | none => rfl
        | some value =>
          simp only [bind_some]
          cases value.asArr? with
          | none => rfl
          | some xs => simp [map_take]

theorem expand_activeNodes :
    (expand serde st).activeNodes = st.activeNodes ++ newNodes serde st := by
  have hflat : ∀ ps : List ForEachPendingSpec,
      (ps.flatMap fun p => ((st.completed p.source).map (expandOne serde p)).getD []) =
        (ps.filterMap fun p => ((st.completed p.source).bind (deliveredItems serde p)).map
          fun items => (p, items)).flatMap
            fun d => buildForEachNodes d.1 (d.2.take d.1.maxItems.toNat) := by
    intro ps
    induction ps with
    | nil => rfl
    | cons p ps ih =>
      rw [flatMap_cons, ih, filterMap_cons]
      cases st.completed p.source with
      | none => rfl
      | some r =>
        rw [map_some, getD_some, resolveForEachItems_eq, bind_some]
        cases deliveredItems serde p r with
        | none => rfl
        | some items => rfl
  rw [newNodes, deliveries, ← hflat]
  rfl

theorem runsItem_buildForEachNodes (p : ForEachPendingSpec) (items : List String) :
    List.Forall₂ RunsItem (items.map fun item => (p, item)) (buildForEachNodes p items) := by
  rw [forall₂_iff_get]
  refine ⟨by simp [buildForEachNodes], fun i hi hi' => ?_⟩
  simp [buildForEachNodes, forEachNode, RunsItem]

theorem forall₂_flatMap {α β γ : Type*} {r : β → γ → Prop} {f : α → List β} {g : α → List γ}
    {xs : List α} (h : ∀ x ∈ xs, List.Forall₂ r (f x) (g x)) :
    List.Forall₂ r (xs.flatMap f) (xs.flatMap g) := by
  induction xs with
  | nil => exact .nil
  | cons x xs ih =>
    rw [flatMap_cons, flatMap_cons]
    exact rel_append (h x mem_cons_self) (ih fun y hy => h y (mem_cons_of_mem _ hy))

theorem map_id_newNodes (hcapped : ∀ d ∈ deliveries serde st, d.2.length ≤ d.1.maxItems.toNat) :
    (newNodes serde st).map WorkflowNodeSpec.id = (deliveries serde st).flatMap fun d =>
      (List.range d.2.length).map (forEachNodeId d.1.baseId) := by
  rw [newNodes, map_flatMap]
  apply flatMap_congr
  intro d hd
  rw [take_of_length_le (hcapped d hd), map_id_buildForEachNodes]

theorem nodup_newNodes (hcapped : ∀ d ∈ deliveries serde st, d.2.length ≤ d.1.maxItems.toNat) :
    ((newNodes serde st).map WorkflowNodeSpec.id).Nodup ↔
      (deliveries serde st).Pairwise fun d d' =>
        d.2 ≠ [] → d'.2 ≠ [] → d.1.baseId ≠ d'.1.baseId := by
  rw [map_id_newNodes hcapped, nodup_flatMap]
  have hdisjoint : ∀ d d' : ForEachPendingSpec × List String,
      List.Disjoint ((List.range d.2.length).map (forEachNodeId d.1.baseId))
        ((List.range d'.2.length).map (forEachNodeId d'.1.baseId)) ↔
      (d.2 ≠ [] → d'.2 ≠ [] → d.1.baseId ≠ d'.1.baseId) := by
    intro d d'
    constructor
    · intro h hd hd' heq
      have hpos : 0 < d.2.length := length_pos_iff.mpr hd
      have hpos' : 0 < d'.2.length := length_pos_iff.mpr hd'
      refine h (a := forEachNodeId d.1.baseId 0) (List.mem_map_of_mem (mem_range.mpr hpos)) ?_
      rw [heq]
      exact List.mem_map_of_mem (mem_range.mpr hpos')
    · intro h id hid hid'
      obtain ⟨i, hi, rfl⟩ := List.mem_map.mp hid
      obtain ⟨j, hj, heq⟩ := List.mem_map.mp hid'
      rw [mem_range] at hi hj
      exact h (length_pos_iff.mp (by omega)) (length_pos_iff.mp (by omega))
        (forEachNodeId_inj heq).1.symm
  constructor
  · exact fun h => h.2.imp fun {d d'} hdd => (hdisjoint d d').mp hdd
  · exact fun h => ⟨fun d _ => nodup_itemIds _ _, h.imp fun {d d'} hdd => (hdisjoint d d').mpr hdd⟩

theorem length_itemsDue :
    (itemsDue serde st).length = ((deliveries serde st).map fun d => d.2.length).sum := by
  simp [itemsDue, length_flatMap]

theorem length_newNodes :
    (newNodes serde st).length =
      ((deliveries serde st).map fun d => min d.1.maxItems.toNat d.2.length).sum := by
  simp [newNodes, length_flatMap, buildForEachNodes]

theorem forall₂_newNodes :
    List.Forall₂ RunsItem (itemsDue serde st) (newNodes serde st) ↔
      ∀ d ∈ deliveries serde st, d.2.length ≤ d.1.maxItems.toNat := by
  constructor
  · intro h d hd
    by_contra hlong
    have hlt := sum_lt_sum
      (fun d : ForEachPendingSpec × List String => min d.1.maxItems.toNat d.2.length)
      (fun d => d.2.length) (fun d _ => Nat.min_le_right _ _)
      ⟨d, hd, show min d.1.maxItems.toNat d.2.length < d.2.length by omega⟩
    have hlen := h.length_eq
    rw [length_itemsDue, length_newNodes] at hlen
    omega
  · intro hcapped
    refine forall₂_flatMap fun d hd => ?_
    rw [take_of_length_le (hcapped d hd)]
    exact runsItem_buildForEachNodes d.1 d.2

/-- An expansion gives each item its own node exactly if the ids of the nodes are fresh. -/
theorem eachItemOnce_iff : EachItemOnce serde st ↔ FreshItems serde st := by
  have happart : (∀ d ∈ deliveries serde st, d.2.length ≤ d.1.maxItems.toNat) →
      ((∀ n ∈ newNodes serde st, ∀ m ∈ st.activeNodes, m.id ≠ n.id) ↔
        ∀ d ∈ deliveries serde st, ∀ i < d.2.length, ∀ m ∈ st.activeNodes,
          m.id ≠ forEachNodeId d.1.baseId i) := by
    intro hcapped
    have hids := map_id_newNodes hcapped
    constructor
    · intro h d hd i hi m hm heq
      have hmem : forEachNodeId d.1.baseId i ∈ (newNodes serde st).map WorkflowNodeSpec.id := by
        rw [hids]
        exact mem_flatMap.mpr ⟨d, hd, List.mem_map_of_mem (mem_range.mpr hi)⟩
      obtain ⟨n, hn, hid⟩ := List.mem_map.mp hmem
      exact h n hn m hm (heq.trans hid.symm)
    · intro h n hn m hm heq
      have hmem := List.mem_map_of_mem (f := WorkflowNodeSpec.id) hn
      rw [hids] at hmem
      obtain ⟨d, hd, hid⟩ := mem_flatMap.mp hmem
      obtain ⟨i, hi, hid⟩ := List.mem_map.mp hid
      exact h d hd i (mem_range.mp hi) m hm (heq.trans hid.symm)
  constructor
  · rintro ⟨new, hactive, hruns, hnodup, hapart⟩
    obtain rfl : newNodes serde st = new := by
      rw [expand_activeNodes] at hactive
      exact append_cancel_left hactive
    have hcapped := forall₂_newNodes.mp hruns
    exact ⟨hcapped, (happart hcapped).mp hapart, (nodup_newNodes hcapped).mp hnodup⟩
  · rintro ⟨hcapped, hapart, hdistinct⟩
    exact ⟨newNodes serde st, expand_activeNodes, forall₂_newNodes.mpr hcapped,
      (nodup_newNodes hcapped).mpr hdistinct, (happart hcapped).mpr hapart⟩

end Expansion

section Runs

variable {serde : Serde} {spec : WorkflowSpec}

theorem EachItemOnce.nodup {st : DagState} (h : EachItemOnce serde st)
    (hst : (st.activeNodes.map WorkflowNodeSpec.id).Nodup) :
    ((expand serde st).activeNodes.map WorkflowNodeSpec.id).Nodup := by
  obtain ⟨new, hactive, -, hnodup, hapart⟩ := h
  rw [hactive, map_append, nodup_append]
  refine ⟨hst, hnodup, fun id hid id' hid' heq => ?_⟩
  obtain ⟨m, hm, rfl⟩ := List.mem_map.mp hid
  obtain ⟨n, hn, rfl⟩ := List.mem_map.mp hid'
  exact hapart n hn m hm heq

/-- In every run of an accepted workflow each expansion gives each item its own node exactly if
each finds the ids of the nodes fresh; then no two active nodes ever share an id. -/
theorem for_each_items_once (serde : Serde) (spec : WorkflowSpec) (ops : List Completion)
    (hvalid : validateDag spec.nodes = .ok ()) :
    (Run.AllOk (iterate serde spec) (fun st _ => st.ended = true ∨ EachItemOnce serde st)
      (start spec) ops ↔
      Run.AllOk (iterate serde spec) (fun st _ => st.ended = true ∨ FreshItems serde st)
        (start spec) ops) ∧
    (Run.AllOk (iterate serde spec) (fun st _ => st.ended = true ∨ FreshItems serde st)
      (start spec) ops →
      ((Run.run (iterate serde spec) (start spec) ops).activeNodes.map
        WorkflowNodeSpec.id).Nodup) := by
  refine ⟨Run.allOk_congr _ (fun st _ => or_congr_right eachItemOnce_iff) _ _, fun hok => ?_⟩
  have hids : (spec.nodes.map WorkflowNodeSpec.id).Nodup := by
    rw [validateDag_eq] at hvalid
    exact ((validateDagFrom_eq_ok (List.Perm.refl _)).mp hvalid).1
  have hstep : ∀ st c, (st.activeNodes.map WorkflowNodeSpec.id).Nodup →
      st.ended = true ∨ FreshItems serde st →
      ((iterate serde spec st c).activeNodes.map WorkflowNodeSpec.id).Nodup := by
    intro st c hst hfresh
    refine iterate_rule (fun st => (st.activeNodes.map WorkflowNodeSpec.id).Nodup) hst
      (fun hrun => ?_) fun s s' hs hact => by rwa [hact.activeNodes_eq]
    rcases hfresh with hend | hfresh
    · rw [hrun] at hend
      cases hend
    · exact (eachItemOnce_iff.mpr hfresh).nodup hst
  exact Run.invariant hstep hids hok

theorem for_each_items_once_scan :
    Run.AllOk (iterate fileListJson scanFlow)
      (fun st _ => st.ended = true ∨ EachItemOnce fileListJson st) (start scanFlow)
      [passing "[\"a.rs\"]", passing "[\"a.rs\"]"] ↔
    Run.AllOk (iterate fileListJson scanFlow)
      (fun st _ => st.ended = true ∨ FreshItems fileListJson st) (start scanFlow)
      [passing "[\"a.rs\"]", passing "[\"a.rs\"]"] :=
  (for_each_items_once fileListJson scanFlow _ (by decide)).1

/-- Beside the loop `each` there is a node that is called what its first item will be called. -/
def shadowedFlow : WorkflowSpec :=
  ⟨4, true, [plainNode "scan" "list_files" [], plainNode "each_0" "cargo_check" []], [scanLoop]⟩

/-- The file the scan lists gets a second node `each_0`, which is never started; the workflow is
reported passed. -/
theorem shadowed_item_dropped :
    validateDag shadowedFlow.nodes = .ok () ∧
    ¬ Run.AllOk (iterate fileListJson shadowedFlow)
      (fun st _ => st.ended = true ∨ EachItemOnce fileListJson st) (start shadowedFlow)
      [passing "[\"a.rs\"]", passing "[\"a.rs\"]", passing "[\"a.rs\"]"] ∧
    (Run.run (iterate fileListJson shadowedFlow) (start shadowedFlow)
      [passing "[\"a.rs\"]", passing "[\"a.rs\"]", passing "[\"a.rs\"]"]).ended = true ∧
    (Run.run (iterate fileListJson shadowedFlow) (start shadowedFlow)
      [passing "[\"a.rs\"]", passing "[\"a.rs\"]", passing "[\"a.rs\"]"]).reportStatus =
        "passed" ∧
    ∀ l ∈ (Run.run (iterate fileListJson shadowedFlow) (start shadowedFlow)
      [passing "[\"a.rs\"]", passing "[\"a.rs\"]", passing "[\"a.rs\"]"]).launched,
        l.node.toolName ≠ "read_file" := by
  refine ⟨by decide, fun h => ?_, by decide, by decide, by decide⟩
  rcases h.2.1 with hend | honce
  · exact absurd hend (by decide)
  · exact (eachItemOnce_iff.mp honce).apart (scanLoop, ["a.rs"]) (by decide) 0 (by decide)
      (plainNode "each_0" "cargo_check" []) (by decide) (by decide)

end Runs
end CrabMate.Workflow
