import CrabMate.Lib.Kahn
import CrabMate.Workflow.Model

/-! The check of the dependency graph and the layers it is planned in. Both take the nodes without
open dependencies away, one at a time or a layer at a time, in the order in which a hash map hands
them out. -/
namespace CrabMate.Workflow
open List Option

section Model

/-- The dependencies as edges, from the node that is waited for. -/
def dependencyEdges (nodes : List WorkflowNodeSpec) : List (String × String) :=
  nodes.flatMap fun n => n.deps.map fun d => (d, n.id)

/-- A node with the id `id` waits for `d`. -/
def DependsOn (nodes : List WorkflowNodeSpec) (d id : String) : Prop :=
  ∃ n ∈ nodes, n.id = id ∧ d ∈ n.deps

/-- `keys` are the ids in the order of the map. -/
def kahnZeroIndegree (keys : List String) (nodes : List WorkflowNodeSpec) : List String :=
  keys.filter fun id => indegree nodes id = 0

def validateDagFrom (keys : List String) (nodes : List WorkflowNodeSpec) : Except String Unit := do
  unknownDependencyError nodes
  if kahnVisit nodes (nodes.length + 1) (indegree nodes) (kahnZeroIndegree keys nodes) =
      nodes.length then .ok ()
  else .error "workflow 存在循环依赖（DAG 校验失败）"

/-- The successors of a layer; no result where an indegree would drop below zero. -/
def consumeLayer (nodes : List WorkflowNodeSpec) :
    List String → (String → ℕ) → List String → Option ((String → ℕ) × List String)
  | [], degree, next => some (degree, next)
  | x :: layer, degree, next =>
    (Kahn.consume (successors nodes x) degree next).bind fun r => consumeLayer nodes layer r.1 r.2

/-- No layer is empty, so `fuel` above the number of ids is never used up. -/
def layersFrom (nodes : List WorkflowNodeSpec) :
    ℕ → (String → ℕ) → List String → Option (List (List String))
  | 0, _, _ => some []
  | _ + 1, _, [] => some []
  | fuel + 1, degree, x :: current =>
    (consumeLayer nodes (x :: current) degree []).bind fun r =>
      (layersFrom nodes fuel r.1 r.2).map ((x :: current) :: ·)

def topoLayers (keys : List String) (nodes : List WorkflowNodeSpec) :
    Option (Except String (List (List String))) :=
  (layersFrom nodes (nodes.length + 1) (indegree nodes) (kahnZeroIndegree keys nodes)).map
    fun layers =>
      if (layers.map List.length).sum = nodes.length then .ok layers
      else .error "workflow_validate_only: 存在循环依赖（DAG 层级计算失败）"

theorem validateDag_eq (nodes : List WorkflowNodeSpec) :
    validateDag nodes = validateDagFrom (nodes.map WorkflowNodeSpec.id).dedup nodes := rfl

/-- The nodes in layers: each in one, once, and behind what it waits for. -/
structure Layered (nodes : List WorkflowNodeSpec) (layers : List (List String)) : Prop where
  once : layers.flatten.Perm (nodes.map WorkflowNodeSpec.id)
  placed : ∀ n ∈ nodes, ∃! i : ℕ, ∃ layer, layers[i]? = some layer ∧ n.id ∈ layer
  earlier : ∀ n ∈ nodes, ∀ d ∈ n.deps, ∀ (j : ℕ) (layer : List String),
    layers[j]? = some layer → n.id ∈ layer →
      ∃ i < j, ∃ before, layers[i]? = some before ∧ d ∈ before

end Model

section Graph

variable {nodes : List WorkflowNodeSpec}

theorem mem_dependencyEdges {d id : String} :
    (d, id) ∈ dependencyEdges nodes ↔ DependsOn nodes d id := by
  simp only [dependencyEdges, mem_flatMap, List.mem_map, Prod.mk.injEq, DependsOn]
  constructor
  · rintro ⟨n, hn, d, hd, rfl, rfl⟩
    exact ⟨n, hn, rfl, hd⟩
  · rintro ⟨n, hn, rfl, hd⟩
    exact ⟨n, hn, d, hd, rfl, rfl⟩

theorem indegree_eq (id : String) :
    indegree nodes id = Kahn.pending (dependencyEdges nodes) [] id := by
  induction nodes with
  | nil => rfl
  | cons n nodes ih =>
    have hsplit : dependencyEdges (n :: nodes) =
        (n.deps.map fun d => (d, n.id)) ++ dependencyEdges nodes := flatMap_cons
    rw [Kahn.pending, hsplit, countP_append, countP_map]
    rw [Kahn.pending] at ih
    rw [← ih]
    by_cases hid : n.id = id
    · simp [indegree, hid, Function.comp_def, countP_true]
    · simp [indegree, hid, Function.comp_def, countP_false]

theorem successors_eq (x : String) :
    successors nodes x = Kahn.targets (dependencyEdges nodes) x := by
  simp only [successors, Kahn.targets, dependencyEdges, filter_flatMap, map_flatMap,
    List.filter_map, List.map_map, Function.comp_def]

theorem kahnConsumeSuccessors_eq {ys queue queue' : List String} {degree degree' : String → ℕ}
    (h : Kahn.consume ys degree queue = some (degree', queue')) :
    kahnConsumeSuccessors ys degree queue = (degree', queue') := by
  induction ys generalizing degree queue with
  | nil => exact Option.some.inj h
  | cons y ys ih =>
    rw [Kahn.consume] at h
    split at h
    · cases h
    · exact ih h

theorem consumeLayer_eq (layer : List String) (degree : String → ℕ) (next : List String) :
    consumeLayer nodes layer degree next =
      Kahn.consume (layer.flatMap (Kahn.targets (dependencyEdges nodes))) degree next := by
  induction layer generalizing degree next with
  | nil => rfl
  | cons x layer ih =>
    rw [flatMap_cons, Kahn.consume_append, consumeLayer, successors_eq]
    exact Option.bind_congr fun r _ => ih r.1 r.2

theorem unknownDependencyError_eq_ok :
    unknownDependencyError nodes = .ok () ↔ ∀ n ∈ nodes, ∀ d ∈ n.deps, ∃ m ∈ nodes, m.id = d := by
  unfold unknownDependencyError
  cases hfind : nodes.findSome? fun n =>
      (n.deps.find? fun d => !(nodes.any (·.id = d))).map fun d => (n.id, d) with
  | none =>
    simp only [findSome?_eq_none_iff, map_eq_none_iff, find?_eq_none] at hfind
    simpa using hfind
  | some p =>
    obtain ⟨n, hn, hp⟩ := exists_of_findSome?_eq_some hfind
    obtain ⟨d, hd, rfl⟩ := map_eq_some_iff.mp hp
    have hunknown := find?_some hd
    simp only [reduceCtorEq, false_iff]
    intro h
    obtain ⟨m, hm, hid⟩ := h n hn d (mem_of_find?_eq_some hd)
    simp only [Bool.not_eq_true', List.any_eq_false, decide_eq_true_eq] at hunknown
    exact hunknown m hm hid

end Graph

section Loops

variable {nodes : List WorkflowNodeSpec} {vertices done queue : List String} {degree : String → ℕ}

/-- The loop of the check runs the sort to its end and counts what it finished. -/
theorem kahnVisit_eq (htargets : ∀ e ∈ dependencyEdges nodes, e.2 ∈ vertices) (fuel : ℕ)
    (h : Kahn.Sorting (dependencyEdges nodes) vertices done queue degree)
    (hfuel : vertices.length < fuel + done.length) :
    ∃ done' degree', Kahn.Sorting (dependencyEdges nodes) vertices done' [] degree' ∧
      kahnVisit nodes fuel degree queue + done.length = done'.length := by
  induction fuel generalizing done queue degree with
  | zero =>
    have := h.length_le
    rw [length_append] at this
    omega
  | succ fuel ih =>
    cases queue with
    | nil => exact ⟨done, degree, h, by simp [kahnVisit]⟩
    | cons x queue =>
      have hfront : Kahn.Sorting (dependencyEdges nodes) vertices done ([x] ++ queue) degree := h
      obtain ⟨degree', new, hrun, hnext⟩ := hfront.advance htargets
      rw [flatMap_singleton, ← successors_eq] at hrun
      obtain ⟨done', degree'', hend, hcount⟩ := ih hnext (by simp; omega)
      refine ⟨done', degree'', hend, ?_⟩
      rw [length_append, length_singleton] at hcount
      rw [kahnVisit, kahnConsumeSuccessors_eq hrun]
      change 1 + kahnVisit nodes fuel degree' (queue ++ new) + done.length = done'.length
      omega

/-- The loop of the layers never takes away an edge that is not there; its layers are the sort, and
what a layer waits for is in front of it. -/
theorem layersFrom_eq (htargets : ∀ e ∈ dependencyEdges nodes, e.2 ∈ vertices) (fuel : ℕ)
    (h : Kahn.Sorting (dependencyEdges nodes) vertices done queue degree)
    (hfuel : vertices.length < fuel + done.length) :
    ∃ layers degree', layersFrom nodes fuel degree queue = some layers ∧
      Kahn.Sorting (dependencyEdges nodes) vertices (done ++ layers.flatten) [] degree' ∧
      ∀ j layer, layers[j]? = some layer → ∀ b ∈ layer, ∀ a, DependsOn nodes a b →
        a ∈ done ++ (layers.take j).flatten := by
  induction fuel generalizing done queue degree with
  | zero =>
    have := h.length_le
    rw [length_append] at this
    omega
  | succ fuel ih =>
    cases queue with
    | nil => exact ⟨[], degree, rfl, by simpa using h, by simp⟩
    | cons x current =>
      have hall : Kahn.Sorting (dependencyEdges nodes) vertices done ((x :: current) ++ [])
          degree := by
        rwa [append_nil]
      obtain ⟨degree', new, hrun, hnext⟩ := hall.advance htargets
      obtain ⟨layers, degree'', hlayers, hend, hearlier⟩ := ih hnext (by simp; omega)
      refine ⟨(x :: current) :: layers, degree'', ?_, ?_, ?_⟩
      · rw [layersFrom, consumeLayer_eq, hrun, bind_some, hlayers, map_some]
      · rw [flatten_cons, ← append_assoc]
        exact hend
      · intro j layer hj b hb a hab
        cases j with
        | zero =>
          obtain rfl : x :: current = layer := by simpa using hj
          have hsettled := (h.settled b).mp (mem_append_right _ hb)
          rw [h.degree_eq] at hsettled
          have hdone := Kahn.pending_eq_zero.mp hsettled.2 a (mem_dependencyEdges.mpr hab)
          simpa using hdone
        | succ j =>
          have hmem := hearlier j layer (by simpa using hj) b hb a hab
          simpa [append_assoc] using hmem

end Loops

section Exact

variable {nodes : List WorkflowNodeSpec} {keys done : List String} {degree : String → ℕ}

theorem dependencyEdges_target (hkeys : keys.Perm (nodes.map WorkflowNodeSpec.id).dedup) :
    ∀ e ∈ dependencyEdges nodes, e.2 ∈ keys := by
  rintro ⟨d, id⟩ he
  obtain ⟨n, hn, rfl, -⟩ := mem_dependencyEdges.mp he
  rw [hkeys.mem_iff, mem_dedup]
  exact List.mem_map_of_mem hn

theorem dependencyEdges_source (hkeys : keys.Perm (nodes.map WorkflowNodeSpec.id).dedup)
    (hknown : ∀ n ∈ nodes, ∀ d ∈ n.deps, ∃ m ∈ nodes, m.id = d) :
    ∀ e ∈ dependencyEdges nodes, e.1 ∈ keys := by
  rintro ⟨d, id⟩ he
  obtain ⟨n, hn, -, hd⟩ := mem_dependencyEdges.mp he
  obtain ⟨m, hm, rfl⟩ := hknown n hn d hd
  rw [hkeys.mem_iff, mem_dedup]
  exact List.mem_map_of_mem hm

theorem acyclic_iff :
    Kahn.Acyclic (fun a b => (a, b) ∈ dependencyEdges nodes) ↔ Kahn.Acyclic (DependsOn nodes) := by
  simp only [mem_dependencyEdges]

theorem sorting_zeroIndegree (hkeys : keys.Perm (nodes.map WorkflowNodeSpec.id).dedup) :
    Kahn.Sorting (dependencyEdges nodes) keys [] (kahnZeroIndegree keys nodes) (indegree nodes) :=
  Kahn.sorting_start ((hkeys.nodup_iff.mpr (nodup_dedup _)).filter _) indegree_eq
    fun y => by simp [kahnZeroIndegree]

theorem length_keys_le (hkeys : keys.Perm (nodes.map WorkflowNodeSpec.id).dedup) :
    keys.length ≤ nodes.length := by
  have hdedup := (dedup_sublist (nodes.map WorkflowNodeSpec.id)).length_le
  rwa [List.length_map, ← hkeys.length_eq] at hdedup

/-- A finished sort holds as many ids as there are nodes exactly if no id is repeated and no id was
left over. -/
theorem length_done_eq (hkeys : keys.Perm (nodes.map WorkflowNodeSpec.id).dedup)
    (h : Kahn.Sorting (dependencyEdges nodes) keys done [] degree) :
    done.length = nodes.length ↔
      (nodes.map WorkflowNodeSpec.id).Nodup ∧ ∀ v ∈ keys, v ∈ done := by
  have hnodup : done.Nodup := by simpa using h.nodup
  have hsub : done ⊆ keys := fun y hy => ((h.settled y).mp (by simpa using hy)).1
  have hsubperm : done.Subperm keys := subperm_of_subset hnodup hsub
  have hkeysle := length_keys_le hkeys
  constructor
  · intro hlen
    have hle := hsubperm.length_le
    have hdedup : (nodes.map WorkflowNodeSpec.id).dedup = nodes.map WorkflowNodeSpec.id :=
      (dedup_sublist _).eq_of_length (by
        rw [← hkeys.length_eq, List.length_map]
        omega)
    refine ⟨dedup_eq_self.mp hdedup, fun v hv => ?_⟩
    exact (hsubperm.perm_of_length_le (by omega)).mem_iff.mpr hv
  · rintro ⟨hids, hall⟩
    have hkeysnodup : keys.Nodup := hkeys.nodup_iff.mpr (nodup_dedup _)
    have hlen := (subperm_of_subset hkeysnodup hall).length_le
    have hkeyslen : keys.length = nodes.length := by
      rw [hkeys.length_eq, dedup_eq_self.mpr hids, List.length_map]
    have := hsubperm.length_le
    omega

/-- The check passes exactly on the graphs whose sort finishes every node. -/
theorem validateDagFrom_eq_ok (hkeys : keys.Perm (nodes.map WorkflowNodeSpec.id).dedup) :
    validateDagFrom keys nodes = .ok () ↔
      (nodes.map WorkflowNodeSpec.id).Nodup ∧
        (∀ n ∈ nodes, ∀ d ∈ n.deps, ∃ m ∈ nodes, m.id = d) ∧ Kahn.Acyclic (DependsOn nodes) := by
  have htargets := dependencyEdges_target hkeys
  have hlen := length_keys_le hkeys
  obtain ⟨done, degree, hend, hcount⟩ :=
    kahnVisit_eq htargets (nodes.length + 1) (sorting_zeroIndegree hkeys) (by simp; omega)
  rw [length_nil, Nat.add_zero] at hcount
  have hok : validateDagFrom keys nodes = .ok () ↔
      unknownDependencyError nodes = .ok () ∧ done.length = nodes.length := by
    rw [← hcount]
    unfold validateDagFrom
    cases unknownDependencyError nodes with
    | error e => simp [bind, Except.bind]
    | ok u =>
      simp only [bind, Except.bind, true_and]
      split <;> simp_all
  rw [hok, unknownDependencyError_eq_ok, length_done_eq hkeys hend]
  constructor
  · rintro ⟨hknown, hids, hall⟩
    exact ⟨hids, hknown, acyclic_iff.mp (hend.acyclic htargets hall)⟩
  · rintro ⟨hids, hknown, hacyclic⟩
    exact ⟨hknown, hids,
      hend.complete (dependencyEdges_source hkeys hknown) (acyclic_iff.mpr hacyclic)⟩

theorem getElem?_unique_of_nodup_flatten {layers : List (List String)} (h : layers.flatten.Nodup)
    {id : String} {i j : ℕ} {layer layer' : List String} (hi : layers[i]? = some layer)
    (hj : layers[j]? = some layer') (hid : id ∈ layer) (hid' : id ∈ layer') : i = j := by
  have hdisjoint := (nodup_flatten.mp h).2
  rw [pairwise_iff_getElem] at hdisjoint
  obtain ⟨hil, rfl⟩ := List.getElem?_eq_some_iff.mp hi
  obtain ⟨hjl, rfl⟩ := List.getElem?_eq_some_iff.mp hj
  rcases Nat.lt_trichotomy i j with hlt | heq | hgt
  · exact absurd hid' (fun h' => hdisjoint i j hil hjl hlt hid h')
  · exact heq
  · exact absurd hid (fun h' => hdisjoint j i hjl hil hgt hid' h')

/-- The plan of a valid graph. -/
theorem layered_of_valid (hkeys : keys.Perm (nodes.map WorkflowNodeSpec.id).dedup)
    (hids : (nodes.map WorkflowNodeSpec.id).Nodup)
    (hknown : ∀ n ∈ nodes, ∀ d ∈ n.deps, ∃ m ∈ nodes, m.id = d)
    (hacyclic : Kahn.Acyclic (DependsOn nodes)) :
    ∃ layers, topoLayers keys nodes = some (.ok layers) ∧ Layered nodes layers := by
  have hlen := length_keys_le hkeys
  obtain ⟨layers, degree, hlayers, hend, hearlier⟩ := layersFrom_eq (dependencyEdges_target hkeys)
    (nodes.length + 1) (sorting_zeroIndegree hkeys) (by simp; omega)
  rw [nil_append] at hend
  have hall := hend.complete (dependencyEdges_source hkeys hknown) (acyclic_iff.mpr hacyclic)
  have hcount := (length_done_eq hkeys hend).mpr ⟨hids, hall⟩
  have hnodup : layers.flatten.Nodup := by simpa using hend.nodup
  have hkeysids : keys.Perm (nodes.map WorkflowNodeSpec.id) := by
    rwa [dedup_eq_self.mpr hids] at hkeys
  have hmem : ∀ v, v ∈ layers.flatten ↔ v ∈ nodes.map WorkflowNodeSpec.id := by
    intro v
    rw [← hkeysids.mem_iff]
    exact ⟨fun hv => ((hend.settled v).mp (by simpa using hv)).1, hall v⟩
  refine ⟨layers, ?_, ?_, ?_, ?_⟩
  · rw [topoLayers, hlayers, map_some, if_pos (by rw [← length_flatten, hcount])]
  · exact (perm_ext_iff_of_nodup hnodup hids).mpr hmem
  · intro n hn
    obtain ⟨layer, hlayer, hin⟩ := mem_flatten.mp ((hmem n.id).mpr (List.mem_map_of_mem hn))
    obtain ⟨i, hi⟩ := mem_iff_getElem?.mp hlayer
    refine ⟨i, ⟨layer, hi, hin⟩, ?_⟩
    rintro j ⟨layer', hj, hin'⟩
    exact getElem?_unique_of_nodup_flatten hnodup hj hi hin' hin
  · intro n hn d hd j layer hj hin
    have hbefore := hearlier j layer hj n.id hin d ⟨n, hn, rfl, hd⟩
    rw [nil_append] at hbefore
    obtain ⟨before, hbefore, hdin⟩ := mem_flatten.mp hbefore
    obtain ⟨i, hi⟩ := mem_iff_getElem?.mp hbefore
    rw [getElem?_take] at hi
    split at hi
    · next hij => exact ⟨i, hij, before, hi, hdin⟩
    · cases hi

/-- The check accepts exactly the lists with distinct ids whose dependencies are nodes of the list
and have no cycle, whatever the order of the map is; these are then planned in layers, and no list
makes the planning take away an edge that is not there. -/
theorem dag_validation_exact (nodes : List WorkflowNodeSpec) (keys keys' : List String)
    (hkeys : keys.Perm (nodes.map WorkflowNodeSpec.id).dedup)
    (hkeys' : keys'.Perm (nodes.map WorkflowNodeSpec.id).dedup) :
    (validateDagFrom keys nodes = .ok () ↔
      (nodes.map WorkflowNodeSpec.id).Nodup ∧
        (∀ n ∈ nodes, ∀ d ∈ n.deps, ∃ m ∈ nodes, m.id = d) ∧ Kahn.Acyclic (DependsOn nodes)) ∧
      (validateDagFrom keys nodes = .ok () →
        ∃ layers, topoLayers keys' nodes = some (.ok layers) ∧ Layered nodes layers) ∧
      (topoLayers keys' nodes).isSome := by
  have hexact := validateDagFrom_eq_ok hkeys
  refine ⟨hexact, fun hok => ?_, ?_⟩
  · obtain ⟨hids, hknown, hacyclic⟩ := hexact.mp hok
    exact layered_of_valid hkeys' hids hknown hacyclic
  · have hlen := length_keys_le hkeys'
    obtain ⟨layers, degree, hlayers, -⟩ := layersFrom_eq (dependencyEdges_target hkeys')
      (nodes.length + 1) (sorting_zeroIndegree hkeys') (by simp; omega)
    rw [topoLayers, hlayers]
    rfl

/-- A node that waits for both ends of a chain, for one of them twice. -/
def chainNodes : List WorkflowNodeSpec :=
  [⟨"pack", "run_command", .null, ["build", "test", "build"], false, none, [], 0, none, none⟩,
    ⟨"build", "run_command", .null, [], false, none, [], 0, none, none⟩,
    ⟨"test", "run_command", .null, ["build"], false, none, [], 0, none, none⟩]

theorem dag_validation_exact_chain :
    ∃ layers, topoLayers ["test", "build", "pack"] chainNodes = some (.ok layers) ∧
      Layered chainNodes layers :=
  (dag_validation_exact chainNodes ["pack", "build", "test"] ["test", "build", "pack"]
    (by decide) (by decide)).2.1 (by decide)

end Exact
end CrabMate.Workflow
