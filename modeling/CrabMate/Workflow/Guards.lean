import CrabMate.Workflow.Compile
import CrabMate.Workflow.Safety

/-! Which conditions of the author layer reach the nodes. A compiled node carries at most one, and
a later round of a repetition carries the failure of the round before instead. -/
namespace CrabMate.Workflow
open RustStr JsonValue List Except

section Guards

/-- A tool step where it stands: what its branch would add, and every condition on the way to it,
its own included. -/
structure Placed where
  fields : StepFields
  branchWhen : Option JsonValue
  sharedAfter : Option JsonValue
  guards : List JsonValue

def Placed.flat (s : Placed) : StepFields :=
  mergeChoiceSubstep s.branchWhen s.sharedAfter s.fields

mutual
def placeStep (guards : List JsonValue) (branchWhen sharedAfter : Option JsonValue) :
    AuthorStep → List Placed
  | .plain f => [⟨f, branchWhen, sharedAfter, guards ++ f.whenV.toList⟩]
  | .choice whenV after branches =>
    placeBranches (guards ++ whenV.toList) (after.or sharedAfter) branches

def placeBranches (guards : List JsonValue) (sharedAfter : Option JsonValue) :
    List AuthorBranch → List Placed
  | [] => []
  | .mk whenV steps :: rest =>
    placeSubsteps (guards ++ whenV.toList) whenV sharedAfter steps ++
      placeBranches guards sharedAfter rest

def placeSubsteps (guards : List JsonValue) (branchWhen sharedAfter : Option JsonValue) :
    List AuthorStep → List Placed
  | [] => []
  | step :: rest =>
    placeStep guards branchWhen sharedAfter step ++
      placeSubsteps guards branchWhen sharedAfter rest
end

def placedSteps (steps : List AuthorStep) : List Placed := placeSubsteps [] none none steps

mutual
theorem flat_placeStep (guards : List JsonValue) (bw sa : Option JsonValue) :
    ∀ step, (placeStep guards bw sa step).map Placed.flat = flattenOneStep bw sa step
  | .plain f => rfl
  | .choice whenV after branches => by
    rw [placeStep, flattenOneStep]
    exact flat_placeBranches _ _ branches

theorem flat_placeBranches (guards : List JsonValue) (sa : Option JsonValue) :
    ∀ branches, (placeBranches guards sa branches).map Placed.flat = flattenBranches sa branches
  | [] => rfl
  | .mk whenV steps :: rest => by
    rw [placeBranches, flattenBranches, map_append, flat_placeSubsteps _ _ _ steps,
      flat_placeBranches _ _ rest]

theorem flat_placeSubsteps (guards : List JsonValue) (bw sa : Option JsonValue) :
    ∀ steps, (placeSubsteps guards bw sa steps).map Placed.flat = flattenSubsteps bw sa steps
  | [] => rfl
  | step :: rest => by
    rw [placeSubsteps, flattenSubsteps, map_append, flat_placeStep _ _ _ step,
      flat_placeSubsteps _ _ _ rest]
end

/-- The compiler flattens the tree to its tool steps, in order. -/
theorem flat_placedSteps (steps : List AuthorStep) :
    (placedSteps steps).map Placed.flat = flattenAuthorSteps steps :=
  flat_placeSubsteps [] none none steps

variable (serde : Serde)

/-- The condition holds of the results, read the way a node's condition is. -/
def GuardHolds (completed : Completed) (whenV : JsonValue) : Prop :=
  ∃ j cond, parseWhenToRunIfJson whenV = .ok j ∧ parseRunIfJson j = .ok (some cond) ∧
    nodeRunIfSatisfied serde (some cond) completed = true

/-- The conditions on the way to the step are all one, and a node of its own carries it: the step
has that condition, or none where its branch has it, it is no loop, and it is not repeated
regardless of the rounds before. -/
structure Carried (s : Placed) : Prop where
  single : ∀ g ∈ s.guards, s.fields.whenV.or s.branchWhen = some g
  noLoop : s.fields.forEach = none
  repeats : ∀ i r, parseRepeatSpec s.fields i = .ok (some r) → r.count = 1 ∨ r.stopOn = .success

/-- No id stands for two nodes, those of later loops included. -/
structure DistinctIds (spec : WorkflowSpec) : Prop where
  nodes : (spec.nodes.map WorkflowNodeSpec.id).Nodup
  loops : ∀ p ∈ spec.forEachPending, ∀ k, forEachNodeId p.baseId k ∉
    spec.nodes.map WorkflowNodeSpec.id

/-- The node is one of the step's: parsed from its output, or expanded from its loop. -/
def StepOutput.Yields (out : StepOutput) (n : WorkflowNodeSpec) : Prop :=
  (∃ j ∈ out.nodes, parseNodeFromValue j none = .ok n) ∨
    ∃ p ∈ out.pending, ∃ i q, parseOneForEachPending (forEachPendingToJson p) i = .ok q ∧
      ∃ items, n ∈ buildForEachNodes q items

end Guards

section Nodes

variable {serde : Serde} {completed : Completed}

theorem trimmedStr_eq_some {v : Option JsonValue} {s : String} (h : trimmedStr v = some s) :
    s ≠ "" ∧ ∃ t, s = trimString t := by
  obtain ⟨hmap, hne⟩ := Option.filter_eq_some_iff.mp h
  obtain ⟨t, -, rfl⟩ := Option.map_eq_some_iff.mp hmap
  exact ⟨by simpa using hne, t, rfl⟩

theorem isWhitespace_of_isDigit {c : Char} (h : c.isDigit = true) : isWhitespace c = false := by
  simp only [Char.isDigit, Bool.and_eq_true, decide_eq_true_eq, ge_iff_le,
    UInt32.le_iff_toNat_le] at h
  have hlo : 48 ≤ c.toNat := h.1
  have hhi : c.toNat ≤ 57 := h.2
  simp only [isWhitespace, Bool.or_eq_false_iff, Bool.and_eq_false_iff, decide_eq_false_iff_not,
    beq_eq_false_iff_ne]
  omega

theorem isWhitespace_getLast_toString (k : ℕ) (h : (toString k).toList ≠ []) :
    isWhitespace ((toString k).toList.getLast h) = false := by
  have hmem : (toString k).toList.getLast h ∈ Nat.toDigits 10 k := by
    rw [← Nat.toList_repr]
    exact getLast_mem h
  exact isWhitespace_of_isDigit (Nat.isDigit_of_mem_toDigits (by omega) (by omega) hmem)

/-- The id of a round stays as it is when it is read as the source of a condition. -/
theorem trimString_repeatNodeId {baseId t : String} (hne : baseId ≠ "")
    (ht : baseId = trimString t) (k : ℕ) :
    trimString (repeatNodeId baseId k) = repeatNodeId baseId k := by
  have hbase : baseId.toList = trim t.toList := by simp [ht, trimString]
  have hlist : (repeatNodeId baseId k).toList = baseId.toList ++ ('_' :: (toString k).toList) := by
    simp [repeatNodeId]
  have hdigits : (toString k).toList ≠ [] := by simp
  have htrim : trim (repeatNodeId baseId k).toList = (repeatNodeId baseId k).toList := by
    rw [hlist]
    refine trim_eq_self_of_ends ?_ ?_
    · intro c rest heq
      rw [hbase] at heq
      cases hb : trim t.toList with
      | nil =>
        rw [hb] at hbase
        exact absurd (String.toList_inj.mp hbase) hne
      | cons c' rest' =>
        rw [hb] at heq
        obtain ⟨rfl, -⟩ := List.cons.inj heq
        exact isWhitespace_of_trim_eq_cons hb
    · intro h
      rw [getLast_append_of_ne_nil h (by simp), getLast_cons hdigits]
      exact isWhitespace_getLast_toString k hdigits
  rw [trimString, htrim, String.ofList_toList]

theorem get?_optionalField (key k : String) (v : Option JsonValue) :
    (JsonValue.obj (optionalField k v)).get? key = if k = key then v else none := by
  unfold optionalField
  rw [get?_obj_toList key k v fun x => x]
  simp

theorem compilePlainStepNode_fields {f : StepFields} {i : ℕ} {idOverride : Option String}
    {deps : Option (List String)} {fields : List (String × JsonValue)}
    (h : compilePlainStepNode f i idOverride deps = .ok fields) :
    ∃ id, idOverride.or (trimmedStr f.id) = some id ∧
      (JsonValue.obj fields).get? "id" = some (.str id) ∧
      (JsonValue.obj fields).get? "run_if" = none := by
  unfold compilePlainStepNode at h
  obtain ⟨toolName, -, h⟩ := bind_eq_ok.mp h
  obtain ⟨deps, -, h⟩ := bind_eq_ok.mp h
  obtain ⟨id, hid, h⟩ := bind_eq_ok.mp h
  cases hopt : idOverride.or (trimmedStr f.id) with
  | none => simp [hopt, orError] at hid
  | some id' =>
    obtain rfl : id' = id := by simpa [hopt, orError] using hid
    cases h
    refine ⟨id', rfl, ?_, ?_⟩ <;>
      simp [get?_obj_append, get?_obj_cons, get?_optionalField]

theorem parseNode_fields {v : JsonValue} {n : WorkflowNodeSpec}
    (h : parseNodeFromValue v none = .ok n) :
    strField v "id" = some n.id ∧
      ∀ r, v.get? "run_if" = some r → parseRunIfJson r = .ok n.runIf := by
  unfold parseNodeFromValue at h
  obtain ⟨id, hid, h⟩ := bind_eq_ok.mp h
  obtain ⟨toolName, -, h⟩ := bind_eq_ok.mp h
  obtain ⟨runIf, hif, h⟩ := bind_eq_ok.mp h
  cases h
  constructor
  · cases hopt : strField v "id" with
    | none => simp [hopt, orError] at hid
    | some id' => simpa [hopt, orError] using hid
  · intro r hr
    simpa [hr, parseNodeRunIf] using hif

theorem whenRunIf_some {whenV : JsonValue} {run : Option JsonValue}
    (h : whenRunIf (some whenV) = .ok run) :
    ∃ fields, parseWhenToRunIfJson whenV = .ok (.obj fields) ∧ run = some (.obj fields) := by
  unfold whenRunIf at h
  have hobj : ∀ j, parseWhenToRunIfJson whenV = .ok j → ∃ fields, j = .obj fields := by
    intro j hj
    unfold parseWhenToRunIfJson at hj
    split at hj
    · exact ⟨_, (Except.ok.inj hj).symm⟩
    · exact ⟨_, (Except.ok.inj hj).symm⟩
    · cases hj
  cases hj : parseWhenToRunIfJson whenV with
  | error e => simp [hj, Except.map] at h
  | ok j =>
    obtain ⟨fields, rfl⟩ := hobj j hj
    exact ⟨fields, rfl, by simpa [hj, Except.map] using h.symm⟩

theorem parseRunIfJson_obj {fields : List (String × JsonValue)} {runIf : Option WorkflowRunIf}
    (h : parseRunIfJson (.obj fields) = .ok runIf) : ∃ cond, runIf = some cond := by
  unfold parseRunIfJson at h
  rw [if_neg (by simp), if_neg (by simp [isObject])] at h
  have hmap : ∀ x : Except String WorkflowRunIf, x.map some = .ok runIf →
      ∃ cond, runIf = some cond := by
    intro x hx
    cases x with
    | error e => cases hx
    | ok cond => exact ⟨cond, (Except.ok.inj hx).symm⟩
  split at h
  · exact hmap _ h
  · exact hmap _ h

/-- A node that carries the condition and may run has the condition hold. -/
theorem guardHolds_of_node {v whenV : JsonValue} {run : Option JsonValue} {n : WorkflowNodeSpec}
    (hn : parseNodeFromValue v none = .ok n) (hv : v.get? "run_if" = run)
    (hrun : whenRunIf (some whenV) = .ok run)
    (hif : nodeRunIfSatisfied serde n.runIf completed = true) :
    GuardHolds serde completed whenV := by
  obtain ⟨fields, hfields, rfl⟩ := whenRunIf_some hrun
  have hparse := (parseNode_fields hn).2 _ hv
  obtain ⟨cond, hcond⟩ := parseRunIfJson_obj hparse
  rw [hcond] at hparse hif
  exact ⟨_, cond, hfields, hparse, hif⟩

theorem GuardHolds.mono {later : Completed} {whenV : JsonValue}
    (h : GuardHolds serde completed whenV) (hext : completed.Extends later) :
    GuardHolds serde later whenV := by
  obtain ⟨j, cond, hj, hcond, hif⟩ := h
  exact ⟨j, cond, hj, hcond, nodeRunIfSatisfied_mono hext hif⟩

end Nodes

section Output

variable {serde : Serde} {spec : WorkflowSpec}

theorem compileFrom_getElem? {fs : List StepFields} {i : ℕ} {seen : List String}
    {outs : List StepOutput} (h : compileFrom i seen fs = .ok outs) {k : ℕ} {f : StepFields}
    {out : StepOutput} (hf : fs[k]? = some f) (hout : outs[k]? = some out) :
    ∃ seen', compileOneFlatStep f (i + k) seen' = .ok out := by
  induction fs generalizing i seen outs k with
  | nil => cases hf
  | cons f₀ fs ih =>
    rw [compileFrom] at h
    obtain ⟨out₀, hout₀, h⟩ := bind_eq_ok.mp h
    obtain ⟨outs', houts', h⟩ := bind_eq_ok.mp h
    cases h
    cases k with
    | zero =>
      cases hf
      cases hout
      exact ⟨seen, hout₀⟩
    | succ k =>
      obtain ⟨seen', hout'⟩ := ih houts' hf hout
      exact ⟨seen', by rwa [show i + (k + 1) = i + 1 + k by omega]⟩

theorem exists_node_of_output {maxParallelism : ℕ} {failFast : Bool} {outs : List StepOutput}
    (h : parseCompiled maxParallelism failFast outs = .ok spec) {out : StepOutput}
    (hout : out ∈ outs) {j : JsonValue} (hj : j ∈ out.nodes) :
    ∃ n ∈ spec.nodes, parseNodeFromValue j none = .ok n := by
  unfold parseCompiled at h
  obtain ⟨nodes, hnodes, h⟩ := bind_eq_ok.mp h
  have hrel := (mapM_ok hnodes).flip
  have hspec : spec.nodes = nodes := by
    split at h
    · cases h
    · obtain ⟨pending, -, h⟩ := bind_eq_ok.mp h
      cases h
      rfl
  rw [hspec]
  exact exists_of_forall₂ hrel (mem_flatMap.mpr ⟨out, hout, hj⟩)

theorem repeatNode_fields {f : StepFields} {i : ℕ} {baseId : String} {run : Option JsonValue}
    {stopOn : RepeatStopOn} {k : ℕ} {j : JsonValue}
    (h : repeatNode f i baseId run stopOn k = .ok j) :
    strField j "id" = some (repeatNodeId baseId (k + 1)) ∧
      j.get? "run_if" = repeatRunIf baseId run stopOn k := by
  unfold repeatNode at h
  obtain ⟨deps, -, h⟩ := bind_eq_ok.mp h
  obtain ⟨fields, hfields, h⟩ := bind_eq_ok.mp h
  obtain ⟨id, hid, hget, hnone⟩ := compilePlainStepNode_fields hfields
  obtain rfl : repeatNodeId baseId (k + 1) = id := by simpa using hid
  cases h
  constructor
  · simp [strField, get?_obj_append, get?_optionalField, hget, asStr?]
  · simp [get?_obj_append, get?_optionalField, hnone]

theorem parse_repeatStopOnSuccessRunIf {baseId t : String} (hne : baseId ≠ "")
    (ht : baseId = trimString t) (k : ℕ) :
    parseRunIfJson (repeatStopOnSuccessRunIf (repeatNodeId baseId k)) =
      .ok (some (.branch (repeatNodeId baseId k) .failure)) := by
  have hid := trimString_repeatNodeId hne ht k
  have hnot : repeatNodeId baseId k ≠ "" := by
    intro h
    have := congrArg String.length h
    simp [repeatNodeId] at this
  have hsource : trimmedStrField (repeatStopOnSuccessRunIf (repeatNodeId baseId k)) "from" =
      some (repeatNodeId baseId k) := by
    rw [trimmedStrField_of (s := repeatNodeId baseId k) rfl, hid, if_neg hnot]
  have hbranch : strField (repeatStopOnSuccessRunIf (repeatNodeId baseId k)) "branch" =
      some "failure" := rfl
  unfold parseRunIfJson
  rw [if_neg (by simp [repeatStopOnSuccessRunIf]), if_neg (by simp [repeatStopOnSuccessRunIf,
    isObject]), hbranch]
  simp [parseRunIfBranch, hsource, orError, bind, Except.bind, Except.map]

theorem failed_of_branch {completed : Completed} {id : String}
    (h : nodeRunIfSatisfied serde (some (.branch id .failure)) completed = true) :
    ∃ r, completed id = some r ∧ r.status = .failed := by
  unfold nodeRunIfSatisfied at h
  simp only [WorkflowRunIf.source] at h
  cases hr : completed id with
  | none => simp [hr] at h
  | some r =>
    refine ⟨r, rfl, ?_⟩
    cases hstatus : r.status <;> simp [hr, WorkflowRunIf.admits, hstatus] at h ⊢

/-- Where the active nodes come from. -/
def FromSpec (spec : WorkflowSpec) (st : DagState) : Prop :=
  (∀ p ∈ st.forEachPending, p ∈ spec.forEachPending) ∧
    ∀ n ∈ st.activeNodes, n ∈ spec.nodes ∨
      ∃ p ∈ spec.forEachPending, ∃ k, n.id = forEachNodeId p.baseId k

theorem id_expandOne {p : ForEachPendingSpec} {r : NodeRunResult} {n : WorkflowNodeSpec}
    (hn : n ∈ expandOne serde p r) : ∃ k, n.id = forEachNodeId p.baseId k := by
  unfold expandOne at hn
  split at hn
  · cases hn
  · cases hn
  · obtain ⟨k, hk, rfl⟩ := mem_mapIdx.mp hn
    exact ⟨k, rfl⟩

theorem fromSpec_run (ops : List Completion) :
    FromSpec spec (Run.run (iterate serde spec) (start spec) ops) := by
  refine run_invariant (FromSpec spec) ?_ ?_ ⟨fun _ h => h, fun _ h => .inl h⟩ ops
  · rintro st ⟨hpending, hactive⟩ -
    refine ⟨fun p hp => hpending p (mem_of_mem_filter hp), fun n hn => ?_⟩
    rcases mem_append.mp hn with hn | hn
    · exact hactive n hn
    obtain ⟨p, hp, hmem⟩ := mem_flatMap.mp hn
    cases hr : st.completed p.source with
    | none => simp [hr] at hmem
    | some r =>
      have hmem : n ∈ expandOne serde p r := by simpa [hr] using hmem
      exact .inr ⟨p, hpending p hp, id_expandOne hmem⟩
  · rintro lk c st st' ⟨hpending, hactive⟩ hact
    rw [FromSpec, hact.forEachPending_eq, hact.activeNodes_eq]
    exact ⟨hpending, hactive⟩

end Output

section Rounds

variable {serde : Serde} {spec : WorkflowSpec} {ops : List Completion}

/-- The only node that is ever started under a static id is the static one. -/
theorem DistinctIds.eq_of_launched (hd : DistinctIds spec) {l : Launch}
    (hl : l ∈ (Run.run (iterate serde spec) (start spec) ops).launched) {n : WorkflowNodeSpec}
    (hn : n ∈ spec.nodes) (hid : l.node.id = n.id) : l.node = n := by
  have hcons : Consistent serde (Run.run (iterate serde spec) (start spec) ops) :=
    consistent_run ops
  have hactive := hcons.launched_active l hl
  rcases (fromSpec_run ops).2 _ hactive with hstatic | ⟨p, hp, k, hk⟩
  · exact inj_on_of_nodup_map hd.nodes hstatic hn hid
  · refine absurd ?_ (hd.loops p hp k)
    rw [← hk, hid]
    exact mem_map_of_mem hn

/-- A later round runs on the failure of the one before, so all rounds run under the condition of
the first. -/
theorem guardHolds_round (hd : DistinctIds spec) {f : StepFields} {i count : ℕ} {baseId t : String}
    (hne : baseId ≠ "") (ht : baseId = trimString t) {whenV : JsonValue} {run : Option JsonValue}
    (hrun : whenRunIf (some whenV) = .ok run) {stopOn : RepeatStopOn}
    (hstop : count = 1 ∨ stopOn = .success)
    (hspec : ∀ k < count, ∃ j, repeatNode f i baseId run stopOn k = .ok j ∧
      ∃ n ∈ spec.nodes, parseNodeFromValue j none = .ok n)
    {k : ℕ} (hk : k < count) {j : JsonValue} (hj : repeatNode f i baseId run stopOn k = .ok j)
    {l : Launch} (hl : l ∈ (Run.run (iterate serde spec) (start spec) ops).launched)
    (hn : parseNodeFromValue j none = .ok l.node) : GuardHolds serde l.completed whenV := by
  have hcons : Consistent serde (Run.run (iterate serde spec) (start spec) ops) :=
    consistent_run ops
  induction k generalizing j l with
  | zero => exact guardHolds_of_node hn (repeatNode_fields hj).2 hrun (hcons.launched_runIf l hl)
  | succ k ih =>
    have hsuccess : stopOn = .success := by
      rcases hstop with hone | hsuccess
      · omega
      · exact hsuccess
    -- The round behind another one is conditioned on the failure of that one.
    have hif := (parseNode_fields hn).2 (repeatStopOnSuccessRunIf (repeatNodeId baseId (k + 1)))
      (by rw [(repeatNode_fields hj).2, repeatRunIf, if_pos hsuccess])
    rw [parse_repeatStopOnSuccessRunIf hne ht] at hif
    have hsat := hcons.launched_runIf l hl
    rw [← Except.ok.inj hif] at hsat
    obtain ⟨r, hr, hfailed⟩ := failed_of_branch hsat
    obtain ⟨l', hl', hid, hext⟩ := (failuresRan_run ops).2 l hl _ r hr hfailed
    -- It was started, and no other node has its id.
    obtain ⟨j', hj', n', hn', hparse⟩ := hspec k (by omega)
    have hid' : strField j' "id" = some n'.id := (parseNode_fields hparse).1
    rw [(repeatNode_fields hj').1] at hid'
    obtain rfl : l'.node = n' := hd.eq_of_launched hl' hn' (hid.trans (Option.some.inj hid'))
    exact (ih (by omega) hj' hl' hparse).mono hext

theorem compileFrom_of_compileFlatSteps {fs : List StepFields} {outs : List StepOutput}
    (h : compileFlatSteps fs = .ok outs) : compileFrom 0 [] fs = .ok outs := by
  unfold compileFlatSteps at h
  split at h
  · cases h
  split at h
  · cases h
  obtain ⟨outs', houts', h⟩ := bind_eq_ok.mp h
  obtain ⟨_, -, h⟩ := bind_eq_ok.mp h
  cases h
  exact houts'

/-- A step with a condition and without a loop: its nodes, and what they carry. -/
theorem guardHolds_step (hd : DistinctIds spec) {f : StepFields} {i : ℕ} {seen : List String}
    {out : StepOutput} (hstep : compileOneFlatStep f i seen = .ok out) (hloop : f.forEach = none)
    {whenV : JsonValue} (hwhen : f.whenV = some whenV)
    (hrepeat : ∀ r, parseRepeatSpec f i = .ok (some r) → r.count = 1 ∨ r.stopOn = .success)
    (hspec : ∀ j ∈ out.nodes, ∃ n ∈ spec.nodes, parseNodeFromValue j none = .ok n)
    {l : Launch} (hl : l ∈ (Run.run (iterate serde spec) (start spec) ops).launched)
    (hyields : out.Yields l.node) : GuardHolds serde l.completed whenV := by
  have hcons : Consistent serde (Run.run (iterate serde spec) (start spec) ops) :=
    consistent_run ops
  simp only [compileOneFlatStep, hloop, Option.isSome_none, Bool.false_and, Bool.false_eq_true,
    if_false, compilePlainAuthorStep] at hstep
  obtain ⟨rep, hrep, hstep⟩ := bind_eq_ok.mp hstep
  cases rep with
  | none =>
    obtain ⟨id, -, hstep⟩ := bind_eq_ok.mp hstep
    obtain ⟨seen', -, hstep⟩ := bind_eq_ok.mp hstep
    obtain ⟨fields, hfields, hstep⟩ := bind_eq_ok.mp hstep
    obtain ⟨run, hrun, hstep⟩ := bind_eq_ok.mp hstep
    obtain ⟨_, -, -, hnone⟩ := compilePlainStepNode_fields hfields
    cases hstep
    rcases hyields with ⟨j, hj, hn⟩ | ⟨p, hp, -⟩
    · obtain rfl := mem_singleton.mp hj
      refine guardHolds_of_node hn ?_ (hwhen ▸ hrun) (hcons.launched_runIf l hl)
      simp [get?_obj_append, get?_optionalField, hnone]
    · cases hp
  | some r =>
    obtain ⟨nodes, hnodes, hstep⟩ := bind_eq_ok.mp hstep
    obtain ⟨seen', -, hstep⟩ := bind_eq_ok.mp hstep
    cases hstep
    unfold expandRepeatStepNodes at hnodes
    obtain ⟨baseId, hbase, hnodes⟩ := bind_eq_ok.mp hnodes
    obtain ⟨run, hrun, hnodes⟩ := bind_eq_ok.mp hnodes
    have hrel := mapM_ok hnodes
    rcases hyields with ⟨j, hj, hn⟩ | ⟨p, hp, -⟩
    · obtain ⟨k, hk, hj'⟩ := exists_of_forall₂ hrel hj
      have hid : trimmedStr f.id = some baseId := by
        cases hopt : trimmedStr f.id with
        | none => simp [mapRequiredId, hopt, orError] at hbase
        | some b => simpa [mapRequiredId, hopt, orError] using hbase
      obtain ⟨hne, t, ht⟩ := trimmedStr_eq_some hid
      refine guardHolds_round hd hne ht (hwhen ▸ hrun) (hrepeat r hrep) (fun m hm => ?_)
        (mem_range.mp hk) hj' hl hn
      obtain ⟨j', hj'', hnode⟩ := exists_of_forall₂ hrel.flip (mem_range.mpr hm)
      exact ⟨j', hnode, hspec j' hj''⟩
    · cases hp

end Rounds

/-- Where the conditions on the way to each step are carried by the step itself, a node is started
only on results of which all of them hold: of every run, whatever the nodes return and in whatever
order they finish. -/
theorem guards_preserved (serde : Serde) (steps : List AuthorStep) (maxParallelism : ℕ)
    (failFast : Bool) (outs : List StepOutput) (spec : WorkflowSpec)
    (hcompile : compileFlatSteps (flattenAuthorSteps steps) = .ok outs)
    (hparse : parseCompiled maxParallelism failFast outs = .ok spec)
    (hcarried : ∀ s ∈ placedSteps steps, s.guards = [] ∨ Carried s) (hdistinct : DistinctIds spec)
    (ops : List Completion) (l : Launch)
    (hl : l ∈ (Run.run (iterate serde spec) (start spec) ops).launched) (k : ℕ) (s : Placed)
    (hs : (placedSteps steps)[k]? = some s) (out : StepOutput) (hout : outs[k]? = some out)
    (hyields : out.Yields l.node) : ∀ g ∈ s.guards, GuardHolds serde l.completed g := by
  intro g hg
  have hcar : Carried s := by
    rcases hcarried s (mem_of_getElem? hs) with hnil | hcar
    · rw [hnil] at hg
      cases hg
    · exact hcar
  have hflat : (flattenAuthorSteps steps)[k]? = some s.flat := by
    rw [← flat_placedSteps, getElem?_map, hs]
    rfl
  obtain ⟨seen, hstep⟩ :=
    compileFrom_getElem? (compileFrom_of_compileFlatSteps hcompile) hflat hout
  exact guardHolds_step hdistinct hstep hcar.noLoop (hcar.single g hg) (hcar.repeats _)
    (fun j hj => exists_node_of_output hparse (mem_of_getElem? hout) hj) hl hyields

section Documents

def lintFailed : JsonValue := .obj [("from", .str "lint"), ("branch", .str "failure")]

def lintStep : AuthorStep := .plain { id := some (.str "lint"), tool := some (.str "cargo_clippy") }

def lintJson : JsonValue :=
  .obj [("id", .str "lint"), ("tool", .str "cargo_clippy"), ("tool_args", .obj []),
    ("deps", .arr [])]

def lintNode : WorkflowNodeSpec :=
  ⟨"lint", "cargo_clippy", .obj [], [], false, none, [], 0, none, none⟩

def noJson : Serde := ⟨fun _ => none, fun _ => ""⟩

def returning (status : NodeRunStatus) : Completion :=
  ⟨0, fun l => ⟨l.node.id, status, "", false, none, none, 1⟩⟩

/-- A choice behind the lint, with a fix for the case that it fails. -/
def fixSteps : List AuthorStep :=
  [lintStep, .choice none (some (.arr [.str "lint"])) [.mk (some lintFailed)
    [.plain { id := some (.str "fix"), tool := some (.str "cargo_fix") }]]]

def fixJson : JsonValue :=
  .obj [("id", .str "fix"), ("tool", .str "cargo_fix"), ("tool_args", .obj []),
    ("deps", .arr [.str "lint"]), ("run_if", lintFailed)]

def fixOutputs : List StepOutput :=
  [⟨["lint"], [lintJson], []⟩, ⟨["fix", "lint"], [fixJson], []⟩]

def fixFlow : WorkflowSpec :=
  ⟨4, false, [lintNode, ⟨"fix", "cargo_fix", .obj [], ["lint"], false, none, [], 0, none,
    some (.branch "lint" .failure)⟩], []⟩

/-- The fix is started when the lint has failed. -/
theorem guards_preserved_fix :
    ∃ l ∈ (Run.run (iterate noJson fixFlow) (start fixFlow)
      [returning .failed, returning .passed]).launched,
      l.node.id = "fix" ∧ GuardHolds noJson l.completed lintFailed := by
  have hcarried : ∀ s ∈ placedSteps fixSteps, s.guards = [] ∨ Carried s := by
    intro s hs
    rcases mem_cons.mp hs with rfl | hs
    · exact .inl rfl
    obtain rfl := mem_singleton.mp hs
    refine .inr ⟨fun g hg => ?_, rfl, fun i r hr => ?_⟩
    · obtain rfl := mem_singleton.mp hg
      rfl
    · cases hr
  have hdistinct : DistinctIds fixFlow := ⟨by decide, fun p hp => by cases hp⟩
  refine ⟨_, mem_cons_self, rfl, ?_⟩
  exact guards_preserved noJson fixSteps 4 false fixOutputs fixFlow (by decide) (by decide)
    hcarried hdistinct [returning .failed, returning .passed] _ mem_cons_self 1 _ rfl _ rfl
    (.inl ⟨fixJson, by decide, by decide⟩) lintFailed (by decide)

/-- A deletion of files that is to happen when the lint fails. -/
def cleanSteps : List AuthorStep :=
  [lintStep, .plain {
    id := some (.str "clean")
    tool := some (.str "delete_file")
    after := some (.arr [.str "lint"])
    whenV := some lintFailed
    forEach := some (.obj [("from", .str "lint"), ("static_items", .arr [.str "a.rs"])]) }]

def cleanNode : WorkflowNodeSpec :=
  ⟨"clean_0", "delete_file", .obj [], ["lint"], false, none, [], 0, none, none⟩

def cleanOutputs : List StepOutput :=
  [⟨["lint"], [lintJson], []⟩,
    ⟨["clean", "lint"], [workflowNodeSpecToJson cleanNode], []⟩]

def cleanFlow : WorkflowSpec := ⟨4, true, [lintNode, cleanNode], []⟩

/-- The lint passes, and the deletion is started all the same. -/
theorem guard_of_loop_lost :
    acceptedSteps cleanSteps = true ∧
    compileFlatSteps (flattenAuthorSteps cleanSteps) = .ok cleanOutputs ∧
    parseCompiled 4 true cleanOutputs = .ok cleanFlow ∧ validateDag cleanFlow.nodes = .ok () ∧
    ∃ s out, (placedSteps cleanSteps)[1]? = some s ∧ cleanOutputs[1]? = some out ∧
      ∃ l ∈ (Run.run (iterate noJson cleanFlow) (start cleanFlow)
        [returning .passed, returning .passed]).launched,
        out.Yields l.node ∧ ∃ g ∈ s.guards, ¬ GuardHolds noJson l.completed g := by
  refine ⟨by decide, by decide, by decide, by decide, _, _, rfl, rfl, _, mem_cons_self,
    .inl ⟨workflowNodeSpecToJson cleanNode, by decide, by decide⟩, lintFailed, by decide, ?_⟩
  rintro ⟨j, cond, hj, hcond, hif⟩
  obtain rfl : lintFailed = j := Except.ok.inj hj
  obtain rfl : WorkflowRunIf.branch "lint" .failure = cond :=
    Option.some.inj (Except.ok.inj hcond)
  exact absurd hif (by decide)

end Documents

end CrabMate.Workflow
