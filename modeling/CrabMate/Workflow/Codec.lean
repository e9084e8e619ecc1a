import Mathlib
import CrabMate.Workflow.Model

/-! The JSON form of workflow nodes and loops. The compiler of the author layer writes it and the
workflow parser reads it; both list the fields by hand. -/
namespace CrabMate.Workflow
open RustStr JsonValue Option

section Encode

def strArray (xs : List String) : JsonValue := .arr (xs.map .str)

def numJson (n : ℕ) : JsonValue := .num n.repr

def workflowNodeSpecToJson (n : WorkflowNodeSpec) : JsonValue :=
  .obj ([("id", .str n.id), ("tool", .str n.toolName), ("tool_args", n.toolArgs),
      ("deps", strArray n.deps)] ++
    (if n.requiresApproval then [("requires_approval", .bool true)] else []) ++
    (n.timeoutSecs.map fun t => ("timeout_secs", numJson t.toNat)).toList ++
    (if n.compensateWith ≠ [] then [("compensate_with", strArray n.compensateWith)] else []) ++
    (if 0 < n.maxRetries.toNat then [("max_retries", numJson n.maxRetries.toNat)] else []))

def forEachPendingToJson (spec : ForEachPendingSpec) : JsonValue :=
  .obj ([("base_id", .str spec.baseId), ("from", .str spec.source)] ++
    (spec.jsonPath.map fun p => ("json_path", .str p)).toList ++
    [("item_var", .str spec.itemVar), ("max_items", numJson spec.maxItems.toNat),
      ("parallel", .bool spec.parallel), ("tool", .str spec.toolName),
      ("tool_args", spec.toolArgsTemplate), ("extra_deps", strArray spec.extraDeps)])

end Encode

section Decode

def strField (v : JsonValue) (key : String) : Option String := (v.get? key).bind (·.asStr?)

def u64Field (v : JsonValue) (key : String) : Option ℕ := (v.get? key).bind (·.asU64?)

def boolField (v : JsonValue) (key : String) : Bool := ((v.get? key).bind (·.asBool?)).getD false

/-- The strings of an array field; what is no array and what is no string in it is passed over. -/
def strListField (v : JsonValue) (key : String) : List String :=
  (((v.get? key).bind (·.asArr?)).map (·.filterMap (·.asStr?))).getD []

def trimmedStrField (v : JsonValue) (key : String) : Option String :=
  ((strField v key).map trimString).filter (!·.isEmpty)

def isObject : JsonValue → Bool
  | .obj _ => true
  | _ => false

def toolRoleFromJson : JsonValue → Option WorkflowNodeToolRole
  | .str "review_readonly" => some .reviewReadonly
  | .str "patch_write" => some .patchWrite
  | .str "test_runner" => some .testRunner
  | _ => none

def orError {α : Type} (o : Option α) (message : String) : Except String α :=
  o.elim (.error message) .ok

def parseRunIfBranch (v : JsonValue) (branch : String) : Except String WorkflowRunIf := do
  let source ← orError (trimmedStrField v "from") "run_if.branch 须提供 from"
  match branch with
  | "success" => .ok (.branch source .success)
  | "failure" => .ok (.branch source .failure)
  | other => .error s!"run_if.branch 未知值: {other}（支持 success|failure）"

def parseRunIfMatch (v : JsonValue) : Except String WorkflowRunIf := do
  let m ← orError (v.get? "match") "run_if 须含 branch 或 match"
  if !isObject m then throw "run_if.match 必须是对象"
  let source ← orError (trimmedStrField v "from") "run_if.match 须提供 from"
  let field ← orError (trimmedStrField m "field") "run_if.match 须提供 field"
  let equals := m.get? "equals"
  let inList := (m.get? "in").bind (·.asArr?)
  if equals.isNone && inList.isNone then throw "run_if.match 须提供 equals 或 in"
  .ok (.fieldMatch source field equals inList)

def parseRunIfJson (v : JsonValue) : Except String (Option WorkflowRunIf) :=
  if v = .null then .ok none
  else if !isObject v then .error "run_if 必须是对象"
  else
    match strField v "branch" with
    | some branch => (parseRunIfBranch v branch).map some
    | none => (parseRunIfMatch v).map some

def parseNodeRunIf (runIf : Option JsonValue) : Except String (Option WorkflowRunIf) :=
  match runIf with
  | none => .ok none
  | some r => parseRunIfJson r

def parseNodeFromValue (v : JsonValue) (forcedId : Option String) :
    Except String WorkflowNodeSpec := do
  let id ← orError (forcedId.or (strField v "id")) "node 缺少 id"
  let toolName ← orError ((strField v "tool_name").or (strField v "tool"))
    s!"node {id} 缺少 tool_name"
  let runIf ← parseNodeRunIf (v.get? "run_if")
  .ok {
    id := id
    toolName := toolName
    toolArgs := (v.get? "tool_args").getD (.obj [])
    deps := strListField v "deps"
    requiresApproval := boolField v "requires_approval"
    timeoutSecs := (u64Field v "timeout_secs").map UInt64.ofNat
    compensateWith := strListField v "compensate_with"
    maxRetries := UInt32.ofNat (min ((u64Field v "max_retries").getD 0) 5)
    nodeToolRole := ((v.get? "node_tool_role").or (v.get? "executor_kind")).bind toolRoleFromJson
    runIf := runIf }

def parseOneForEachPending (v : JsonValue) (i : ℕ) : Except String ForEachPendingSpec := do
  let baseId ← orError (trimmedStrField v "base_id") s!"for_each_pending[{i}] 缺少 base_id"
  let source ← orError (trimmedStrField v "from") s!"for_each_pending[{i}] 缺少 from"
  let toolName ← orError (strField v "tool") s!"for_each_pending[{i}] 缺少 tool"
  .ok {
    baseId := baseId
    source := source
    jsonPath := strField v "json_path"
    staticItems := none
    itemVar := (strField v "item_var").getD "item"
    maxItems := UInt64.ofNat ((u64Field v "max_items").getD 32)
    parallel := boolField v "parallel"
    toolName := toolName
    toolArgsTemplate := (v.get? "tool_args").getD (.obj [])
    requiresApproval := false
    timeoutSecs := none
    compensateWith := []
    maxRetries := 0
    nodeToolRole := none
    extraDeps := strListField v "extra_deps" }

end Decode

section Template

/-- What a node does, apart from its id and its condition. -/
structure NodeTemplate where
  toolName : String
  toolArgs : JsonValue
  deps : List String
  requiresApproval : Bool
  timeoutSecs : Option UInt64
  compensateWith : List String
  maxRetries : UInt32
  nodeToolRole : Option WorkflowNodeToolRole
  deriving DecidableEq

def ForEachPendingSpec.template (p : ForEachPendingSpec) : NodeTemplate :=
  ⟨p.toolName, p.toolArgsTemplate, p.extraDeps, p.requiresApproval, p.timeoutSecs,
    p.compensateWith, p.maxRetries, p.nodeToolRole⟩

def WorkflowNodeSpec.template (n : WorkflowNodeSpec) : NodeTemplate :=
  ⟨n.toolName, n.toolArgs, n.deps, n.requiresApproval, n.timeoutSecs, n.compensateWith,
    n.maxRetries, n.nodeToolRole⟩

end Template

section RoundTrip

theorem asU64?_numJson {n : ℕ} (h : n < UInt64.size) : (numJson n).asU64? = some n := by
  simp [numJson, asU64?, h]

theorem strListField_of {v : JsonValue} {key : String} {xs : List String}
    (h : v.get? key = some (strArray xs)) : strListField v key = xs := by
  simp [strListField, h, strArray, asArr?, List.filterMap_map, asStr?]

theorem trimmedStrField_of {v : JsonValue} {key s : String} (h : v.get? key = some (.str s)) :
    trimmedStrField v key = if trimString s = "" then none else some (trimString s) := by
  simp only [trimmedStrField, strField, h, bind_some, asStr?, map_some,
    filter_some]
  by_cases hs : trimString s = "" <;> simp [hs]

theorem get?_workflowNodeSpecToJson (n : WorkflowNodeSpec) (key : String) :
    (workflowNodeSpecToJson n).get? key =
      (if 0 < n.maxRetries.toNat ∧ "max_retries" = key then
        some (numJson n.maxRetries.toNat) else none).or
      ((if n.compensateWith ≠ [] ∧ "compensate_with" = key then
        some (strArray n.compensateWith) else none).or
      ((if "timeout_secs" = key then n.timeoutSecs.map fun t => numJson t.toNat else none).or
      ((if n.requiresApproval = true ∧ "requires_approval" = key then
        some (.bool true) else none).or
      ((if "deps" = key then some (strArray n.deps) else none).or
      ((if "tool_args" = key then some n.toolArgs else none).or
      ((if "tool" = key then some (.str n.toolName) else none).or
        (if "id" = key then some (.str n.id) else none))))))) := by
  simp only [workflowNodeSpecToJson, get?_obj_append, get?_obj_ite, get?_obj_toList, get?_obj_cons,
    get?_obj_nil, none_or, Option.or_assoc]

/-- The parser reads a written node back, except for its role and for retries above the cap. -/
theorem parse_workflowNodeSpecToJson (n : WorkflowNodeSpec) :
    parseNodeFromValue (workflowNodeSpecToJson n) none = .ok
      { n with
        maxRetries := UInt32.ofNat (min n.maxRetries.toNat 5)
        nodeToolRole := none
        runIf := none } := by
  have hretries : (u64Field (workflowNodeSpecToJson n) "max_retries").getD 0 =
      n.maxRetries.toNat := by
    have hlt : n.maxRetries.toNat < UInt64.size := by
      have := n.maxRetries.toNat_lt
      simp only [UInt64.size]
      omega
    by_cases hpos : 0 < n.maxRetries.toNat
    · simp [u64Field, get?_workflowNodeSpecToJson, hpos, asU64?_numJson hlt]
    · have hzero : n.maxRetries.toNat = 0 := by omega
      simp [u64Field, get?_workflowNodeSpecToJson, hzero]
  have htimeout : (u64Field (workflowNodeSpecToJson n) "timeout_secs").map UInt64.ofNat =
      n.timeoutSecs := by
    cases htime : n.timeoutSecs with
    | none => simp [u64Field, get?_workflowNodeSpecToJson, htime]
    | some t => simp [u64Field, get?_workflowNodeSpecToJson, htime, asU64?_numJson t.toNat_lt]
  have hcompensate : strListField (workflowNodeSpecToJson n) "compensate_with" =
      n.compensateWith := by
    by_cases hnil : n.compensateWith = []
    · simp [strListField, get?_workflowNodeSpecToJson, hnil]
    · exact strListField_of (by simp [get?_workflowNodeSpecToJson, hnil])
  have hdeps : strListField (workflowNodeSpecToJson n) "deps" = n.deps :=
    strListField_of (by simp [get?_workflowNodeSpecToJson])
  have happroval : boolField (workflowNodeSpecToJson n) "requires_approval" =
      n.requiresApproval := by
    cases happ : n.requiresApproval <;> simp [boolField, get?_workflowNodeSpecToJson, happ, asBool?]
  unfold parseNodeFromValue
  rw [hretries, htimeout, hcompensate, hdeps, happroval]
  simp [strField, get?_workflowNodeSpecToJson, orError, asStr?, parseNodeRunIf, bind, Except.bind]

theorem get?_forEachPendingToJson (p : ForEachPendingSpec) (key : String) :
    (forEachPendingToJson p).get? key =
      (if "extra_deps" = key then some (strArray p.extraDeps) else none).or
      ((if "tool_args" = key then some p.toolArgsTemplate else none).or
      ((if "tool" = key then some (.str p.toolName) else none).or
      ((if "parallel" = key then some (.bool p.parallel) else none).or
      ((if "max_items" = key then some (numJson p.maxItems.toNat) else none).or
      ((if "item_var" = key then some (.str p.itemVar) else none).or
      ((if "json_path" = key then p.jsonPath.map .str else none).or
      ((if "from" = key then some (.str p.source) else none).or
        (if "base_id" = key then some (.str p.baseId) else none)))))))) := by
  simp only [forEachPendingToJson, get?_obj_append, get?_obj_toList, get?_obj_cons, get?_obj_nil,
    none_or, Option.or_assoc]

/-- A written loop is read back with a default for every field the writer leaves out. -/
theorem parse_forEachPendingToJson (p : ForEachPendingSpec) (i : ℕ)
    (hbase : trimString p.baseId ≠ "") (hsource : trimString p.source ≠ "") :
    parseOneForEachPending (forEachPendingToJson p) i = .ok
      { p with
        baseId := trimString p.baseId
        source := trimString p.source
        staticItems := none
        requiresApproval := false
        timeoutSecs := none
        compensateWith := []
        maxRetries := 0
        nodeToolRole := none } := by
  have hbase' : trimmedStrField (forEachPendingToJson p) "base_id" =
      some (trimString p.baseId) := by
    rw [trimmedStrField_of (s := p.baseId) (by simp [get?_forEachPendingToJson]), if_neg hbase]
  have hsource' : trimmedStrField (forEachPendingToJson p) "from" =
      some (trimString p.source) := by
    rw [trimmedStrField_of (s := p.source) (by simp [get?_forEachPendingToJson]), if_neg hsource]
  have hpath : strField (forEachPendingToJson p) "json_path" = p.jsonPath := by
    cases hpath : p.jsonPath <;> simp [strField, get?_forEachPendingToJson, hpath, asStr?]
  have hitems : u64Field (forEachPendingToJson p) "max_items" = some p.maxItems.toNat := by
    simp [u64Field, get?_forEachPendingToJson, asU64?_numJson p.maxItems.toNat_lt]
  have hdeps : strListField (forEachPendingToJson p) "extra_deps" = p.extraDeps :=
    strListField_of (by simp [get?_forEachPendingToJson])
  unfold parseOneForEachPending
  rw [hbase', hsource', hpath, hitems, hdeps]
  simp [strField, boolField, get?_forEachPendingToJson, orError, asStr?, asBool?, bind, Except.bind]

/-- A loop without an id or a source is not read back. -/
theorem parse_forEachPendingToJson_error (p : ForEachPendingSpec) (i : ℕ)
    (h : trimString p.baseId = "" ∨ trimString p.source = "") :
    ∃ message, parseOneForEachPending (forEachPendingToJson p) i = .error message := by
  have hbase : trimmedStrField (forEachPendingToJson p) "base_id" =
      if trimString p.baseId = "" then none else some (trimString p.baseId) :=
    trimmedStrField_of (by simp [get?_forEachPendingToJson])
  have hsource : trimmedStrField (forEachPendingToJson p) "from" =
      if trimString p.source = "" then none else some (trimString p.source) :=
    trimmedStrField_of (by simp [get?_forEachPendingToJson])
  unfold parseOneForEachPending
  rw [hbase, hsource]
  by_cases hblank : trimString p.baseId = ""
  · exact ⟨_, by rw [if_pos hblank]; rfl⟩
  · rw [if_neg hblank, if_pos (h.resolve_left hblank)]
    exact ⟨_, rfl⟩

/-- The loop can be written without losing anything of its template. -/
def Plain (p : ForEachPendingSpec) : Prop :=
  trimString p.baseId ≠ "" ∧ trimString p.source ≠ "" ∧ p.requiresApproval = false ∧
    p.timeoutSecs = none ∧ p.compensateWith = [] ∧ p.maxRetries = 0 ∧ p.nodeToolRole = none

theorem ofNat_min_eq_self_iff (n : UInt32) : UInt32.ofNat (min n.toNat 5) = n ↔ n ≤ 5 := by
  rw [UInt32.le_iff_toNat_le]
  constructor
  · intro h
    have := congrArg UInt32.toNat h
    simp only [UInt32.toNat_ofNat'] at this
    simp only [UInt32.reduceToNat]
    omega
  · intro h
    simp only [UInt32.reduceToNat] at h
    rw [Nat.min_eq_left h]
    simp

end RoundTrip

/-- A written loop is read back with its template exactly when it leaves every field the writer
passes over at its default, and a node expanded from a loop when it has no role and no more retries
than the parser's cap. -/
theorem loop_round_trip_iff (p : ForEachPendingSpec) (i : ℕ) (items : List String) :
    ((∃ q, parseOneForEachPending (forEachPendingToJson p) i = .ok q ∧ q.template = p.template) ↔
      Plain p) ∧
    ∀ n ∈ buildForEachNodes p items,
      (∃ m, parseNodeFromValue (workflowNodeSpecToJson n) none = .ok m ∧
        m.template = n.template) ↔ n.nodeToolRole = none ∧ n.maxRetries ≤ 5 := by
  constructor
  · by_cases hid : trimString p.baseId = "" ∨ trimString p.source = ""
    · obtain ⟨message, herr⟩ := parse_forEachPendingToJson_error p i hid
      rw [herr]
      constructor
      · rintro ⟨q, hq, -⟩
        cases hq
      · rintro ⟨hbase, hsource, -⟩
        exact absurd hid (by simp [hbase, hsource])
    · rw [not_or] at hid
      rw [parse_forEachPendingToJson p i hid.1 hid.2]
      simp only [Except.ok.injEq, exists_eq_left', ForEachPendingSpec.template, Plain,
        NodeTemplate.mk.injEq, true_and]
      constructor
      · rintro ⟨happ, htime, hcomp, hret, hrole⟩
        exact ⟨hid.1, hid.2, happ.symm, htime.symm, hcomp.symm, hret.symm, hrole.symm⟩
      · rintro ⟨-, -, happ, htime, hcomp, hret, hrole⟩
        exact ⟨happ.symm, htime.symm, hcomp.symm, hret.symm, hrole.symm⟩
  · intro n _
    rw [parse_workflowNodeSpecToJson]
    simp only [Except.ok.injEq, exists_eq_left', WorkflowNodeSpec.template, NodeTemplate.mk.injEq,
      true_and, ofNat_min_eq_self_iff]
    constructor
    · rintro ⟨hret, hrole⟩
      exact ⟨hrole.symm, hret⟩
    · rintro ⟨hrole, hret⟩
      exact ⟨hret, hrole.symm⟩

/-- Each of its nodes is to ask before it deletes a file. -/
def deleteLoop : ForEachPendingSpec :=
  ⟨"each", "scan", some "$.files", none, "item", 32, false, "delete_file", .obj [], true, none, [],
    0, none, ["scan"]⟩

/-- The loop is read back, and its nodes no longer ask. -/
theorem loop_loses_approval :
    (∃ q, parseOneForEachPending (forEachPendingToJson deleteLoop) 0 = .ok q ∧
      q.requiresApproval = false) ∧
    ¬ ∃ q, parseOneForEachPending (forEachPendingToJson deleteLoop) 0 = .ok q ∧
      q.template = deleteLoop.template := by
  have hread := parse_forEachPendingToJson deleteLoop 0 (by decide) (by decide)
  refine ⟨⟨_, hread, rfl⟩, ?_⟩
  rintro ⟨q, hq, htemplate⟩
  rw [hread] at hq
  cases hq
  exact absurd (congrArg NodeTemplate.requiresApproval htemplate) (by decide)

end CrabMate.Workflow
