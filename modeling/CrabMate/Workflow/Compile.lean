import CrabMate.Lib.Except
import CrabMate.Workflow.Codec

/-! The author layer: steps with conditions, loops, repetitions and choices, and their compilation
to nodes. A choice is flattened first; its branch conditions are merged into the steps. -/
namespace CrabMate.Workflow
open RustStr JsonValue

section Steps

/-- The fields of a step object that the compiler reads. -/
structure StepFields where
  id : Option JsonValue := none
  tool : Option JsonValue := none
  toolName : Option JsonValue := none
  args : Option JsonValue := none
  toolArgs : Option JsonValue := none
  after : Option JsonValue := none
  whenV : Option JsonValue := none
  forEach : Option JsonValue := none
  repeatV : Option JsonValue := none
  requiresApproval : Option JsonValue := none
  timeoutSecs : Option JsonValue := none
  compensateWith : Option JsonValue := none
  maxRetries : Option JsonValue := none
  nodeToolRole : Option JsonValue := none
  executorKind : Option JsonValue := none
  deriving DecidableEq

mutual
/-- A step: a tool call, or a choice with its own condition and dependencies. -/
inductive AuthorStep where
  | plain (fields : StepFields)
  | choice (whenV after : Option JsonValue) (branches : List AuthorBranch)

inductive AuthorBranch where
  | mk (whenV : Option JsonValue) (steps : List AuthorStep)
end

/-- What a branch adds to a substep: its condition and the dependencies of the choice, each where
the substep has none. -/
def mergeChoiceSubstep (branchWhen sharedAfter : Option JsonValue) (sub : StepFields) :
    StepFields :=
  { sub with whenV := sub.whenV.or branchWhen, after := sub.after.or sharedAfter }

-- A substep is merged on the way down, so the two values a branch adds are arguments here. The
-- condition of a choice is filled in as well and then not read.
mutual
def flattenOneStep (branchWhen sharedAfter : Option JsonValue) : AuthorStep → List StepFields
  | .plain fields => [mergeChoiceSubstep branchWhen sharedAfter fields]
  | .choice _ after branches => flattenBranches (after.or sharedAfter) branches

def flattenBranches (sharedAfter : Option JsonValue) : List AuthorBranch → List StepFields
  | [] => []
  | .mk whenV steps :: rest =>
    flattenSubsteps whenV sharedAfter steps ++ flattenBranches sharedAfter rest

def flattenSubsteps (branchWhen sharedAfter : Option JsonValue) :
    List AuthorStep → List StepFields
  | [] => []
  | step :: rest =>
    flattenOneStep branchWhen sharedAfter step ++ flattenSubsteps branchWhen sharedAfter rest
end

def flattenAuthorSteps (steps : List AuthorStep) : List StepFields :=
  flattenSubsteps none none steps

end Steps

section Compile

def trimmedStr (v : Option JsonValue) : Option String :=
  ((v.bind (·.asStr?)).map trimString).filter (!·.isEmpty)

def mapRequiredId (f : StepFields) (i : ℕ) (ctx : String) : Except String String :=
  orError (trimmedStr f.id) s!"steps[{i}] {ctx}"

def mapToolName (f : StepFields) (i : ℕ) : Except String String :=
  orError (trimmedStr (f.tool.or f.toolName)) s!"steps[{i}] 缺少 tool"

def parseAfterDeps (after : Option JsonValue) (i : ℕ) : Except String (List String) :=
  match after with
  | none => .ok []
  | some v => do
    let items ← orError v.asArr? s!"steps[{i}].after 必须是字符串数组"
    items.mapM fun item => orError (trimmedStr (some item)) s!"steps[{i}].after 含非字符串项"

def stepArgs (f : StepFields) : JsonValue := (f.args.or f.toolArgs).getD (.obj [])

def optionalField (key : String) (v : Option JsonValue) : List (String × JsonValue) :=
  (v.map fun x => (key, x)).toList

def stepDeps (f : StepFields) (i : ℕ) (depsOverride : Option (List String)) :
    Except String (List String) :=
  match depsOverride with
  | some deps => .ok deps
  | none => parseAfterDeps f.after i

/-- The JSON fields of a node; `idOverride` and `depsOverride` are given for a repetition. -/
def compilePlainStepNode (f : StepFields) (i : ℕ) (idOverride : Option String)
    (depsOverride : Option (List String)) : Except String (List (String × JsonValue)) := do
  let toolName ← mapToolName f i
  let deps ← stepDeps f i depsOverride
  let id ← orError (idOverride.or (trimmedStr f.id)) s!"steps[{i}] 缺少 id"
  .ok ([("id", .str id), ("tool", .str toolName), ("tool_args", stepArgs f),
      ("deps", strArray deps)] ++
    optionalField "requires_approval" f.requiresApproval ++
    optionalField "timeout_secs" f.timeoutSecs ++
    optionalField "compensate_with" f.compensateWith ++
    optionalField "max_retries" f.maxRetries ++
    optionalField "node_tool_role" f.nodeToolRole ++
    optionalField "executor_kind" f.executorKind)

def parseWhenToRunIfJson (whenV : JsonValue) : Except String JsonValue :=
  let source := (whenV.get? "from").getD .null
  match whenV.get? "branch", whenV.get? "match" with
  | some branch, _ => .ok (.obj [("from", source), ("branch", branch)])
  | none, some m => .ok (.obj [("from", source), ("match", m)])
  | none, none => .error "when 须含 branch 或 match"

/-- The `run_if` field compiled from a condition, if there is one. -/
def whenRunIf (whenV : Option JsonValue) : Except String (Option JsonValue) :=
  match whenV with
  | none => .ok none
  | some v => (parseWhenToRunIfJson v).map some

inductive RepeatStopOn where
  | success
  | never
  deriving DecidableEq

structure RepeatSpec where
  count : ℕ
  stopOn : RepeatStopOn
  deriving DecidableEq

def maxRepeatCount : ℕ := 5

def parseStopOn (i : ℕ) : String → Except String RepeatStopOn
  | "success" => .ok .success
  | "never" => .ok .never
  | other => .error s!"steps[{i}].repeat.stop_on 未知值: {other}（支持 success|never）"

def parseRepeatSpec (f : StepFields) (i : ℕ) : Except String (Option RepeatSpec) :=
  match f.repeatV.filter isObject with
  | none => .ok none
  | some rep => do
    let count ← orError (u64Field rep "count") s!"steps[{i}].repeat 缺少 count"
    if count = 0 ∨ maxRepeatCount < count then
      throw s!"steps[{i}].repeat.count 须在 1..={maxRepeatCount} 内"
    let stopOn ← parseStopOn i ((trimmedStrField rep "stop_on").getD "success")
    .ok (some ⟨count, stopOn⟩)

def repeatNodeId (baseId : String) (k : ℕ) : String := baseId ++ "_" ++ toString k

def repeatStopOnSuccessRunIf (prevId : String) : JsonValue :=
  .obj [("from", .str prevId), ("branch", .str "failure")]

/-- The condition of the round behind `k` others: the step's own for the first round, and for the
others a failure of the round before, unless the repetition never stops. -/
def repeatRunIf (baseId : String) (whenRunIf : Option JsonValue) (stopOn : RepeatStopOn) :
    ℕ → Option JsonValue
  | 0 => whenRunIf
  | k + 1 =>
    if stopOn = .success then some (repeatStopOnSuccessRunIf (repeatNodeId baseId (k + 1)))
    else none

/-- Each round waits for the one before. -/
def repeatDeps (f : StepFields) (i : ℕ) (baseId : String) : ℕ → Except String (List String)
  | 0 => parseAfterDeps f.after i
  | k + 1 => .ok [repeatNodeId baseId (k + 1)]

def repeatNode (f : StepFields) (i : ℕ) (baseId : String) (run : Option JsonValue)
    (stopOn : RepeatStopOn) (k : ℕ) : Except String JsonValue := do
  let deps ← repeatDeps f i baseId k
  let fields ← compilePlainStepNode f i (some (repeatNodeId baseId (k + 1))) (some deps)
  .ok (.obj (fields ++ optionalField "run_if" (repeatRunIf baseId run stopOn k)))

def expandRepeatStepNodes (f : StepFields) (i : ℕ) (r : RepeatSpec) :
    Except String (List JsonValue) := do
  let baseId ← mapRequiredId f i "缺少 id"
  let run ← whenRunIf f.whenV
  (List.range r.count).mapM (repeatNode f i baseId run r.stopOn)

def insertUniqueStepId (seen : List String) (id : String) : Except String (List String) :=
  if id ∈ seen then .error s!"steps 中重复的 id: {id}" else .ok (id :: seen)

def insertUniqueStepIds (seen : List String) (nodes : List JsonValue) :
    Except String (List String) :=
  nodes.foldlM (fun seen node => insertUniqueStepId seen ((strField node "id").getD "")) seen

def defaultForEachMaxItems : ℕ := 32

def parseForEachStep (f : StepFields) (i : ℕ) : Except String ForEachPendingSpec := do
  let baseId ← mapRequiredId f i "for_each 缺少 id"
  let fe ← orError (f.forEach.filter isObject) s!"steps[{i}].for_each 必须是对象"
  let source ← orError (trimmedStrField fe "from") s!"steps[{i}].for_each 缺少 from"
  let maxItems := min ((u64Field fe "max_items").getD defaultForEachMaxItems) 64
  if maxItems = 0 then throw s!"steps[{i}].for_each.max_items 须 ≥ 1"
  let jsonPath := trimmedStrField fe "json_path"
  let staticItems := ((fe.get? "static_items").bind (·.asArr?)).map (·.filterMap (·.asStr?))
  if jsonPath.isNone && (staticItems.getD []).isEmpty then
    throw s!"steps[{i}].for_each 须提供 json_path 或 static_items"
  let toolName ← mapToolName f i
  let extraDeps ← parseAfterDeps f.after i
  .ok {
    baseId := baseId
    source := source
    jsonPath := jsonPath
    staticItems := staticItems
    itemVar := (trimmedStrField fe "item_var").getD "item"
    maxItems := UInt64.ofNat maxItems
    parallel := boolField fe "parallel"
    toolName := toolName
    toolArgsTemplate := stepArgs f
    requiresApproval := (f.requiresApproval.bind (·.asBool?)).getD false
    timeoutSecs := (f.timeoutSecs.bind (·.asU64?)).map UInt64.ofNat
    compensateWith :=
      ((f.compensateWith.bind (·.asArr?)).map (·.filterMap (·.asStr?))).getD []
    maxRetries := UInt32.ofNat (min ((f.maxRetries.bind (·.asU64?)).getD 0) 5)
    nodeToolRole := (f.nodeToolRole.or f.executorKind).bind toolRoleFromJson
    extraDeps := extraDeps }

/-- What one step adds, and the ids used so far. -/
structure StepOutput where
  seen : List String
  nodes : List JsonValue
  pending : List ForEachPendingSpec
  deriving DecidableEq

def compileForEachAuthorStep (f : StepFields) (i : ℕ) (seen : List String) :
    Except String StepOutput := do
  let spec ← parseForEachStep f i
  let seen ← insertUniqueStepId seen spec.baseId
  match spec.staticItems with
  | some items => .ok ⟨seen, (buildForEachNodes spec items).map workflowNodeSpecToJson, []⟩
  | none => .ok ⟨seen, [], [spec]⟩

def compilePlainAuthorStep (f : StepFields) (i : ℕ) (seen : List String) :
    Except String StepOutput := do
  match ← parseRepeatSpec f i with
  | some r =>
    let nodes ← expandRepeatStepNodes f i r
    let seen ← insertUniqueStepIds seen nodes
    .ok ⟨seen, nodes, []⟩
  | none =>
    let id ← mapRequiredId f i "缺少 id"
    let seen ← insertUniqueStepId seen id
    let fields ← compilePlainStepNode f i none none
    let run ← whenRunIf f.whenV
    .ok ⟨seen, [.obj (fields ++ optionalField "run_if" run)], []⟩

def compileOneFlatStep (f : StepFields) (i : ℕ) (seen : List String) : Except String StepOutput :=
  if f.forEach.isSome && f.repeatV.isSome then .error s!"steps[{i}] 不能同时含 for_each 与 repeat"
  else if f.forEach.isSome then compileForEachAuthorStep f i seen
  else compilePlainAuthorStep f i seen

/-- The output of each step, in order. -/
def compileFrom : ℕ → List String → List StepFields → Except String (List StepOutput)
  | _, _, [] => .ok []
  | i, seen, f :: rest => do
    let out ← compileOneFlatStep f i seen
    let outs ← compileFrom (i + 1) out.seen rest
    .ok (out :: outs)

def maxSteps : ℕ := 64

def nodeDeps (node : JsonValue) : List JsonValue := ((node.get? "deps").bind (·.asArr?)).getD []

def validateAfterRefs (nodes : List JsonValue) (pending : List ForEachPendingSpec) :
    Except String Unit :=
  let ids := nodes.filterMap (strField · "id") ++ pending.map ForEachPendingSpec.baseId
  nodes.forM fun node =>
    let id := (strField node "id").getD "?"
    (nodeDeps node).forM fun d => do
      let dep ← orError d.asStr? s!"节点 {id} deps 含非法项"
      if dep ∈ ids then .ok () else .error s!"节点 {id} 的 after 引用未知 id: {dep}"

def compileFlatSteps (steps : List StepFields) : Except String (List StepOutput) :=
  if steps.isEmpty then .error "steps 不能为空"
  else if maxSteps < steps.length then .error s!"steps 超过上限 {maxSteps}"
  else do
    let outs ← compileFrom 0 [] steps
    validateAfterRefs (outs.flatMap StepOutput.nodes) (outs.flatMap StepOutput.pending)
    .ok outs

/-- The workflow that the compiled steps are parsed to, under the given settings. -/
def parseCompiled (maxParallelism : ℕ) (failFast : Bool) (outs : List StepOutput) :
    Except String WorkflowSpec := do
  let nodes ← (outs.flatMap StepOutput.nodes).mapM (parseNodeFromValue · none)
  if nodes.isEmpty && (outs.flatMap StepOutput.pending).isEmpty then
    throw "workflow.nodes 不能为空（且无 for_each_pending）"
  let pending ← (outs.flatMap StepOutput.pending).zipIdx.mapM fun (p, i) =>
    parseOneForEachPending (forEachPendingToJson p) i
  .ok ⟨maxParallelism, failFast, nodes, pending⟩

end Compile

section Validate

def nonEmptyStr (v : JsonValue) : Bool := (v.asStr?).any (!·.isEmpty)

def isStrArray (v : JsonValue) : Bool := (v.asArr?).any (·.all fun x => x.asStr?.isSome)

def acceptedRepeat (v : JsonValue) : Bool :=
  match v with
  | .obj fields =>
    fields.all (fun kv => kv.1 = "count" || kv.1 = "stop_on") &&
      (u64Field v "count").any (fun n => 1 ≤ n && n ≤ 5) &&
      (v.get? "stop_on").all fun x => x = .str "success" || x = .str "never"
  | _ => false

/-- The schema of a step; what stands inside a branch is not looked at. -/
def acceptedStep : AuthorStep → Bool
  | .plain f =>
    f.id.any (fun v => nonEmptyStr v && (v.asStr?).any (·.length ≤ 128)) &&
      (f.tool.isSome || f.toolName.isSome) && f.tool.all nonEmptyStr &&
      f.toolName.all nonEmptyStr && f.args.all isObject && f.toolArgs.all isObject &&
      f.after.all (fun v => (v.asArr?).any (·.all nonEmptyStr)) && f.whenV.all isObject &&
      f.forEach.all isObject && f.repeatV.all acceptedRepeat &&
      f.requiresApproval.all (·.asBool?.isSome) &&
      f.timeoutSecs.all (fun v => (v.asU64?).any (1 ≤ ·)) && f.compensateWith.all isStrArray &&
      f.maxRetries.all (fun v => (v.asU64?).any (· ≤ 5)) &&
      f.nodeToolRole.all (·.asStr?.isSome) && f.executorKind.all (·.asStr?.isSome)
  | .choice whenV after branches =>
    whenV.all isObject && after.all (fun v => (v.asArr?).any (·.all nonEmptyStr)) &&
      !branches.isEmpty

def acceptedSteps (steps : List AuthorStep) : Bool :=
  !steps.isEmpty && steps.length ≤ 64 && steps.all acceptedStep

end Validate

end CrabMate.Workflow
