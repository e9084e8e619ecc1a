import CrabMate.Lib.Json
import CrabMate.Lib.Str

/-! The workflow data model: nodes with dependencies and a run condition, loops that are expanded
while the workflow runs, the JSON paths both read results through, and the check of the dependency
graph. -/
namespace CrabMate.Workflow
open RustStr

section Model

inductive WorkflowBranch where
  | success
  | failure
  deriving DecidableEq

inductive WorkflowRunIf where
  | branch (source : String) (branch : WorkflowBranch)
  | fieldMatch (source field : String) (equals : Option JsonValue)
      (inList : Option (List JsonValue))
  deriving DecidableEq

def WorkflowRunIf.source : WorkflowRunIf → String
  | .branch source _ => source
  | .fieldMatch source _ _ _ => source

inductive WorkflowNodeToolRole where
  | reviewReadonly
  | patchWrite
  | testRunner
  deriving DecidableEq

structure WorkflowNodeSpec where
  id : String
  toolName : String
  toolArgs : JsonValue
  deps : List String
  requiresApproval : Bool
  timeoutSecs : Option UInt64
  compensateWith : List String
  maxRetries : UInt32
  nodeToolRole : Option WorkflowNodeToolRole
  runIf : Option WorkflowRunIf
  deriving DecidableEq

structure ForEachPendingSpec where
  baseId : String
  source : String
  jsonPath : Option String
  staticItems : Option (List String)
  itemVar : String
  maxItems : UInt64
  parallel : Bool
  toolName : String
  toolArgsTemplate : JsonValue
  requiresApproval : Bool
  timeoutSecs : Option UInt64
  compensateWith : List String
  maxRetries : UInt32
  nodeToolRole : Option WorkflowNodeToolRole
  extraDeps : List String
  deriving DecidableEq

structure WorkflowSpec where
  maxParallelism : ℕ
  failFast : Bool
  nodes : List WorkflowNodeSpec
  forEachPending : List ForEachPendingSpec
  deriving DecidableEq

inductive NodeRunStatus where
  | passed
  | failed
  | skipped
  deriving DecidableEq

structure NodeRunResult where
  id : String
  status : NodeRunStatus
  output : String
  workspaceChanged : Bool
  exitCode : Option ℤ
  errorCode : Option String
  attempt : ℕ
  deriving DecidableEq

/-- The results so far, by node id. -/
abbrev Completed := String → Option NodeRunResult

/-- The JSON reader and printer the workflow calls: objects are read with their keys in order and
numbers in their printed form, so equal values are equal terms. -/
structure Serde where
  fromStr : String → Option JsonValue
  toStr : JsonValue → String

end Model

section JsonPath

/-- An unsigned machine number: digits behind an optional plus sign. -/
def parseUsize (s : Str) : Option ℕ :=
  let digits := match s with
    | '+' :: rest => rest
    | _ => s
  if digits.isEmpty || !digits.all Char.isDigit then none
  else
    let n := digits.foldl (fun n c => 10 * n + (c.toNat - 48)) 0
    if n < UInt64.size then some n else none

/-- The key of a pointer token; an escape other than `~0` and `~1` is an error. -/
def decodeJsonPointerToken : Str → Option Str
  | [] => some []
  | '~' :: '0' :: rest => (decodeJsonPointerToken rest).map ('~' :: ·)
  | '~' :: '1' :: rest => (decodeJsonPointerToken rest).map ('/' :: ·)
  | '~' :: _ => none
  | c :: rest => (decodeJsonPointerToken rest).map (c :: ·)

def indexInto (i : ℕ) : JsonValue → Option JsonValue
  | .arr xs => xs[i]?
  | _ => none

def navigatePointerToken (current : JsonValue) (token : Str) : Option JsonValue :=
  match current, parseUsize token with
  | .arr xs, some i => xs[i]?
  | _, _ => current.get? (String.ofList token)

def resolveJsonPointerRef (root : JsonValue) (pointer : Str) : Option JsonValue :=
  ((trim pointer).splitOn '/').tail.foldlM
    (fun cur raw => (decodeJsonPointerToken raw).bind (navigatePointerToken cur)) root

/-- The indices `[0][1]…` behind a field name; the brackets are consumed to the end. -/
def parseBracketSuffix : ℕ → Str → Option (List ℕ)
  | _, [] => some []
  | 0, _ :: _ => none
  | fuel + 1, '[' :: rest =>
    let num := trim (rest.takeWhile (· != ']'))
    match rest.dropWhile (· != ']') with
    | [] => none
    | _ :: tail =>
      (parseUsize num).bind fun i => (parseBracketSuffix fuel tail).map (i :: ·)
  | _ + 1, _ :: _ => none

def applyLegacySegment (cur : JsonValue) (seg : Str) (isFirst : Bool) : Option JsonValue :=
  let s := match isFirst, seg with
    | true, '$' :: rest => rest
    | _, _ => seg
  let field := trim (s.takeWhile (· != '['))
  let tail := s.dropWhile (· != '[')
  (if field.isEmpty then some cur else cur.get? (String.ofList field)).bind fun v =>
    (parseBracketSuffix tail.length tail).bind fun indices =>
      indices.foldlM (fun v i => indexInto i v) v

def resolveLegacyDotPathRef (root : JsonValue) (path : Str) : Option JsonValue :=
  match ((path.splitOn '.').map trim).filter (!·.isEmpty) with
  | [] => none
  | first :: rest =>
    (applyLegacySegment root first true).bind fun v =>
      rest.foldlM (fun cur seg => applyLegacySegment cur seg false) v

variable (serde : Serde)

def resolveJsonPathValue (json path : String) : Option JsonValue :=
  (serde.fromStr (trimString json)).bind fun root =>
    let path := trim path.toList
    if path.isEmpty then some root
    else if path.head? = some '/' then resolveJsonPointerRef root path
    else resolveLegacyDotPathRef root path

end JsonPath

section RunIf

def nodeDepsResolved (deps : List String) (completed : Completed) : Bool :=
  deps.all fun d => (completed d).isSome

variable (serde : Serde)

def extractMatchValue (r : NodeRunResult) (field : String) : Option JsonValue :=
  let field := trim field.toList
  if field.head? = some '/' ∨ field.head? = some '$' then
    resolveJsonPathValue serde r.output (String.ofList field)
  else (serde.fromStr (trimString r.output)).bind (·.get? (String.ofList field))

/-- Whether the result of the source node satisfies the condition. -/
def WorkflowRunIf.admits (r : NodeRunResult) : WorkflowRunIf → Bool
  | .branch _ b =>
    match r.status with
    | .passed => b = .success
    | .failed => b = .failure
    | .skipped => false
  | .fieldMatch _ field equals inList =>
    match extractMatchValue serde r field, equals, inList with
    | none, _, _ => false
    | some actual, some expected, _ => actual = expected
    | some actual, none, some list => list.any (actual = ·)
    | some _, none, none => false

def nodeRunIfSatisfied (runIf : Option WorkflowRunIf) (completed : Completed) : Bool :=
  match runIf with
  | none => true
  | some cond =>
    match completed cond.source with
    | none => false
    | some r => WorkflowRunIf.admits serde r cond

end RunIf

section ForEach

/-- Replaces the occurrences of `needle`, left to right; `skip` characters of a replaced one are
still to be passed over. -/
def replaceFrom (needle item : Str) : ℕ → Str → Str
  | _, [] => []
  | skip + 1, _ :: rest => replaceFrom needle item skip rest
  | 0, c :: rest =>
    if needle.isPrefixOf (c :: rest) then item ++ replaceFrom needle item (needle.length - 1) rest
    else c :: replaceFrom needle item 0 rest

def itemNeedle (itemVar : String) : Str := ['\x7b', '\x7b'] ++ itemVar.toList ++ ['\x7d', '\x7d']

mutual
def substituteItemInValue (itemVar item : String) : JsonValue → JsonValue
  | .str s => .str (String.ofList (replaceFrom (itemNeedle itemVar) item.toList 0 s.toList))
  | .arr xs => .arr (substituteItemInValues itemVar item xs)
  | .obj fields => .obj (substituteItemInFields itemVar item fields)
  | .null => .null
  | .bool b => .bool b
  | .num lit => .num lit

def substituteItemInValues (itemVar item : String) : List JsonValue → List JsonValue
  | [] => []
  | x :: xs => substituteItemInValue itemVar item x :: substituteItemInValues itemVar item xs

def substituteItemInFields (itemVar item : String) :
    List (String × JsonValue) → List (String × JsonValue)
  | [] => []
  | (k, x) :: xs =>
    (k, substituteItemInValue itemVar item x) :: substituteItemInFields itemVar item xs
end

def forEachNodeId (baseId : String) (i : ℕ) : String := baseId ++ "_" ++ toString i

def forEachNode (spec : ForEachPendingSpec) (i : ℕ) (item : String) : WorkflowNodeSpec where
  id := forEachNodeId spec.baseId i
  toolName := spec.toolName
  toolArgs := substituteItemInValue spec.itemVar item spec.toolArgsTemplate
  deps := spec.extraDeps ++
    if spec.parallel || i == 0 then [] else [forEachNodeId spec.baseId (i - 1)]
  requiresApproval := spec.requiresApproval
  timeoutSecs := spec.timeoutSecs
  compensateWith := spec.compensateWith
  maxRetries := spec.maxRetries
  nodeToolRole := spec.nodeToolRole
  runIf := none

/-- One node an item; a loop that is not parallel chains them. -/
def buildForEachNodes (spec : ForEachPendingSpec) (items : List String) : List WorkflowNodeSpec :=
  items.mapIdx fun i item => forEachNode spec i item

variable (serde : Serde)

def itemToString : JsonValue → String
  | .str s => s
  | .num lit => lit
  | other => serde.toStr other

def resolveForEachItems (spec : ForEachPendingSpec) (r : NodeRunResult) : Option (List String) :=
  match spec.staticItems with
  | some items => some (items.take (min spec.maxItems.toNat items.length))
  | none =>
    (spec.jsonPath.filter (!·.isEmpty)).bind fun path =>
      (resolveJsonPathValue serde r.output path).bind fun value =>
        value.asArr?.map fun xs => (xs.take spec.maxItems.toNat).map (itemToString serde)

/-- What a pending loop becomes once its source has a result: nothing for a skipped source and for
items that cannot be read. -/
def expandOne (spec : ForEachPendingSpec) (r : NodeRunResult) : List WorkflowNodeSpec :=
  match r.status, resolveForEachItems serde spec r with
  | .skipped, _ => []
  | _, none => []
  | _, some items => buildForEachNodes spec items

/-- The loops that stay pending, and the nodes the others become, in order. -/
def expandPendingForEach (pending : List ForEachPendingSpec) (completed : Completed) :
    List ForEachPendingSpec × List WorkflowNodeSpec :=
  (pending.filter fun p => (completed p.source).isNone,
    pending.flatMap fun p => ((completed p.source).map (expandOne serde p)).getD [])

end ForEach

section Dag

/-- Incoming edges of each id, a repeated id counted over all its nodes. -/
def indegree (nodes : List WorkflowNodeSpec) (id : String) : ℕ :=
  ((nodes.filter (·.id = id)).map (·.deps.length)).sum

/-- The ids that wait for `x`, once for each edge. -/
def successors (nodes : List WorkflowNodeSpec) (x : String) : List String :=
  nodes.flatMap fun n => (n.deps.filter (· = x)).map fun _ => n.id

def kahnConsumeSuccessors : List String → (String → ℕ) → List String → (String → ℕ) × List String
  | [], degree, next => (degree, next)
  | y :: ys, degree, next =>
    let degree' := Function.update degree y (degree y - 1)
    kahnConsumeSuccessors ys degree' (if degree' y = 0 then next ++ [y] else next)

/-- Each id enters the queue at most once, so `fuel` above the number of ids is never used up. -/
def kahnVisit (nodes : List WorkflowNodeSpec) : ℕ → (String → ℕ) → List String → ℕ
  | 0, _, _ => 0
  | _ + 1, _, [] => 0
  | fuel + 1, degree, x :: queue =>
    let (degree', queue') := kahnConsumeSuccessors (successors nodes x) degree queue
    1 + kahnVisit nodes fuel degree' queue'

def kahnVisitCount (nodes : List WorkflowNodeSpec) : ℕ :=
  kahnVisit nodes (nodes.length + 1) (indegree nodes)
    (((nodes.map WorkflowNodeSpec.id).dedup).filter fun id => indegree nodes id = 0)

def unknownDependencyError (nodes : List WorkflowNodeSpec) : Except String Unit :=
  match nodes.findSome? fun n =>
    (n.deps.find? fun d => !(nodes.any (·.id = d))).map fun d => (n.id, d) with
  | some (id, d) => .error s!"节点 {id} 依赖了未知节点 {d}"
  | none => .ok ()

def validateDag (nodes : List WorkflowNodeSpec) : Except String Unit := do
  unknownDependencyError nodes
  if kahnVisitCount nodes = nodes.length then .ok ()
  else .error "workflow 存在循环依赖（DAG 校验失败）"

end Dag

end CrabMate.Workflow
