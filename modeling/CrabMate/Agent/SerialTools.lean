import CrabMate.Lib.Table
import CrabMate.Tools.CommandSpec
import CrabMate.Tools.ToolOutput
import CrabMate.Tools.WriteEffect

/-! The serial execution of the tool calls of one turn: what answers a call before it is
dispatched, and the bookkeeping after a dispatch. The memos of the turn coordinator live as long as
the turn, the cache of read-only results and the flag for a changed workspace as long as a batch. -/
namespace CrabMate
open RustStr

/-- A `HashMap`. -/
abbrev Memo (K V : Type) := Table (Prod.fst : K × V → K)

def Memo.get? {K V : Type} [DecidableEq K] (m : Memo K V) (k : K) : Option V :=
  (m.lookup k).map Prod.snd

theorem Memo.get?_put_self {K V : Type} [DecidableEq K] (m : Memo K V) (k : K) (v : V) :
    Memo.get? (Table.put m (k, v)) k = some v :=
  congrArg (Option.map Prod.snd) (Table.lookup_put_self m (k, v))

theorem Memo.get?_put_of_ne {K V : Type} [DecidableEq K] (m : Memo K V) {k k' : K} (v : V)
    (h : k ≠ k') : Memo.get? (Table.put m (k, v)) k' = m.get? k' :=
  congrArg (Option.map Prod.snd) (Table.lookup_put_of_ne (r := (k, v)) m h)

structure TurnConfig where
  writeEffectTools : Option (List Str)
  readonlyToolTtlCacheSecs : ℕ
  reader : ArgsReader
  effectiveWorkingDir : Str

/-- One call, with what it meets outside the loop: the file system, the policy, the cache with a
time limit, and what the tool returns when it is dispatched. -/
structure SerialCall where
  name : Str
  args : Str
  host : CommandHost
  hasCargoToml : Bool
  cargoTomlCandidates : List Str
  denied : Option Str
  ttlCached : Option Str
  result : Str
  changesWorkspace : Bool

/-- Where the answer to a call comes from. -/
inductive AnswerSource where
  | preflight
  | policy
  | successMemo
  | failureMemo
  | ttlCache
  | readonlyCache
  | dispatch
  deriving DecidableEq

structure ToolEvent where
  call : SerialCall
  source : AnswerSource
  output : Str

structure TurnState where
  successfulRunCommands : Memo Str Str
  failedSignatures : Memo (Str × Str) Str
  failedFamilies : Memo (Str × Str) Str
  readonlyCache : Memo (Str × Str) Str
  workspaceChanged : Bool
  /-- The events of the turn, the last one first. -/
  log : List ToolEvent

def TurnState.start : TurnState :=
  ⟨Table.empty, Table.empty, Table.empty, Table.empty, false, []⟩

def runCommandName : Str := "run_command".toList

namespace TurnState

def markToolFailureSignature (st : TurnState) (name args marker : Str) : TurnState :=
  { st with failedSignatures := st.failedSignatures.put ((name, args), marker) }

def markToolFailureFamily (st : TurnState) (name family marker : Str) : TurnState :=
  { st with failedFamilies := st.failedFamilies.put ((name, family), marker) }

def clearToolFailureSignature (st : TurnState) (name args : Str) : TurnState :=
  { st with failedSignatures := st.failedSignatures.deleteWhere fun r => r.1 = (name, args) }

def clearToolFailureFamiliesForTool (st : TurnState) (name : Str) : TurnState :=
  { st with failedFamilies := st.failedFamilies.deleteWhere fun r => r.1.1 = name }

def clearAllRunCommandFailureState (st : TurnState) : TurnState :=
  { st with
    failedSignatures := st.failedSignatures.deleteWhere fun r => r.1.1 = runCommandName
    failedFamilies := st.failedFamilies.deleteWhere fun r => r.1.1 = runCommandName
    successfulRunCommands := Table.empty }

def recordSuccessfulRunCommand (st : TurnState) (key output : Str) : TurnState :=
  { st with successfulRunCommands := st.successfulRunCommands.put (key, output) }

def emit (st : TurnState) (call : SerialCall) (source : AnswerSource) (output : Str) : TurnState :=
  { st with log := ⟨call, source, output⟩ :: st.log }

end TurnState

section Guard

def classifyFamilyFromInvocation (command : Str) (args : List Str) : Option Str :=
  if command = "cd".toList && !(3 ≤ args.length && (args.drop 1).head? = some "&&".toList) then
    some "cd_prefix_invalid".toList
  else if args.any fun a => contains "..".toList a || startsWith ['/'] a then
    some "path_parent_or_absolute_forbidden".toList
  else none

def classifyFamilyFromSpec (spec : CommandSpec) : Option Str :=
  match spec.script with
  | some script => classifyFamilyFromInvocation "bash".toList ["-c".toList, script]
  | none =>
    if spec.command.isEmpty then none else classifyFamilyFromInvocation spec.command spec.args

variable (cfg : TurnConfig)

/-- The strict reading of a call's arguments. -/
def specOf (args : Str) : Option CommandSpec :=
  (parseCommandSpec cfg.reader args cfg.effectiveWorkingDir).toOption

def classifyFamilyFromResult (args : Str) (parsed : ParsedToolOutput) : Option Str :=
  if parsed.exitCode.isSome then
    if contains "No tests were found".toList parsed.stdout ||
        contains "No tests were found".toList parsed.stderr then
      some "ctest_no_tests_found".toList
    else none
  else
    match parsed.errorCode with
    | some code =>
      let commandIsCd := match specOf cfg args with
        | some spec => spec.command = "cd".toList
        | none =>
          ((parseRunCommandPayloadLenient cfg.reader.fromStr args).map fun inv =>
            decide (inv.1 = "cd".toList)).getD false
      if code = "cd_prefix_invalid".toList then some "cd_prefix_invalid".toList
      else if code = "unsafe_arg".toList then some "path_parent_or_absolute_forbidden".toList
      else if code = "command_not_found".toList && commandIsCd then
        some "shell_builtin_cd_unavailable".toList
      else none
    | none => (specOf cfg args).bind classifyFamilyFromSpec

def cargoSubcommandNeedsManifest (args : List Str) : Bool :=
  match args.find? fun s => !startsWith ['-'] s with
  | none => false
  | some sub =>
    (["build", "run", "test", "check", "clippy", "fmt"].map String.toList).contains sub

def cargoManifestMissing (args : List Str) : List Str → Str
  | [candidate] =>
    "错误：当前目录缺少 Cargo.toml，已阻止重复无效执行。请改为：`cargo ".toList ++
      [' '].intercalate args ++ " --manifest-path ".toList ++ candidate ++ ['`']
  | [] =>
    ("错误：当前目录缺少 Cargo.toml，已阻止重复无效执行。" ++
      "请先定位项目根目录，或改用 `--manifest-path <path>`。").toList
  | candidates =>
    "错误：当前目录缺少 Cargo.toml，且发现多个候选（".toList ++ ", ".toList.intercalate candidates ++
      "）。请显式使用 `--manifest-path <path>` 后重试。".toList

def runCommandCargoWorkdirPreflightError (call : SerialCall) : Option Str :=
  if call.name ≠ runCommandName then none
  else
    (specOf cfg call.args).bind fun spec =>
      if spec.command ≠ "cargo".toList || spec.args.contains "--manifest-path".toList ||
          !cargoSubcommandNeedsManifest spec.args || call.hasCargoToml then none
      else some (cargoManifestMissing spec.args call.cargoTomlCandidates)

def ctestDashCBuildMisuse : Str :=
  ("错误：检测到 `ctest -C build` 用法疑似错误；`-C` 是配置名（如 Debug/Release），不是构建目录。" ++
    "请改为 `ctest --test-dir build --output-on-failure`" ++
    "（或先 `cd build` 再运行 `ctest --output-on-failure`）。").toList

/-- `-C` directly before `build` or a path. -/
def namesBuildDirAsConfig : List Str → Bool
  | a :: b :: rest =>
    (a = "-C".toList && (b = "build".toList || b.contains '/')) || namesBuildDirAsConfig (b :: rest)
  | _ => false

def runCommandCtestPreflightError (call : SerialCall) : Option Str :=
  if call.name ≠ runCommandName then none
  else
    (specOf cfg call.args).bind fun spec =>
      if spec.command ≠ "ctest".toList || spec.args.contains "--test-dir".toList ||
          !namesBuildDirAsConfig spec.args then none
      else some ctestDashCBuildMisuse

end Guard

section Early

variable (cfg : TurnConfig)

def suppressKey (call : SerialCall) : Option Str :=
  runCommandDuplicateSuppressKeyWithCwd cfg.reader.fromStr call.args cfg.effectiveWorkingDir

def runCommandDuplicateSuppressedMsg : Str :=
  "命令重复执行已抑制：本轮内已成功执行过相同命令".toList

def successMemoAnswer (st : TurnState) (call : SerialCall) : Option Str :=
  if call.name ≠ runCommandName then none
  else ((suppressKey cfg call).bind st.successfulRunCommands.get?).map fun cached =>
    runCommandDuplicateSuppressedMsg ++ '\n' :: cached

def failureMemoAnswer (st : TurnState) (call : SerialCall) : Option Str :=
  if call.name ≠ runCommandName then none
  else
    match st.failedSignatures.get? (call.name, call.args) with
    | some prev => some ("错误：检测到同命令重复失败，已短路本次调用（error=".toList ++ prev ++
        ("）。请切换策略（例如调整工作目录、改用 --manifest-path、或先做目录/文件探测）。").toList)
    | none =>
      ((specOf cfg call.args).bind classifyFamilyFromSpec).bind fun family =>
        (st.failedFamilies.get? (call.name, family)).map fun prev =>
          "错误：检测到同类失败已发生（family=".toList ++ family ++ ", prev_error=".toList ++ prev ++
            "），已短路本次调用。请直接切换策略，避免继续同类试探。".toList

def ttlCacheAnswer (call : SerialCall) : Option Str :=
  if cfg.readonlyToolTtlCacheSecs = 0 ∨ call.name ≠ runCommandName then none
  else call.ttlCached.map fun cached =>
    "[只读命令短时缓存命中 · TTL≤".toList ++ (toString cfg.readonlyToolTtlCacheSecs).toList ++
      "s]\n".toList ++ cached

def readonlyCacheAnswer (st : TurnState) (call : SerialCall) : Option Str :=
  if toolOutputDedupCacheEligible cfg.writeEffectTools call.name then
    st.readonlyCache.get? (call.name, call.args)
  else none

/-- The memos and caches in the order in which they are asked. -/
def memoAnswer (st : TurnState) (call : SerialCall) : Option (AnswerSource × Str) :=
  ((((successMemoAnswer cfg st call).map fun text => (.successMemo, text)).or
    ((failureMemoAnswer cfg st call).map fun text => (.failureMemo, text))).or
    ((ttlCacheAnswer cfg call).map fun text => (.ttlCache, text))).or
    ((readonlyCacheAnswer cfg st call).map fun text => (.readonlyCache, text))

/-- The answer to a call that is not dispatched, with the marks that a failed preflight leaves. -/
def serialEmitEarlyWithoutDispatch (st : TurnState) (call : SerialCall) :
    Option (TurnState × AnswerSource × Str) :=
  match runCommandCargoWorkdirPreflightError cfg call with
  | some text => some (st.markToolFailureSignature call.name call.args
      "cargo_manifest_missing".toList, .preflight, text)
  | none =>
    match runCommandCtestPreflightError cfg call with
    | some text =>
      let marker := "ctest_dash_c_build_misuse".toList
      some ((st.markToolFailureSignature call.name call.args marker).markToolFailureFamily
        call.name marker marker, .preflight, text)
    | none =>
      match call.denied with
      | some text => some (st, .policy, text)
      | none => (memoAnswer cfg st call).map fun answer => (st, answer)

end Early

section AfterDispatch

variable (cfg : TurnConfig)

def parsedResult (call : SerialCall) : ParsedToolOutput :=
  parseToolOutput cfg.reader.fromStr call.name call.result

def runCommandInvocationIsMakeClean (args : Str) : Bool :=
  match specOf cfg args with
  | none => false
  | some spec => spec.command = "make".toList && spec.args.any fun a => a = "clean".toList

def failureMarker (parsed : ParsedToolOutput) : Str :=
  parsed.errorCode.getD
    ((parsed.exitCode.map fun c => "exit_code:".toList ++ (toString c).toList).getD
      "unknown".toList)

def serialBookkeepRunCommandFailure (st : TurnState) (call : SerialCall) : TurnState :=
  if call.name ≠ runCommandName then st
  else if (parsedResult cfg call).ok then
    let st := (st.clearToolFailureSignature call.name call.args).clearToolFailureFamiliesForTool
      call.name
    let st := match suppressKey cfg call with
      | some key => st.recordSuccessfulRunCommand key call.result
      | none => st
    if runCommandInvocationIsMakeClean cfg call.args then st.clearAllRunCommandFailureState else st
  else
    let marker := failureMarker (parsedResult cfg call)
    let st := st.markToolFailureSignature call.name call.args marker
    match classifyFamilyFromResult cfg call.args (parsedResult cfg call) with
    | some family => st.markToolFailureFamily call.name family marker
    | none => st

/-- The texts are searched for in the lower case of the result; those of ASCII letters have no
other lower-case source than their capitals. -/
def toolMessageHasSuccessEvidence (raw : Str) : Bool :=
  let lower := raw.map Char.toLower
  ["已替换", "已写入", "已创建文件", "apply_patch", "success"].any fun t => contains t.toList lower

def serialClearRunCommandFailuresAfterWorkspaceMutation (st : TurnState) (call : SerialCall) :
    TurnState :=
  if isReadonlyTool cfg.writeEffectTools call.name && !st.workspaceChanged then st
  else if !(parsedResult cfg call).ok && !toolMessageHasSuccessEvidence call.result then st
  else st.clearAllRunCommandFailureState

def updateReadonlyCache (st : TurnState) (call : SerialCall) : TurnState :=
  if toolOutputDedupCacheEligible cfg.writeEffectTools call.name then
    { st with readonlyCache := st.readonlyCache.put ((call.name, call.args), call.result) }
  else if !isReadonlyTool cfg.writeEffectTools call.name then
    { st with readonlyCache := Table.empty }
  else st

/-- A dispatch can only set the flag of the batch. -/
def dispatchToolCall (st : TurnState) (call : SerialCall) : TurnState :=
  { st with workspaceChanged := st.workspaceChanged || call.changesWorkspace }

def serialExecuteOneToolCall (st : TurnState) (call : SerialCall) : TurnState :=
  match serialEmitEarlyWithoutDispatch cfg st call with
  | some (st, source, text) => st.emit call source text
  | none =>
    let st := dispatchToolCall st call
    let st := serialBookkeepRunCommandFailure cfg st call
    let st := serialClearRunCommandFailuresAfterWorkspaceMutation cfg st call
    (updateReadonlyCache cfg st call).emit call .dispatch call.result

/-- What happens in a turn: a batch begins, or a call of the batch is executed. A batch that is
broken off is one with fewer calls. -/
inductive ToolTurnOp where
  | startBatch
  | call (call : SerialCall)

def toolTurnStep (st : TurnState) : ToolTurnOp → TurnState
  | .startBatch => { st with readonlyCache := Table.empty, workspaceChanged := false }
  | .call call => serialExecuteOneToolCall cfg st call

end AfterDispatch
end CrabMate
