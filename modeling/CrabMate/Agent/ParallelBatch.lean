import CrabMate.Agent.Reuse
import CrabMate.Lib.Buffered
import CrabMate.Llm.ToolResponses
import CrabMate.Tools.Envelope

/-! The execution of a batch of read-only tool calls. Equal calls are run once, a bounded number at
a time and ending in any order; the results go to the client and into the history in the order of
the calls. The client can go away at any moment. -/
namespace CrabMate
open RustStr List Option

section Mode

/-! When a batch is executed in this way. -/

inductive HandlerId where
  | workflow
  | runCommand
  | terminalSession
  | getWeather
  | webSearch
  | httpFetch
  | httpRequest
  | syncDefault
  deriving DecidableEq

def handlerDispatchMap : List (Str × HandlerId) :=
  [("workflow_execute".toList, .workflow), (runCommandName, .runCommand),
    ("terminal_session".toList, .terminalSession), ("get_weather".toList, .getWeather),
    ("web_search".toList, .webSearch), ("http_fetch".toList, .httpFetch),
    ("http_request".toList, .httpRequest)]

def handlerIdFor (name : Str) : HandlerId :=
  ((handlerDispatchMap.find? fun e => e.1 = name).map Prod.snd).getD .syncDefault

structure ToolRegistryPolicy where
  writeEffectTools : Option (List Str)
  parallelSyncDeniedTools : Option (List Str)
  parallelSyncDeniedPrefixes : Option (List Str)

def builtinParallelSyncDeniedExact : List Str :=
  ["repo_overview_sweep", "crate_contract_map", "codebase_semantic_search", "docs_health_sweep",
    "background_job_wait"].map String.toList

def builtinParallelSyncPrefixes : List Str :=
  ["cargo_", "npm_", "frontend_", "go_", "docker_", "podman_", "ruff_", "pytest", "mypy_", "uv_",
    "pre_commit", "python_", "gh_"].map String.toList

def parallelSyncBatchDenied (policy : ToolRegistryPolicy) (name : Str) : Bool :=
  (policy.parallelSyncDeniedTools.getD builtinParallelSyncDeniedExact).contains name ||
    (policy.parallelSyncDeniedPrefixes.getD builtinParallelSyncPrefixes).any fun p =>
      startsWith p name

def parallelBatchEligibleTool (policy : ToolRegistryPolicy) (name : Str) : Bool :=
  !parallelSyncBatchDenied policy name &&
    [HandlerId.syncDefault, .httpFetch, .getWeather, .webSearch].contains (handlerIdFor name)

def toolOkForParallelReadonlyBatchPiece (policy : ToolRegistryPolicy) (name : Str) : Bool :=
  toolOrigin name ≠ .mcp && isReadonlyTool policy.writeEffectTools name &&
    parallelBatchEligibleTool policy name

/-- The name of a call and its arguments, as the tools read them. -/
def ToolCall.toolName (call : ToolCall) : Str := call.function.name.toList

def ToolCall.key (call : ToolCall) : Str × Str := (call.toolName, call.function.arguments.toList)

def toolCallsAllowParallelSyncBatch (policy : ToolRegistryPolicy) (calls : List ToolCall) : Bool :=
  1 < calls.length &&
    calls.all fun call => toolOkForParallelReadonlyBatchPiece policy call.toolName

/-- The tools a role may call; a tool of an MCP server also under the name `mcp`. -/
def toolAllowedForTurn (name : Str) : Option (List Str) → Bool
  | none => true
  | some allow =>
    if toolOrigin name = .mcp then allow.contains "mcp".toList || allow.contains name
    else allow.contains name

def turnToolDeniedMessage (name : Str) : Str :=
  "错误：当前 Agent 角色不允许调用工具 `".toList ++ name ++
    "`（配置项 `allowed_tools`）。".toList

structure ToolBatchModeParams where
  forceSerial : Bool
  workspaceIsSet : Bool
  policy : ToolRegistryPolicy
  turnAllow : Option (List Str)

inductive ToolBatchExecutionMode where
  | parallelReadonlyBatch
  | serial
  deriving DecidableEq

def resolveToolBatchExecutionMode (params : ToolBatchModeParams) (calls : List ToolCall) :
    ToolBatchExecutionMode :=
  if params.forceSerial || !params.workspaceIsSet then .serial
  else if toolCallsAllowParallelSyncBatch params.policy calls &&
      calls.all fun call => toolAllowedForTurn call.toolName params.turnAllow then
    .parallelReadonlyBatch
  else .serial

end Mode

section Batch

/-- What a batch is executed with. The permission level, the limits of a plan step and the approval
of a call answer with the text of a refusal. -/
structure BatchContext where
  parallelReadonlyToolsMax : ℕ
  wallSecs : Str → ℕ
  approvalFailure : Str × Str → Option Str
  permissionDenial : Str → Option Str
  stepExecutorDenial : Str → Option Str
  turnAllow : Option (List Str)
  parallelBatchId : Str
  toolResultEnvelopeV1 : Bool
  serde : ToolJson
  summarizeToolCallArgs : Str → Str → Option Str
  structuredPayloadForTool : Str → Str → Option JsonValue

/-- How the run of a tool ends. -/
inductive ToolEnd where
  | returned (text : Str)
  | timedOut
  deriving DecidableEq

/-- What the client is sent. -/
inductive BatchEvent where
  | toolRunning (running : Bool)
  | toolStarted (id : String)
  | toolResult (id : String) (result : Str)
  | toolPhaseEnd
  | stateSnapshot
  deriving DecidableEq

inductive BatchPhase where
  | starting (rest : List ToolCall)
  | working
  | emitting (rest : List ToolCall)
  | finished
  | aborted

structure BatchState where
  sseClosed : Bool
  phase : BatchPhase
  /-- The calls without their repetitions, and how the runs of those that are over have ended. -/
  pool : Buffered.State ToolCall ToolEnd
  sent : List BatchEvent
  messages : List Message

/-- The steps of a batch, and the client going away. -/
inductive BatchOp where
  | disconnect
  | declare
  | pool (move : Buffered.Move ToolEnd)
  | collect
  | emit

/-- The loop over the calls with its `HashSet` of the pairs it has seen. -/
def uniqueCallsFrom (seen : List (Str × Str)) : List ToolCall → List ToolCall
  | [] => []
  | call :: rest =>
    if seen.contains call.key then uniqueCallsFrom seen rest
    else call :: uniqueCallsFrom (call.key :: seen) rest

def uniqueCalls (calls : List ToolCall) : List ToolCall := uniqueCallsFrom [] calls

variable (ctx : BatchContext)

def parallelMax : ℕ := max ctx.parallelReadonlyToolsMax 1

/-- The approvals are asked for before the tools run, for the tools that want one. -/
def prefetchParallelApprovalFailure (call : ToolCall) : Option Str :=
  if call.toolName = "http_fetch".toList ∨ call.toolName = "read_dir".toList then
    ctx.approvalFailure call.key
  else none

def toolPolicyEarlyDenyMessage (name : Str) : Option Str :=
  (ctx.permissionDenial name).or <| (ctx.stepExecutorDenial name).or <|
    if toolAllowedForTurn name ctx.turnAllow then none else some (turnToolDeniedMessage name)

def timeoutText (secs : ℕ) : Str :=
  "工具执行超时（".toList ++ (toString secs).toList ++ " 秒）".toList

/-- The text one of the futures ends with. -/
def futureText (call : ToolCall) (toolEnd : ToolEnd) : Str :=
  (prefetchParallelApprovalFailure ctx call).getD <|
    (toolPolicyEarlyDenyMessage ctx call.toolName).getD <|
      match toolEnd with
      | .returned text => text
      | .timedOut => timeoutText (ctx.wallSecs call.toolName)

def resultByNameArgs (outcomes : List (ToolCall × ToolEnd)) : Memo (Str × Str) Str :=
  outcomes.foldl (fun m o => m.put (o.1.key, futureText ctx o.1 o.2)) Table.empty

/-- The result that goes to a call. -/
def cachedResult (outcomes : List (ToolCall × ToolEnd)) (call : ToolCall) : Str :=
  ((resultByNameArgs ctx outcomes).get? call.key).getD []

def toolEnvelopeContext (call : ToolCall) : ToolEnvelopeContext :=
  ⟨call.id.toList, "parallel_readonly_batch".toList, some ctx.parallelBatchId⟩

def contentForModel (call : ToolCall) (result : Str) : Str :=
  if ctx.toolResultEnvelopeV1 then
    let summary := (ctx.summarizeToolCallArgs call.toolName call.function.arguments.toList).getD
      ("tool: ".toList ++ call.toolName)
    (NormalizedToolEnvelope.fromToolRun call.toolName summary
      (parseToolOutput ctx.serde.fromStr call.toolName result) result
      (some (toolEnvelopeContext ctx call))
      (ctx.structuredPayloadForTool call.toolName result)).encodeToMessageLine ctx.serde
  else result

/-- The row of the history that answers a call. -/
def toolRow (outcomes : List (ToolCall × ToolEnd)) (call : ToolCall) : Message :=
  .toolResult call.id (String.ofList (contentForModel ctx call (cachedResult ctx outcomes call)))

namespace BatchState

/-- The client is found gone: both the batch and its caller take the running mark back. -/
def abort (s : BatchState) : BatchState :=
  { s with phase := .aborted, sent := s.sent ++ [.toolRunning false, .toolRunning false] }

def declareOne (s : BatchState) (call : ToolCall) (rest : List ToolCall) : BatchState :=
  { s with phase := .starting rest, sent := s.sent ++ [.toolStarted call.id] }

def emitOne (s : BatchState) (call : ToolCall) (rest : List ToolCall) : BatchState :=
  { s with
    phase := .emitting rest
    sent := s.sent ++ [.toolResult call.id (cachedResult ctx s.pool.done call)]
    messages := s.messages ++ [toolRow ctx s.pool.done call] }

def finish (s : BatchState) : BatchState :=
  { s with
    phase := .finished
    sent := s.sent ++ [.toolPhaseEnd, .stateSnapshot, .toolRunning false] }

end BatchState

def batchStart (calls : List ToolCall) (history : List Message) : BatchState :=
  ⟨false, .starting calls, Buffered.ofJobs (uniqueCalls calls), [.toolRunning true], history⟩

def batchStep (calls : List ToolCall) (s : BatchState) : BatchOp → BatchState
  | .disconnect => { s with sseClosed := true }
  | .declare =>
    match s.phase with
    | .starting [] => { s with phase := .working }
    | .starting (call :: rest) => if s.sseClosed then s.abort else s.declareOne call rest
    | _ => s
  | .pool move =>
    match s.phase with
    | .working => { s with pool := Buffered.step (parallelMax ctx) s.pool move }
    | _ => s
  | .collect =>
    match s.phase with
    | .working => if s.pool.drained then { s with phase := .emitting calls } else s
    | _ => s
  | .emit =>
    match s.phase with
    | .emitting [] => s.finish
    | .emitting (call :: rest) => if s.sseClosed then s.abort else s.emitOne ctx call rest
    | _ => s

end Batch

section Pairs

variable {ctx : BatchContext} {calls : List ToolCall} {outcomes : List (ToolCall × ToolEnd)}

theorem key_mem_uniqueCallsFrom {k : Str × Str} (seen : List (Str × Str)) (calls : List ToolCall) :
    k ∈ (uniqueCallsFrom seen calls).map ToolCall.key ↔
      k ∈ calls.map ToolCall.key ∧ k ∉ seen := by
  induction calls generalizing seen with
  | nil => simp [uniqueCallsFrom]
  | cons call rest ih =>
    unfold uniqueCallsFrom
    by_cases hseen : call.key ∈ seen
    · rw [if_pos (contains_iff_mem.mpr hseen), ih, map_cons, mem_cons]
      constructor
      · exact fun h => ⟨.inr h.1, h.2⟩
      · rintro ⟨rfl | hk, hnot⟩
        · exact absurd hseen hnot
        · exact ⟨hk, hnot⟩
    · rw [if_neg (by simpa using hseen), map_cons, map_cons, mem_cons, mem_cons,
        ih, mem_cons, not_or]
      by_cases hk : k = call.key
      · simp [hk, hseen]
      · simp [hk]

theorem nodup_uniqueCallsFrom (seen : List (Str × Str)) (calls : List ToolCall) :
    ((uniqueCallsFrom seen calls).map ToolCall.key).Nodup := by
  induction calls generalizing seen with
  | nil => exact nodup_nil
  | cons call rest ih =>
    unfold uniqueCallsFrom
    split
    · exact ih seen
    · rw [map_cons, nodup_cons]
      refine ⟨fun hmem => ?_, ih _⟩
      exact ((key_mem_uniqueCallsFrom _ rest).mp hmem).2 mem_cons_self

/-- `dedup_readonly_tool_calls_count`. -/
def dedupReadonlyToolCallsCount (calls : List ToolCall) : ℕ :=
  (calls.foldl (fun seen call => if seen.contains call.key then seen else call.key :: seen)
    []).length

theorem length_uniqueCalls (calls : List ToolCall) :
    (uniqueCalls calls).length = dedupReadonlyToolCallsCount calls := by
  have hfold : ∀ (rest : List ToolCall) (seen : List (Str × Str)),
      (rest.foldl (fun seen call => if seen.contains call.key then seen else call.key :: seen)
        seen).length = (uniqueCallsFrom seen rest).length + seen.length := by
    intro rest
    induction rest with
    | nil => intro seen; simp [uniqueCallsFrom]
    | cons call rest ih =>
      intro seen
      unfold uniqueCallsFrom
      rw [foldl_cons, ih]
      split
      · rfl
      · simp only [length_cons]; omega
  exact (hfold calls []).symm

theorem futureText_congr {call call' : ToolCall} (h : call.key = call'.key) (toolEnd : ToolEnd) :
    futureText ctx call toolEnd = futureText ctx call' toolEnd := by
  have hname : call.toolName = call'.toolName := congrArg Prod.fst h
  simp only [futureText, prefetchParallelApprovalFailure, h, hname]

theorem get?_resultByNameArgs (hnodup : (outcomes.map fun o => o.1.key).Nodup)
    {o : ToolCall × ToolEnd} (ho : o ∈ outcomes) :
    (resultByNameArgs ctx outcomes).get? o.1.key = some (futureText ctx o.1 o.2) := by
  have hrest : ∀ (os : List (ToolCall × ToolEnd)) (m : Memo (Str × Str) Str) (k : Str × Str),
      k ∉ os.map (fun o => o.1.key) →
        Memo.get? (os.foldl (fun m o => m.put (o.1.key, futureText ctx o.1 o.2)) m) k =
          m.get? k := by
    intro os
    induction os with
    | nil => exact fun m k _ => rfl
    | cons q os ih =>
      intro m k hk
      rw [map_cons, mem_cons, not_or] at hk
      rw [foldl_cons, ih _ k hk.2, Memo.get?_put_of_ne m _ (Ne.symm hk.1)]
  have hall : ∀ (os : List (ToolCall × ToolEnd)) (m : Memo (Str × Str) Str),
      (os.map fun o => o.1.key).Nodup → o ∈ os →
        Memo.get? (os.foldl (fun m o => m.put (o.1.key, futureText ctx o.1 o.2)) m) o.1.key =
          some (futureText ctx o.1 o.2) := by
    intro os
    induction os with
    | nil => exact fun m _ hmem => absurd hmem not_mem_nil
    | cons q os ih =>
      intro m hnodup hmem
      rw [map_cons, nodup_cons] at hnodup
      rw [foldl_cons]
      rcases mem_cons.mp hmem with rfl | hmem
      · rw [hrest os _ _ hnodup.1, Memo.get?_put_self]
      · exact ih _ hnodup.2 hmem
  exact hall outcomes Table.empty hnodup ho

/-- The outcomes of all pairs of a batch. -/
def Complete (calls : List ToolCall) (outcomes : List (ToolCall × ToolEnd)) : Prop :=
  (uniqueCalls calls).Perm (outcomes.map Prod.fst)

theorem Complete.cachedResult_eq (h : Complete calls outcomes) (ctx : BatchContext)
    {call : ToolCall} (hcall : call ∈ calls) :
    ∃ o ∈ outcomes, o.1.key = call.key ∧
      cachedResult ctx outcomes call = futureText ctx call o.2 := by
  have hkeys := h.map ToolCall.key
  rw [List.map_map] at hkeys
  have hmem : call.key ∈ (uniqueCalls calls).map ToolCall.key :=
    (key_mem_uniqueCallsFrom [] calls).mpr ⟨List.mem_map_of_mem hcall, not_mem_nil⟩
  obtain ⟨o, ho, hkey⟩ := List.mem_map.mp (hkeys.mem_iff.mp hmem)
  have hnodup : (outcomes.map fun o => o.1.key).Nodup :=
    hkeys.nodup_iff.mp (nodup_uniqueCallsFrom [] calls)
  have hkey' : o.1.key = call.key := hkey
  refine ⟨o, ho, hkey', ?_⟩
  rw [cachedResult, ← hkey', get?_resultByNameArgs hnodup ho, getD_some,
    futureText_congr hkey']

end Pairs

section Runs

variable {ctx : BatchContext} {calls : List ToolCall} {history : List Message} {s : BatchState}

/-- What has reached the client and the history: the batch began, some calls were declared, some
were answered, and the batch took its end. -/
structure Told (ctx : BatchContext) (history : List Message) (declared answered : List ToolCall)
    (ending : List BatchEvent) (s : BatchState) : Prop where
  sent : s.sent = .toolRunning true :: (declared.map (fun call => .toolStarted call.id) ++
    answered.map (fun call => .toolResult call.id (cachedResult ctx s.pool.done call)) ++ ending)
  messages : s.messages = history ++ answered.map (toolRow ctx s.pool.done)

/-- How far a batch has come in each of its phases. -/
def PhaseSound (ctx : BatchContext) (calls : List ToolCall) (history : List Message)
    (s : BatchState) : Prop :=
  match s.phase with
  | .starting rest => ∃ front, calls = front ++ rest ∧ Told ctx history front [] [] s
  | .working => Told ctx history calls [] [] s
  | .emitting rest =>
    s.pool.drained ∧ ∃ front, calls = front ++ rest ∧ Told ctx history calls front [] s
  | .finished =>
    s.pool.drained ∧
      Told ctx history calls calls [.toolPhaseEnd, .stateSnapshot, .toolRunning false] s
  | .aborted =>
    s.sseClosed = true ∧ ∃ declared answered, declared <+: calls ∧ answered <+: calls ∧
      (answered ≠ [] → declared = calls ∧ s.pool.drained) ∧
      Told ctx history declared answered [.toolRunning false, .toolRunning false] s

structure BatchSound (ctx : BatchContext) (calls : List ToolCall) (history : List Message)
    (s : BatchState) : Prop where
  pool : Buffered.Sound (parallelMax ctx) (uniqueCalls calls) s.pool
  phase : PhaseSound ctx calls history s

theorem batchSound_start (ctx : BatchContext) (calls : List ToolCall) (history : List Message) :
    BatchSound ctx calls history (batchStart calls history) :=
  ⟨Buffered.sound_ofJobs _ _, [], rfl, rfl, (append_nil history).symm⟩

theorem Told.declareOne {front : List ToolCall} (h : Told ctx history front [] [] s)
    (call : ToolCall) (rest : List ToolCall) :
    Told ctx history (front ++ [call]) [] [] (s.declareOne call rest) := by
  refine ⟨?_, h.messages⟩
  simp [BatchState.declareOne, h.sent]

theorem Told.emitOne {front : List ToolCall} (h : Told ctx history calls front [] s)
    (call : ToolCall) (rest : List ToolCall) :
    Told ctx history calls (front ++ [call]) [] (s.emitOne ctx call rest) := by
  constructor
  · simp [BatchState.emitOne, h.sent]
  · simp [BatchState.emitOne, h.messages]

theorem Told.abort {declared answered : List ToolCall}
    (h : Told ctx history declared answered [] s) :
    Told ctx history declared answered [.toolRunning false, .toolRunning false] s.abort := by
  refine ⟨?_, h.messages⟩
  simp [BatchState.abort, h.sent]

theorem Told.of_none {declared : List ToolCall} {ending : List BatchEvent} {t : BatchState}
    (h : Told ctx history declared [] ending s) (hsent : t.sent = s.sent)
    (hmessages : t.messages = s.messages) : Told ctx history declared [] ending t := by
  have hwas := h.sent
  have hrows := h.messages
  rw [map_nil] at hwas hrows
  constructor
  · rw [hsent, hwas, map_nil]
  · rw [hmessages, hrows, map_nil]

theorem BatchSound.disconnect (h : BatchSound ctx calls history s) :
    BatchSound ctx calls history { s with sseClosed := true } := by
  refine ⟨h.pool, ?_⟩
  have hphase := h.phase
  unfold PhaseSound at hphase ⊢
  cases hp : s.phase with
  | starting rest =>
    simp only [hp] at hphase ⊢
    obtain ⟨front, hcalls, htold⟩ := hphase
    exact ⟨front, hcalls, htold.sent, htold.messages⟩
  | working =>
    simp only [hp] at hphase ⊢
    exact ⟨hphase.sent, hphase.messages⟩
  | emitting rest =>
    simp only [hp] at hphase ⊢
    obtain ⟨hover, front, hcalls, htold⟩ := hphase
    exact ⟨hover, front, hcalls, htold.sent, htold.messages⟩
  | finished =>
    simp only [hp] at hphase ⊢
    exact ⟨hphase.1, hphase.2.sent, hphase.2.messages⟩
  | aborted =>
    simp only [hp] at hphase ⊢
    obtain ⟨-, declared, answered, hd, ha, hover, htold⟩ := hphase
    exact ⟨trivial, declared, answered, hd, ha, hover, htold.sent, htold.messages⟩

theorem BatchSound.declare (h : BatchSound ctx calls history s) :
    BatchSound ctx calls history (batchStep ctx calls s .declare) := by
  have hphase := h.phase
  unfold PhaseSound at hphase
  cases hp : s.phase with
  | starting rest =>
    simp only [hp] at hphase
    obtain ⟨front, hcalls, htold⟩ := hphase
    cases rest with
    | nil =>
      rw [append_nil] at hcalls
      subst hcalls
      simp only [batchStep, hp]
      exact ⟨h.pool, htold.sent, htold.messages⟩
    | cons call rest =>
      by_cases hclosed : s.sseClosed = true
      · simp only [batchStep, hp, hclosed, if_true]
        refine ⟨h.pool, hclosed, front, [], ⟨_, hcalls.symm⟩, nil_prefix, ?_, htold.abort⟩
        exact fun hne => absurd rfl hne
      · simp only [batchStep, hp, hclosed, if_false, Bool.false_eq_true]
        exact ⟨h.pool, front ++ [call], by simp [hcalls], htold.declareOne call rest⟩
  | _ => simpa only [batchStep, hp] using h

theorem BatchSound.move (h : BatchSound ctx calls history s) (move : Buffered.Move ToolEnd) :
    BatchSound ctx calls history (batchStep ctx calls s (.pool move)) := by
  have hphase := h.phase
  unfold PhaseSound at hphase
  cases hp : s.phase with
  | working =>
    simp only [hp] at hphase
    simp only [batchStep, hp]
    refine ⟨h.pool.step move, ?_⟩
    simp only [PhaseSound]
    exact hphase.of_none rfl rfl
  | _ => simpa only [batchStep, hp] using h

theorem BatchSound.collect (h : BatchSound ctx calls history s) :
    BatchSound ctx calls history (batchStep ctx calls s .collect) := by
  have hphase := h.phase
  unfold PhaseSound at hphase
  cases hp : s.phase with
  | working =>
    simp only [hp] at hphase
    by_cases hover : s.pool.drained
    · simp only [batchStep, hp, hover, if_true]
      exact ⟨h.pool, hover, [], rfl, hphase.sent, hphase.messages⟩
    · simpa only [batchStep, hp, hover, if_false] using h
  | _ => simpa only [batchStep, hp] using h

theorem BatchSound.emit (h : BatchSound ctx calls history s) :
    BatchSound ctx calls history (batchStep ctx calls s .emit) := by
  have hphase := h.phase
  unfold PhaseSound at hphase
  cases hp : s.phase with
  | emitting rest =>
    simp only [hp] at hphase
    obtain ⟨hover, front, hcalls, htold⟩ := hphase
    cases rest with
    | nil =>
      rw [append_nil] at hcalls
      subst hcalls
      simp only [batchStep, hp]
      refine ⟨h.pool, hover, ?_, htold.messages⟩
      simp [BatchState.finish, htold.sent]
    | cons call rest =>
      by_cases hclosed : s.sseClosed = true
      · simp only [batchStep, hp, hclosed, if_true]
        exact ⟨h.pool, hclosed, calls, front, prefix_rfl, ⟨_, hcalls.symm⟩,
          fun _ => ⟨rfl, hover⟩, htold.abort⟩
      · simp only [batchStep, hp, hclosed, if_false, Bool.false_eq_true]
        exact ⟨h.pool, hover, front ++ [call], by simp [hcalls], htold.emitOne call rest⟩
  | _ => simpa only [batchStep, hp] using h

theorem BatchSound.step (h : BatchSound ctx calls history s) (op : BatchOp) :
    BatchSound ctx calls history (batchStep ctx calls s op) := by
  cases op with
  | disconnect => exact h.disconnect
  | declare => exact h.declare
  | pool move => exact h.move move
  | collect => exact h.collect
  | emit => exact h.emit

theorem batchSound_run (ctx : BatchContext) (calls : List ToolCall) (history : List Message)
    (ops : List BatchOp) :
    BatchSound ctx calls history (Run.run (batchStep ctx calls) (batchStart calls history) ops) :=
  Run.invariant' (fun _ op h => h.step op) (batchSound_start ctx calls history) ops

theorem BatchSound.complete (h : BatchSound ctx calls history s) (hover : s.pool.drained) :
    Complete calls s.pool.done := h.pool.perm_of_drained hover

/-- After any steps, in whatever order the tools end, a front of the calls is declared and, once all
of them are, a front of them is answered, to the client and in the history alike and in the order of
the calls, each with the text of the one run of its pair. A batch that is over has answered all
calls, unless the client was found gone; the running mark is taken back in both cases. -/
theorem parallel_batch_answers (ctx : BatchContext) (calls : List ToolCall)
    (history : List Message) (ops : List BatchOp) :
    let s := Run.run (batchStep ctx calls) (batchStart calls history) ops
    ∃ declared answered ending, declared <+: calls ∧ answered <+: calls ∧
      (answered ≠ [] → declared = calls) ∧ Told ctx history declared answered ending s ∧
      (∀ call ∈ answered, ∃ o ∈ s.pool.done, o.1.key = call.key ∧
        cachedResult ctx s.pool.done call = futureText ctx call o.2) ∧
      (s.phase = .finished → answered = calls ∧
        ending = [.toolPhaseEnd, .stateSnapshot, .toolRunning false]) ∧
      (s.phase = .aborted → s.sseClosed = true ∧
        ending = [.toolRunning false, .toolRunning false]) := by
  intro s
  have hsound := batchSound_run ctx calls history ops
  have hphase : PhaseSound ctx calls history s := hsound.phase
  have hanswers : s.pool.drained → ∀ answered : List ToolCall, answered <+: calls →
      ∀ call ∈ answered, ∃ o ∈ s.pool.done, o.1.key = call.key ∧
        cachedResult ctx s.pool.done call = futureText ctx call o.2 :=
    fun hover answered hpre call hcall =>
      (hsound.complete hover).cachedResult_eq ctx (hpre.subset hcall)
  unfold PhaseSound at hphase
  cases hp : s.phase with
  | starting rest =>
    simp only [hp] at hphase
    obtain ⟨front, hcalls, htold⟩ := hphase
    refine ⟨front, [], [], ⟨rest, hcalls.symm⟩, nil_prefix, ?_, htold,
      forall_mem_nil _, ?_⟩
    · exact fun hne => absurd rfl hne
    · exact ⟨fun heq => BatchPhase.noConfusion heq, fun heq => BatchPhase.noConfusion heq⟩
  | working =>
    simp only [hp] at hphase
    exact ⟨calls, [], [], prefix_rfl, nil_prefix, fun _ => rfl, hphase,
      forall_mem_nil _, fun heq => BatchPhase.noConfusion heq,
      fun heq => BatchPhase.noConfusion heq⟩
  | emitting rest =>
    simp only [hp] at hphase
    obtain ⟨hover, front, hcalls, htold⟩ := hphase
    have hpre : front <+: calls := ⟨rest, hcalls.symm⟩
    exact ⟨calls, front, [], prefix_rfl, hpre, fun _ => rfl, htold, hanswers hover front hpre,
      fun heq => BatchPhase.noConfusion heq, fun heq => BatchPhase.noConfusion heq⟩
  | finished =>
    simp only [hp] at hphase
    exact ⟨calls, calls, _, prefix_rfl, prefix_rfl, fun _ => rfl, hphase.2,
      hanswers hphase.1 calls prefix_rfl, fun _ => ⟨rfl, rfl⟩,
      fun heq => BatchPhase.noConfusion heq⟩
  | aborted =>
    simp only [hp] at hphase
    obtain ⟨hclosed, declared, answered, hd, ha, hover, htold⟩ := hphase
    refine ⟨declared, answered, _, hd, ha, fun hne => (hover hne).1, htold, ?_,
      fun heq => BatchPhase.noConfusion heq, fun _ => ⟨hclosed, rfl⟩⟩
    intro call hcall
    exact hanswers (hover (ne_nil_of_mem hcall)).2 answered ha call hcall

/-- Each pair of a name and arguments is run at most once, no more of them at a time than the
configuration allows, and no other pair is run. -/
theorem parallel_batch_once (ctx : BatchContext) (calls : List ToolCall) (history : List Message)
    (ops : List BatchOp) :
    let pool := (Run.run (batchStep ctx calls) (batchStart calls history) ops).pool
    let pairs := (pool.done.map Prod.fst ++ pool.inFlight ++ pool.waiting).map ToolCall.key
    pool.inFlight.length ≤ max ctx.parallelReadonlyToolsMax 1 ∧ pairs.Nodup ∧
      pairs.length = dedupReadonlyToolCallsCount calls ∧
      ∀ k, k ∈ pairs ↔ k ∈ calls.map ToolCall.key := by
  intro pool pairs
  have hpool := (batchSound_run ctx calls history ops).pool
  have hperm : ((uniqueCalls calls).map ToolCall.key).Perm pairs := hpool.perm.map ToolCall.key
  refine ⟨hpool.room, hperm.nodup_iff.mp (nodup_uniqueCallsFrom [] calls), ?_, fun k => ?_⟩
  · rw [← hperm.length_eq, List.length_map, length_uniqueCalls]
  · rw [← hperm.mem_iff]
    exact (key_mem_uniqueCallsFrom [] calls).trans (and_iff_left not_mem_nil)

/-- The steps a batch has before it, at most. -/
def stepsLeft (calls : List ToolCall) (s : BatchState) : ℕ :=
  match s.phase with
  | .starting rest => rest.length + s.pool.left + calls.length + 3
  | .working => s.pool.left + calls.length + 2
  | .emitting rest => rest.length + 1
  | .finished | .aborted => 0

theorem stepsLeft_step_le (ctx : BatchContext) (calls : List ToolCall) (s : BatchState)
    (op : BatchOp) : stepsLeft calls (batchStep ctx calls s op) ≤ stepsLeft calls s := by
  cases op with
  | disconnect => exact Nat.le_refl _
  | declare =>
    rcases hp : s.phase with (_ | ⟨call, rest⟩) | _ | _ | _ | _ <;>
      by_cases hclosed : s.sseClosed = true <;>
      simp only [batchStep, hp, hclosed, stepsLeft, BatchState.abort, BatchState.declareOne,
        if_true, if_false, Bool.false_eq_true, length_cons, length_nil] <;> omega
  | pool move =>
    have hle := Buffered.left_step_le (parallelMax ctx) s.pool move
    cases hp : s.phase <;> simp only [batchStep, hp, stepsLeft] <;> omega
  | collect =>
    cases hp : s.phase <;> by_cases hover : s.pool.drained <;>
      simp only [batchStep, hp, hover, stepsLeft, if_true, if_false] <;> omega
  | emit =>
    rcases hp : s.phase with _ | _ | (_ | ⟨call, rest⟩) | _ | _ <;>
      by_cases hclosed : s.sseClosed = true <;>
      simp only [batchStep, hp, hclosed, stepsLeft, BatchState.abort, BatchState.emitOne,
        BatchState.finish, if_true, if_false, Bool.false_eq_true, length_cons,
        length_nil] <;> omega

/-- The batch has a step that brings it on, however its tools end. -/
theorem exists_stepsLeft_lt (ctx : BatchContext) (calls : List ToolCall) {s : BatchState}
    (hfinished : s.phase ≠ .finished) (haborted : s.phase ≠ .aborted) (toolEnd : ToolEnd) :
    ∃ op ∈ [BatchOp.declare, .pool .start, .pool (.finish 0 toolEnd), .collect, .emit],
      stepsLeft calls (batchStep ctx calls s op) < stepsLeft calls s := by
  cases hp : s.phase with
  | starting rest =>
    refine ⟨.declare, by simp, ?_⟩
    cases rest <;> by_cases hclosed : s.sseClosed = true <;>
      simp only [batchStep, hp, hclosed, stepsLeft, BatchState.abort, BatchState.declareOne,
        if_true, if_false, Bool.false_eq_true, length_cons, length_nil] <;> omega
  | working =>
    by_cases hover : s.pool.drained
    · refine ⟨.collect, by simp, ?_⟩
      simp only [batchStep, hp, hover, stepsLeft, if_true]
      omega
    · have hlimit : 0 < parallelMax ctx := Nat.lt_of_lt_of_le Nat.zero_lt_one (Nat.le_max_right _ _)
      rcases Buffered.exists_left_step_lt hlimit hover toolEnd with hlt | hlt
      · refine ⟨.pool .start, by simp, ?_⟩
        simp only [batchStep, hp, stepsLeft]
        omega
      · refine ⟨.pool (.finish 0 toolEnd), by simp, ?_⟩
        simp only [batchStep, hp, stepsLeft]
        omega
  | emitting rest =>
    refine ⟨.emit, by simp, ?_⟩
    cases rest <;> by_cases hclosed : s.sseClosed = true <;>
      simp only [batchStep, hp, hclosed, stepsLeft, BatchState.abort, BatchState.emitOne,
        BatchState.finish, if_true, if_false, Bool.false_eq_true, length_cons,
        length_nil] <;> omega
  | finished => exact absurd hp hfinished
  | aborted => exact absurd hp haborted

/-- No step adds to what a batch has before it, a batch that is not over can always be brought on,
however its tools end, and the steps are bounded by the calls and their different pairs. -/
theorem parallel_batch_ends (ctx : BatchContext) (calls : List ToolCall) (history : List Message)
    (ops : List BatchOp) (toolEnd : ToolEnd) :
    let s := Run.run (batchStep ctx calls) (batchStart calls history) ops
    stepsLeft calls s ≤ 2 * (calls.length + dedupReadonlyToolCallsCount calls) + 3 ∧
      (∀ op, stepsLeft calls (batchStep ctx calls s op) ≤ stepsLeft calls s) ∧
      (s.phase = .finished ∨ s.phase = .aborted ∨
        ∃ op ∈ [BatchOp.declare, .pool .start, .pool (.finish 0 toolEnd), .collect, .emit],
          stepsLeft calls (batchStep ctx calls s op) < stepsLeft calls s) := by
  intro s
  have hstart : stepsLeft calls (batchStart calls history) =
      2 * (calls.length + dedupReadonlyToolCallsCount calls) + 3 := by
    have hlen := length_uniqueCalls calls
    simp only [stepsLeft, batchStart, Buffered.State.left, Buffered.ofJobs, length_nil]
    omega
  have hkept : ∀ (t : BatchState) (op : BatchOp),
      stepsLeft calls t ≤ stepsLeft calls (batchStart calls history) →
        stepsLeft calls (batchStep ctx calls t op) ≤ stepsLeft calls (batchStart calls history) :=
    fun t op ht => Nat.le_trans (stepsLeft_step_le ctx calls t op) ht
  have hbound := Run.invariant' hkept (Nat.le_refl _) ops
  refine ⟨Nat.le_trans hbound (Nat.le_of_eq hstart), stepsLeft_step_le ctx calls s, ?_⟩
  by_cases hfinished : s.phase = .finished
  · exact .inl hfinished
  · by_cases haborted : s.phase = .aborted
    · exact .inr (.inl haborted)
    · exact .inr (.inr (exists_stepsLeft_lt ctx calls hfinished haborted toolEnd))

end Runs

section History

variable {m : Message} {pre rows : List Message}

theorem toolRun_before (hm : roleIs "tool" m = false) (pre rows : List Message) :
    toolRun (pre ++ m :: rows) = toolRun pre := by
  induction pre with
  | nil => simp [toolRun, hm]
  | cons x pre ih =>
    have hcons : ∀ xs : List Message, toolRun (x :: xs) =
        if roleIs "tool" x = true then x :: toolRun xs else [] :=
      fun xs => takeWhile_cons
    rw [cons_append, hcons, hcons, ih]

theorem answered_append_row (hm : roleIs "assistant" m = true) (hpre : Answered pre)
    (hrow : Answered (m :: rows)) : Answered (pre ++ m :: rows) := by
  induction pre with
  | nil => exact hrow
  | cons x pre ih =>
    rw [answered_cons] at hpre
    rw [cons_append, answered_cons]
    refine ⟨fun hx call hcall => ?_, ih hpre.2⟩
    rw [contiguousToolResponseIds, toolRun_before (roleIs_tool_of_assistant hm)]
    exact hpre.1 hx call hcall

/-- The rows a finished batch leaves behind answer every call of the row it was made for, and the
rest of the history stays answered. -/
theorem parallel_batch_keeps_answered (ctx : BatchContext) (pre : List Message) (m : Message)
    (hm : roleIs "assistant" m = true) (hpre : Answered pre) (ops : List BatchOp) :
    let s := Run.run (batchStep ctx m.calls) (batchStart m.calls (pre ++ [m])) ops
    s.phase = .finished → Answered s.messages := by
  intro s hfinished
  have hphase := (batchSound_run ctx m.calls (pre ++ [m]) ops).phase
  have hphase' : PhaseSound ctx m.calls (pre ++ [m]) s := hphase
  unfold PhaseSound at hphase'
  simp only [hfinished] at hphase'
  have hrows : ∀ t ∈ m.calls.map (toolRow ctx s.pool.done), roleIs "tool" t = true := by
    intro t ht
    obtain ⟨call, -, rfl⟩ := List.mem_map.mp ht
    exact roleIs_tool_toolResult _ _
  rw [hphase'.2.messages, append_assoc, singleton_append]
  refine answered_append_row hm hpre (answered_cons.mpr ⟨fun _ call hcall => ?_, ?_⟩)
  · have hall := toolRun_append_tools hrows []
    rw [append_nil] at hall
    rw [contiguousToolResponseIds, hall]
    refine mem_filterMap.mpr ⟨toolRow ctx s.pool.done call, ?_, rfl⟩
    exact mem_append_left _ (List.mem_map_of_mem hcall)
  · rw [← append_nil (m.calls.map _)]
    exact (answered_append_tools hrows).mpr answered_nil

end History

/-! A file that is read twice in one batch. -/
namespace SampleBatch

def read (id : String) : ToolCall := ⟨id, "function", ⟨"read_file", "\x7b\"path\":\"a\"\x7d"⟩⟩

def row : Message :=
  ⟨"assistant", none, none, none, some [read "call-1", read "call-2"], none, none⟩

def context : BatchContext where
  parallelReadonlyToolsMax := 3
  wallSecs := fun _ => 30
  approvalFailure := fun _ => none
  permissionDenial := fun _ => none
  stepExecutorDenial := fun _ => none
  turnAllow := none
  parallelBatchId := "prb-1".toList
  toolResultEnvelopeV1 := false
  serde := ⟨fun _ => none, fun _ => []⟩
  summarizeToolCallArgs := fun _ _ => none
  structuredPayloadForTool := fun _ _ => none

def steps : List BatchOp :=
  [.declare, .declare, .declare, .pool .start, .pool (.finish 0 (.returned "text".toList)),
    .collect, .emit, .emit, .emit]

def after : BatchState :=
  Run.run (batchStep context row.calls) (batchStart row.calls [row]) steps

theorem finished_after : after.phase = .finished := by rfl

def params : ToolBatchModeParams :=
  ⟨false, true, ⟨SampleTurn.config.writeEffectTools, none, none⟩, none⟩

def serialRead (call : ToolCall) : SerialCall :=
  ⟨call.toolName, call.function.arguments.toList, (SampleTurn.ls "a").host, false, [], none, none,
    "text".toList, false⟩

end SampleBatch

open SampleBatch in
theorem parallel_batch_keeps_answered_two_reads : Answered after.messages :=
  parallel_batch_keeps_answered context [] row (by decide) answered_nil steps finished_after

section Serial

/-! The same calls executed one after the other. -/

/-- A call as the serial path has it, when its tool gives what the parallel one gave. -/
structure Mirrors (ctx : BatchContext) (outcomes : List (ToolCall × ToolEnd)) (call : ToolCall)
    (serial : SerialCall) : Prop where
  name : serial.name = call.toolName
  args : serial.args = call.function.arguments.toList
  denied : serial.denied = toolPolicyEarlyDenyMessage ctx call.toolName
  result : serial.result = cachedResult ctx outcomes call

/-- The cache of the serial batch holds what the parallel one gives to the pair. -/
def CacheAgrees (ctx : BatchContext) (outcomes : List (ToolCall × ToolEnd)) (st : TurnState) :
    Prop :=
  ∀ k v, st.readonlyCache.get? k = some v → v = ((resultByNameArgs ctx outcomes).get? k).getD []

variable {ctx : BatchContext} {calls : List ToolCall} {outcomes : List (ToolCall × ToolEnd)}
  {turn : TurnConfig} {st : TurnState} {call : ToolCall} {serial : SerialCall}

/-- The tools of a batch that is executed in parallel are read-only, and none is `run_command`. -/
theorem readonly_of_parallel {params : ToolBatchModeParams}
    (hmode : resolveToolBatchExecutionMode params calls = .parallelReadonlyBatch)
    (hcall : call ∈ calls) :
    isReadonlyTool params.policy.writeEffectTools call.toolName = true ∧
      call.toolName ≠ runCommandName := by
  unfold resolveToolBatchExecutionMode at hmode
  split_ifs at hmode with hserial hbatch
  rw [Bool.and_eq_true, toolCallsAllowParallelSyncBatch, Bool.and_eq_true,
    List.all_eq_true] at hbatch
  have hpiece := hbatch.1.2 call hcall
  simp only [toolOkForParallelReadonlyBatchPiece, Bool.and_eq_true] at hpiece
  refine ⟨hpiece.1.2, fun hname => ?_⟩
  have heligible := hpiece.2
  have hhandler : handlerIdFor runCommandName = .runCommand := by decide
  rw [parallelBatchEligibleTool, hname, hhandler, Bool.and_eq_true] at heligible
  have hin : [HandlerId.syncDefault, .httpFetch, .getWeather, .webSearch].contains
      HandlerId.runCommand = false := by decide
  rw [hin] at heligible
  exact Bool.false_ne_true heligible.2

/-- What answers a call of another tool than `run_command` before it is dispatched. -/
theorem serialEmitEarly_of_ne (turn : TurnConfig) (st : TurnState)
    (hname : serial.name ≠ runCommandName) :
    serialEmitEarlyWithoutDispatch turn st serial =
      match serial.denied with
      | some text => some (st, .policy, text)
      | none =>
        (readonlyCacheAnswer turn st serial).map fun text => (st, .readonlyCache, text) := by
  have hcargo : runCommandCargoWorkdirPreflightError turn serial = none := if_pos hname
  have hctest : runCommandCtestPreflightError turn serial = none := if_pos hname
  have hsuccess : successMemoAnswer turn st serial = none := if_pos hname
  have hfailure : failureMemoAnswer turn st serial = none := if_pos hname
  have httl : ttlCacheAnswer turn serial = none := if_pos (.inr hname)
  rw [serialEmitEarlyWithoutDispatch, hcargo, hctest]
  cases serial.denied with
  | some text => rfl
  | none => simp [memoAnswer, hsuccess, hfailure, httl, Option.map_map, Function.comp_def]

theorem CacheAgrees.update (hcache : CacheAgrees ctx outcomes st)
    (hreadonly : isReadonlyTool turn.writeEffectTools serial.name = true)
    (hmirrors : Mirrors ctx outcomes call serial) :
    CacheAgrees ctx outcomes (updateReadonlyCache turn st serial) := by
  have hkey : (serial.name, serial.args) = call.key := Prod.ext hmirrors.name hmirrors.args
  intro k v hv
  unfold updateReadonlyCache at hv
  split_ifs at hv with heligible hwrites
  · by_cases hk : (serial.name, serial.args) = k
    · rw [← hk, Memo.get?_put_self, Option.some.injEq] at hv
      rw [← hv, hmirrors.result, ← hk, hkey]
      rfl
    · rw [Memo.get?_put_of_ne _ _ hk] at hv
      exact hcache k v hv
  · simp [hreadonly] at hwrites
  · exact hcache k v hv

/-- One call: the serial path reports the text the parallel one gives it, and its cache agrees
again. -/
theorem serial_step_agrees (hname : serial.name ≠ runCommandName)
    (hreadonly : isReadonlyTool turn.writeEffectTools serial.name = true)
    (hmirrors : Mirrors ctx outcomes call serial)
    (hdenied : ∀ text, toolPolicyEarlyDenyMessage ctx call.toolName = some text →
      cachedResult ctx outcomes call = text)
    (hcache : CacheAgrees ctx outcomes st) :
    let st' := serialExecuteOneToolCall turn st serial
    CacheAgrees ctx outcomes st' ∧
      st'.log.map ToolEvent.output =
        cachedResult ctx outcomes call :: st.log.map ToolEvent.output := by
  have hkey : (serial.name, serial.args) = call.key := Prod.ext hmirrors.name hmirrors.args
  have hearly := serialEmitEarly_of_ne turn st hname
  cases hd : serial.denied with
  | some text =>
    rw [hd] at hearly
    simp only [serialExecuteOneToolCall, hearly]
    refine ⟨hcache, ?_⟩
    rw [hdenied text (hmirrors.denied.symm.trans hd)]
    rfl
  | none =>
    rw [hd] at hearly
    cases hanswer : readonlyCacheAnswer turn st serial with
    | some text =>
      simp only [hanswer, map_some] at hearly
      simp only [serialExecuteOneToolCall, hearly]
      refine ⟨hcache, ?_⟩
      unfold readonlyCacheAnswer at hanswer
      split_ifs at hanswer
      have htext := hcache _ _ hanswer
      rw [hkey] at htext
      rw [htext]
      rfl
    | none =>
      simp only [hanswer, map_none] at hearly
      rw [serialExecuteOneToolCall_dispatched hearly]
      have hkept : (afterDispatch turn st serial).readonlyCache = st.readonlyCache :=
        (rest_serialClear turn _ serial).1.trans
          (rest_serialBookkeepRunCommandFailure turn _ serial).1
      have hlog : (afterDispatch turn st serial).log = st.log :=
        (rest_serialClear turn _ serial).2.trans
          (rest_serialBookkeepRunCommandFailure turn _ serial).2.2
      have hafter : CacheAgrees ctx outcomes (afterDispatch turn st serial) := fun k v hv =>
        hcache k v (hkept ▸ hv)
      constructor
      · exact hafter.update hreadonly hmirrors
      · simp only [TurnState.emit, map_cons, (rest_updateReadonlyCache turn _ serial).2, hlog,
          hmirrors.result]

/-- A finished parallel batch gives every call the text that the serial execution of the calls gives
it, when each tool returns in both what it returned in the parallel batch. Where a refused tool also
wants an approval the two differ, since only the parallel path asks before it refuses. -/
theorem parallel_batch_agrees_with_serial (ctx : BatchContext) (turn : TurnConfig)
    (params : ToolBatchModeParams) (calls : List ToolCall) (history : List Message)
    (ops : List BatchOp) (st : TurnState) (serials : List SerialCall)
    (hmode : resolveToolBatchExecutionMode params calls = .parallelReadonlyBatch)
    (hpolicy : turn.writeEffectTools = params.policy.writeEffectTools)
    (happroval : ∀ call ∈ calls, (toolPolicyEarlyDenyMessage ctx call.toolName).isSome = true →
      prefetchParallelApprovalFailure ctx call = none) :
    let s := Run.run (batchStep ctx calls) (batchStart calls history) ops
    s.phase = .finished → List.Forall₂ (Mirrors ctx s.pool.done) calls serials →
      (Run.run (toolTurnStep turn) st (.startBatch :: serials.map .call)).log.map ToolEvent.output =
        (calls.map (cachedResult ctx s.pool.done)).reverse ++ st.log.map ToolEvent.output := by
  intro s hfinished hmirrors
  have hsound : BatchSound ctx calls history s := batchSound_run ctx calls history ops
  have hphase := hsound.phase
  unfold PhaseSound at hphase
  simp only [hfinished] at hphase
  have hcomplete := hsound.complete hphase.1
  have hdenied : ∀ call ∈ calls, ∀ text,
      toolPolicyEarlyDenyMessage ctx call.toolName = some text →
        cachedResult ctx s.pool.done call = text := by
    intro call hcall text htext
    obtain ⟨o, -, -, heq⟩ := hcomplete.cachedResult_eq ctx hcall
    have hasked := happroval call hcall (by rw [htext]; rfl)
    simp only [heq, futureText, hasked, htext, getD_none, getD_some]
  have hrun : ∀ (rest : List ToolCall) (others : List SerialCall) (st : TurnState),
      (∀ call ∈ rest, call ∈ calls) → List.Forall₂ (Mirrors ctx s.pool.done) rest others →
        CacheAgrees ctx s.pool.done st →
          (Run.run (toolTurnStep turn) st (others.map .call)).log.map ToolEvent.output =
            (rest.map (cachedResult ctx s.pool.done)).reverse ++ st.log.map ToolEvent.output := by
    intro rest others st hrest hall hcache
    induction hall generalizing st with
    | nil => rfl
    | @cons call serial rest others hmirror _ ih =>
      have hcall := hrest call mem_cons_self
      obtain ⟨hreadonly, hname⟩ := readonly_of_parallel hmode hcall
      rw [← hmirror.name] at hreadonly hname
      obtain ⟨hnext, hlog⟩ := serial_step_agrees hname (hpolicy ▸ hreadonly) hmirror
        (hdenied call hcall) hcache
      rw [map_cons, Run.run_cons]
      have hih := ih (serialExecuteOneToolCall turn st serial)
        (fun c hc => hrest c (mem_cons_of_mem _ hc)) hnext
      rw [show toolTurnStep turn st (.call serial) =
          serialExecuteOneToolCall turn st serial from rfl,
        hih, hlog, map_cons, reverse_cons, append_assoc]
      rfl
  have hempty : CacheAgrees ctx s.pool.done (toolTurnStep turn st .startBatch) := by
    intro k v hv
    cases hv
  exact hrun calls serials _ (fun _ h => h) hmirrors hempty

open SampleBatch in
theorem parallel_batch_agrees_with_serial_two_reads :
    (Run.run (toolTurnStep SampleTurn.config) TurnState.start
        (.startBatch :: (row.calls.map serialRead).map .call)).log.map ToolEvent.output =
      (row.calls.map (cachedResult context after.pool.done)).reverse ++ [] := by
  have happroval : ∀ call ∈ row.calls,
      (toolPolicyEarlyDenyMessage context call.toolName).isSome = true →
        prefetchParallelApprovalFailure context call = none := by
    intro call _ h
    cases h
  have hmode : resolveToolBatchExecutionMode params row.calls = .parallelReadonlyBatch := by decide
  have hmirrors : List.Forall₂ (Mirrors context after.pool.done) row.calls
      (row.calls.map serialRead) :=
    .cons ⟨rfl, rfl, rfl, by rfl⟩ (.cons ⟨rfl, rfl, rfl, by rfl⟩ .nil)
  exact parallel_batch_agrees_with_serial context SampleTurn.config params row.calls [row] steps
    TurnState.start (row.calls.map serialRead) hmode rfl happroval finished_after hmirrors

end Serial

end CrabMate
