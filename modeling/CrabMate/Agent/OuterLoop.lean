import CrabMate.Lib.Run
import CrabMate.Llm.ToolResponses

/-! The loop of an agent turn. Each iteration asks the model, reflects on its reply and executes the
tools it calls; the loop is driven on by tool calls, by plans that are to be rewritten and by
feedback to the model, each with a limit of its own. -/
namespace CrabMate.OuterLoop
open RustStr

section Policy

inductive OuterLoopIterationPhase where
  | iterationEnter
  | prepareContextDone
  | afterPlannerModel
  | reflectDecided
  | toolsExecute
  deriving DecidableEq

inductive OuterLoopIterationExit where
  | continueNextIteration
  | stopOuterLoop
  deriving DecidableEq

inductive ReflectBranchCtl where
  | breakOuter
  | continueOuter
  | proceedToTools
  deriving DecidableEq

/-- The table of the driver; only two phases lead back to a new iteration. -/
def phaseTransitionAllowed (phase next : OuterLoopIterationPhase) : Bool :=
  phase = next ||
    match phase, next with
    | .iterationEnter, .prepareContextDone
    | .prepareContextDone, .afterPlannerModel
    | .afterPlannerModel, .reflectDecided
    | .reflectDecided, .toolsExecute
    | .reflectDecided, .iterationEnter
    | .toolsExecute, .iterationEnter => true
    | _, _ => false

/-- The exit of an iteration that ends with its reflection. -/
def exitFromReflect : ReflectBranchCtl → Option OuterLoopIterationExit
  | .breakOuter => some .stopOuterLoop
  | .continueOuter => some .continueNextIteration
  | .proceedToTools => none

def reducePostToolsExitWithTruncation (truncatedFeedbackInjected taskLevelEarlyStop : Bool) :
    OuterLoopIterationExit :=
  if truncatedFeedbackInjected then .continueNextIteration
  else if taskLevelEarlyStop then .stopOuterLoop
  else .continueNextIteration

end Policy

section Budget

def defaultMaxLlmCallsPerTurn : ℕ := 500
def defaultMaxOuterLoopIterations : ℕ := 500

structure TurnBudgetConfig where
  maxTurnDurationSeconds : ℕ
  maxLlmCallsPerTurn : ℕ
  maxTurnTokens : ℕ

structure TurnBudgetCounter where
  llmCalls : ℕ
  outerLoopIterations : ℕ
  estimatedTokens : ℕ

inductive AgentTurnSubPhase where
  | planner
  | executor
  | reflect
  deriving DecidableEq

inductive TurnAbortReason where
  | sseDisconnected
  | userCancelled
  deriving DecidableEq

inductive RunAgentTurnError where
  | timeLimitExhausted (phase : AgentTurnSubPhase) (message : String)
  | other (phase : AgentTurnSubPhase) (message : String)
  | turnAborted (phase : AgentTurnSubPhase) (reason : TurnAbortReason)
  deriving DecidableEq

def effectiveMaxLlmCallsPerTurn (cfg : TurnBudgetConfig) : ℕ :=
  if cfg.maxLlmCallsPerTurn = 0 then defaultMaxLlmCallsPerTurn else cfg.maxLlmCallsPerTurn

def checkSharedTurnBudget (cfg : TurnBudgetConfig) (b : TurnBudgetCounter) (elapsedSecs : ℕ) :
    Option RunAgentTurnError :=
  if 0 < cfg.maxTurnDurationSeconds ∧ cfg.maxTurnDurationSeconds < elapsedSecs then
    some (.timeLimitExhausted .planner s!"已达到单轮墙钟时间上限 ({cfg.maxTurnDurationSeconds}秒)")
  else if 0 < effectiveMaxLlmCallsPerTurn cfg ∧ effectiveMaxLlmCallsPerTurn cfg ≤ b.llmCalls then
    some (.other .planner s!"已达到单轮 LLM 调用次数上限 ({effectiveMaxLlmCallsPerTurn cfg})")
  else if 0 < cfg.maxTurnTokens ∧ cfg.maxTurnTokens ≤ b.estimatedTokens then
    some (.other .planner s!"已达到单轮 Token 预算上限 (~{cfg.maxTurnTokens})")
  else none

end Budget

section Loop

/-- What the loop reads off texts: the task of the user, whether it asks for a build, whether a
build or any tool succeeded since, whether a reply only announces a build, and whether the task is
done. -/
structure LoopReading where
  lastRealUserTaskContent : List Message → Option String
  taskImpliesBuildExecution : String → Bool
  windowHasBuildProgress : List Message → Bool
  textPromisesBuildOrCompile : String → Bool
  windowHasAnySuccessfulTool : List Message → Bool
  turnEarlyStopAllowed : List Message → Bool
  toolsAreRedundant : List ToolCall → List Message → Bool

structure LoopConfig where
  budget : TurnBudgetConfig
  hasPerFlight : Bool
  planRewriteMaxAttempts : ℕ
  read : LoopReading

/-- What the checks of a final answer come to before the attempts are counted. -/
inductive PlanVerdict where
  | accepted
  | rejected (rewrite : Message)
  | userCancelled

/-- What one iteration meets: the clock, the client, the history as it is prepared for the model,
the model's reply with what it cost, the verdict on a final answer, and the rows of the tools, which
are missing when the client is found gone. -/
structure Round where
  elapsedSecs : ℕ
  sseClosed : Bool
  cancelled : Bool
  prepared : Except String (List Message)
  llmCalls : ℕ
  tokens : ℕ
  reply : Except RunAgentTurnError (Message × String)
  verdict : PlanVerdict
  toolRows : Option (List Message)

structure LoopState where
  budget : TurnBudgetCounter
  phase : OuterLoopIterationPhase
  /-- A `debug_assert!` of the driver has failed. -/
  illegalPhase : Bool
  messages : List Message
  lastAssistantFinishTruncated : Bool
  planRewriteAttempts : ℕ
  buildIdleStreak : ℕ
  buildIdleFeedbackInjected : ℕ
  missingFinalAnswerFeedbackInjected : ℕ
  truncatedFeedbackInjected : ℕ
  /-- The iterations that have executed tools. -/
  toolRounds : ℕ
  /-- The iterations that have asked the model. -/
  planCalls : ℕ

def LoopState.start (messages : List Message) : LoopState :=
  ⟨⟨0, 0, 0⟩, .iterationEnter, false, messages, false, 0, 0, 0, 0, 0, 0, 0⟩

inductive RoundEnd where
  | exit (exit : OuterLoopIterationExit)
  | failed (error : RunAgentTurnError)
  deriving DecidableEq

def buildIdleStreakThreshold : ℕ := 2
def buildIdleFeedbackMax : ℕ := 4
def missingFinalAnswerFeedbackMax : ℕ := 2
def missingFinalAnswerMinChars : ℕ := 24
def truncatedFeedbackMax : ℕ := 2
def userCancelledFinishReason : String := "user_cancelled"

def buildIdleFeedbackBody (streak : ℕ) : String :=
  outerLoopBuildIdleOrchestrationPrefix ++
    s!"用户目标涉及编译/构建，但已连续 {streak} 轮助手回复未产生任何构建类工具结果" ++
    "（如 `run_command` 的 make/cmake/cargo build 等）。" ++
    "**禁止**再用自然语言承诺「将要编译/读取 Makefile」；本轮必须通过 `tool_calls` " ++
    "实际执行构建或读取构建说明（`read_file` / `read_dir`），" ++
    "且若需解压源码包请优先 `archive_unpack` 到 `output_dir=\".\"`（勿自创嵌套目录名）。"

def missingFinalAnswerFeedbackBody : String :=
  outerLoopBuildIdleOrchestrationPrefix ++
    "本轮工具已执行并产生结果，但助手终答为空或过短。请基于**当前对话与工具输出**，" ++
    "用自然语言向用户给出完整终答：说明已完成什么、关键结果/路径/命令输出摘要，" ++
    "以及若仍有未完成项请明确列出。**禁止**再发起无必要的 tool_calls。"

def truncatedFeedbackBody : String :=
  outerLoopBuildIdleOrchestrationPrefix ++
    "上一轮助手输出因达到模型长度上限或流式中断而被**截断**，终答不完整。" ++
    "请基于已有上下文**继续**并给出完整、可验收的终答：若任务已完成，直接输出最终结论；" ++
    "若仍需执行，请通过 `tool_calls` 继续；避免重复已输出内容，必要时分段或精炼。"

def messageText (m : Message) : Str := ((messageContentAsStr m.content).getD "").toList

def llmFinishReasonIsTruncation (finishReason : String) : Bool :=
  finishReason = "stream_truncated" || finishReason.toList.map Char.toLower = "length".toList

/-- An assistant row takes the place of an empty one at the end. -/
def pushAssistantMergingTrailingEmpty (messages : List Message) (msg : Message) : List Message :=
  match messages.getLast? with
  | none => messages ++ [msg]
  | some last =>
    if msg.role = "assistant" ∧ last.role = "assistant" ∧ last.toolCalls = none ∧
        (trim (messageText last)).isEmpty then
      messages.dropLast ++ [msg]
    else messages ++ [msg]

namespace LoopState

variable (cfg : LoopConfig)

def recordPhase (s : LoopState) (next : OuterLoopIterationPhase) : LoopState :=
  { s with
    phase := next
    illegalPhase := s.illegalPhase || !phaseTransitionAllowed s.phase next }

def recordOuterLoopIteration (s : LoopState) : LoopState :=
  { s with budget := { s.budget with outerLoopIterations := s.budget.outerLoopIterations + 1 } }

def pushFeedback (s : LoopState) (feedback : String) : LoopState :=
  { s with messages := s.messages ++ [.userOnly feedback] }

/-- What is checked before an iteration does anything. -/
def outerLoopIterationGuard (s : LoopState) (w : Round) : Option RunAgentTurnError :=
  if defaultMaxOuterLoopIterations ≤ s.budget.outerLoopIterations then
    some (.other .planner
      s!"达到外层循环安全上限（{defaultMaxOuterLoopIterations} 轮），已中止以避免重复工具调用死循环")
  else (checkSharedTurnBudget cfg.budget s.budget w.elapsedSecs).or <|
    if w.sseClosed then some (.turnAborted .planner .sseDisconnected)
    else if w.cancelled then some (.turnAborted .planner .userCancelled)
    else none

/-- The model has answered, or failed to, at its cost. -/
def recordPlanCall (s : LoopState) (w : Round) : LoopState :=
  { s with
    budget := { s.budget with
      llmCalls := s.budget.llmCalls + w.llmCalls
      estimatedTokens := s.budget.estimatedTokens + w.tokens }
    planCalls := s.planCalls + 1 }

def pushReply (s : LoopState) (msg : Message) (finishReason : String) : LoopState :=
  { s with
    messages := pushAssistantMergingTrailingEmpty s.messages msg
    lastAssistantFinishTruncated := cfg.hasPerFlight && llmFinishReasonIsTruncation finishReason }

/-- Feedback on a reply that was cut off, from either of its two places. -/
def truncatedFeedback? (s : LoopState) : Option LoopState :=
  if s.lastAssistantFinishTruncated ∧ s.truncatedFeedbackInjected < truncatedFeedbackMax then
    some { s.pushFeedback truncatedFeedbackBody with
      truncatedFeedbackInjected := s.truncatedFeedbackInjected + 1 }
  else none

def assistantIsBuildIdleWithoutTools (msg : Message) : Bool :=
  !msg.hasNonEmptyToolCalls &&
    (messageContentAsStr msg.content).any cfg.read.textPromisesBuildOrCompile

/-- The bookkeeping of rounds that only announce a build. -/
def countBuildIdle (s : LoopState) (msg : Message) : LoopState :=
  if cfg.read.windowHasBuildProgress s.messages then { s with buildIdleStreak := 0 }
  else if assistantIsBuildIdleWithoutTools cfg msg then
    { s with buildIdleStreak := s.buildIdleStreak + 1 }
  else s

def buildIdleFeedback? (s : LoopState) (task : String) (msg : Message) : Option LoopState :=
  if cfg.read.taskImpliesBuildExecution task ∧ ¬cfg.read.windowHasBuildProgress s.messages ∧
      assistantIsBuildIdleWithoutTools cfg msg ∧ buildIdleStreakThreshold ≤ s.buildIdleStreak ∧
      s.buildIdleFeedbackInjected < buildIdleFeedbackMax then
    some { s.pushFeedback (buildIdleFeedbackBody s.buildIdleStreak) with
      buildIdleFeedbackInjected := s.buildIdleFeedbackInjected + 1 }
  else none

def assistantLacksVisibleFinalAnswer (msg : Message) : Bool :=
  !msg.hasNonEmptyToolCalls && (trim (messageText msg)).length < missingFinalAnswerMinChars

def missingFinalAnswerFeedback? (s : LoopState) (msg : Message) : Option LoopState :=
  if s.missingFinalAnswerFeedbackInjected < missingFinalAnswerFeedbackMax ∧
      assistantLacksVisibleFinalAnswer msg ∧ cfg.read.windowHasAnySuccessfulTool s.messages then
    some { s.pushFeedback missingFinalAnswerFeedbackBody with
      missingFinalAnswerFeedbackInjected := s.missingFinalAnswerFeedbackInjected + 1 }
  else none

/-- An accepted final answer ends the turn unless some feedback on it is due. -/
def reflectBranchOnStopTurn (s : LoopState) (msg : Message) : LoopState × ReflectBranchCtl :=
  match cfg.read.lastRealUserTaskContent s.messages with
  | none => (s, .breakOuter)
  | some task =>
    match s.truncatedFeedback? with
    | some s => (s, .continueOuter)
    | none =>
      let s := s.countBuildIdle cfg msg
      match (s.buildIdleFeedback? cfg task msg).or (s.missingFinalAnswerFeedback? cfg msg) with
      | some s => (s, .continueOuter)
      | none => (s, .breakOuter)

def rewriteLimit : ℕ := max cfg.planRewriteMaxAttempts 1

/-- A final answer, accepted or to be rewritten; none when the user cancels its check. -/
def afterFinalAssistant (s : LoopState) (w : Round) (msg : Message) :
    LoopState × Option ReflectBranchCtl :=
  match w.verdict with
  | .accepted => ((s.reflectBranchOnStopTurn cfg msg).1, some (s.reflectBranchOnStopTurn cfg msg).2)
  | .rejected rewrite =>
    if s.planRewriteAttempts < rewriteLimit cfg then
      ({ s with
        messages := s.messages ++ [rewrite]
        planRewriteAttempts := s.planRewriteAttempts + 1 }, some .continueOuter)
    else (s, some .breakOuter)
  | .userCancelled => (s, none)

def reflectBranch (s : LoopState) (w : Round) (msg : Message) (finishReason : String) :
    LoopState × Option ReflectBranchCtl :=
  if finishReason = "tool_calls" ∨ msg.hasNonEmptyToolCalls then
    ({ s with buildIdleStreak := 0 }, some .proceedToTools)
  else s.afterFinalAssistant cfg w msg

/-- The reply goes again, or stays without its calls if it has a text. -/
def dropRedundantToolCalls (s : LoopState) (msg : Message) : LoopState :=
  match s.messages.getLast? with
  | none => s
  | some last =>
    let rest := s.messages.dropLast
    if last.role = "assistant" ∧ last.toolCalls = msg.toolCalls then
      if (trim (messageText last)).isEmpty then { s with messages := rest }
      else { s with
        messages := pushAssistantMergingTrailingEmpty rest { last with toolCalls := none } }
    else { s with messages := pushAssistantMergingTrailingEmpty rest last }

/-- The history with the rows of the tools. -/
def withToolRows (s : LoopState) (rows : List Message) : LoopState :=
  { s with
    messages := s.messages ++ rows
    buildIdleStreak := if cfg.read.windowHasBuildProgress (s.messages ++ rows) then 0
      else s.buildIdleStreak
    toolRounds := s.toolRounds + 1 }

def postToolsFeedback (s : LoopState) : LoopState × RoundEnd :=
  match s.truncatedFeedback? with
  | some t => (t, .exit (reducePostToolsExitWithTruncation true
      (cfg.read.turnEarlyStopAllowed t.messages)))
  | none => (s, .exit (reducePostToolsExitWithTruncation false
      (cfg.read.turnEarlyStopAllowed s.messages)))

/-- The tools of a reply are executed. -/
def postToolsExit (s : LoopState) (w : Round) (msg : Message) : LoopState × RoundEnd :=
  match msg.toolCalls, w.toolRows with
  | none, _ => (s.recordPhase .toolsExecute, .failed (.other .executor "无 tool_calls"))
  | some _, none =>
    (s.recordPhase .toolsExecute, .failed (.turnAborted .executor .sseDisconnected))
  | some _, some rows => ((s.recordPhase .toolsExecute).withToolRows cfg rows).postToolsFeedback cfg

/-- The iteration from the reflection on. -/
def afterReflect (s : LoopState) (w : Round) (msg : Message) (ctl : ReflectBranchCtl) :
    LoopState × RoundEnd :=
  match exitFromReflect ctl with
  | some exit => (s, .exit exit)
  | none =>
    if msg.hasNonEmptyToolCalls && cfg.read.toolsAreRedundant msg.calls s.messages then
      (s.dropRedundantToolCalls msg, .exit .stopOuterLoop)
    else s.postToolsExit cfg w msg

/-- The iteration from the reply on. -/
def afterPlannerModel (s : LoopState) (w : Round) (msg : Message) (finishReason : String) :
    LoopState × RoundEnd :=
  if finishReason = userCancelledFinishReason then (s, .exit .stopOuterLoop)
  else
    match s.reflectBranch cfg w msg finishReason with
    | (t, none) => (t, .failed (.turnAborted .reflect .userCancelled))
    | (t, some ctl) => (t.recordPhase .reflectDecided).afterReflect cfg w msg ctl

/-- The model is asked about the history as it is prepared for it. -/
def askPlanner (s : LoopState) (w : Round) (messages : List Message) : LoopState :=
  ({ s.recordPhase .iterationEnter with messages := messages }.recordPhase
    .prepareContextDone).recordPlanCall w

def singleIteration (s : LoopState) (w : Round) : LoopState × RoundEnd :=
  match s.outerLoopIterationGuard cfg w with
  | some error => (s, .failed error)
  | none =>
    match w.prepared with
    | .error e => (s.recordPhase .iterationEnter, .failed (.other .planner e))
    | .ok messages =>
      match w.reply with
      | .error e => (s.askPlanner w messages, .failed e)
      | .ok (msg, finishReason) =>
        (((s.askPlanner w messages).pushReply cfg msg finishReason).recordPhase
          .afterPlannerModel).afterPlannerModel cfg w msg finishReason

end LoopState

/-- How the loop stands after some rounds. -/
inductive LoopEnd where
  | running
  | stopped
  | failed (error : RunAgentTurnError)
  deriving DecidableEq

/-- The loop over the rounds it meets. -/
def runAgentOuterLoop (cfg : LoopConfig) (s : LoopState) : List Round → LoopState × LoopEnd
  | [] => (s, .running)
  | w :: rounds =>
    match s.recordOuterLoopIteration.singleIteration cfg w with
    | (s, .exit .continueNextIteration) => runAgentOuterLoop cfg s rounds
    | (s, .exit .stopOuterLoop) => (s, .stopped)
    | (s, .failed error) => (s, .failed error)

end Loop

section Limits

variable {cfg : LoopConfig} {s t : LoopState}

/-- Nothing that drives the loop on besides tools is used more often than it may. -/
structure Limits (cfg : LoopConfig) (s : LoopState) : Prop where
  rewrites : s.planRewriteAttempts ≤ LoopState.rewriteLimit cfg
  buildIdle : s.buildIdleFeedbackInjected ≤ buildIdleFeedbackMax
  missingAnswer : s.missingFinalAnswerFeedbackInjected ≤ missingFinalAnswerFeedbackMax
  truncated : s.truncatedFeedbackInjected ≤ truncatedFeedbackMax

/-- What has driven the loop on so far. -/
def LoopState.driven (s : LoopState) : ℕ :=
  s.toolRounds + s.planRewriteAttempts + s.buildIdleFeedbackInjected +
    s.missingFinalAnswerFeedbackInjected + s.truncatedFeedbackInjected

/-- A part of an iteration that leaves the phases and the counters of the loop alone, and drives it
on by the given number of times. -/
structure Within (cfg : LoopConfig) (n : ℕ) (s t : LoopState) : Prop where
  budget : t.budget = s.budget
  phase : t.phase = s.phase
  illegalPhase : t.illegalPhase = s.illegalPhase
  planCalls : t.planCalls = s.planCalls
  limits : Limits cfg s → Limits cfg t
  driven : t.driven = s.driven + n

theorem within_refl (cfg : LoopConfig) (s : LoopState) : Within cfg 0 s s :=
  ⟨rfl, rfl, rfl, rfl, id, rfl⟩

theorem Within.trans {n m : ℕ} {u : LoopState} (h : Within cfg n s t) (h' : Within cfg m t u) :
    Within cfg (n + m) s u :=
  ⟨h'.budget.trans h.budget, h'.phase.trans h.phase, h'.illegalPhase.trans h.illegalPhase,
    h'.planCalls.trans h.planCalls, fun hs => h'.limits (h.limits hs), by
      rw [h'.driven, h.driven, Nat.add_assoc]⟩

theorem within_truncatedFeedback (h : s.truncatedFeedback? = some t) : Within cfg 1 s t := by
  unfold LoopState.truncatedFeedback? at h
  split_ifs at h with hdue
  cases h
  refine ⟨rfl, rfl, rfl, rfl, fun hs => ⟨hs.rewrites, hs.buildIdle, hs.missingAnswer, hdue.2⟩, ?_⟩
  simp only [LoopState.driven, LoopState.pushFeedback]
  omega

theorem within_countBuildIdle (s : LoopState) (msg : Message) :
    Within cfg 0 s (s.countBuildIdle cfg msg) := by
  unfold LoopState.countBuildIdle
  split_ifs
  · exact ⟨rfl, rfl, rfl, rfl, fun hs => ⟨hs.1, hs.2, hs.3, hs.4⟩, rfl⟩
  · exact ⟨rfl, rfl, rfl, rfl, fun hs => ⟨hs.1, hs.2, hs.3, hs.4⟩, rfl⟩
  · exact within_refl cfg s

theorem within_buildIdleFeedback {task : String} {msg : Message}
    (h : s.buildIdleFeedback? cfg task msg = some t) : Within cfg 1 s t := by
  unfold LoopState.buildIdleFeedback? at h
  split_ifs at h with hdue
  cases h
  refine ⟨rfl, rfl, rfl, rfl, fun hs => ⟨hs.rewrites, hdue.2.2.2.2, hs.missingAnswer, hs.truncated⟩,
    ?_⟩
  simp only [LoopState.driven, LoopState.pushFeedback]
  omega

theorem within_missingFinalAnswerFeedback {msg : Message}
    (h : s.missingFinalAnswerFeedback? cfg msg = some t) : Within cfg 1 s t := by
  unfold LoopState.missingFinalAnswerFeedback? at h
  split_ifs at h with hdue
  cases h
  refine ⟨rfl, rfl, rfl, rfl, fun hs => ⟨hs.rewrites, hs.buildIdle, hdue.1, hs.truncated⟩, ?_⟩
  simp only [LoopState.driven, LoopState.pushFeedback]
  omega

/-- How often a reflection drives the loop on. -/
def steps : ReflectBranchCtl → ℕ
  | .continueOuter => 1
  | _ => 0

theorem within_reflectBranchOnStopTurn (s : LoopState) (msg : Message) :
    let r := s.reflectBranchOnStopTurn cfg msg
    Within cfg (steps r.2) s r.1 := by
  unfold LoopState.reflectBranchOnStopTurn
  cases cfg.read.lastRealUserTaskContent s.messages with
  | none => exact within_refl cfg s
  | some task =>
    cases htruncated : s.truncatedFeedback? with
    | some t => simpa [htruncated, steps] using within_truncatedFeedback htruncated
    | none =>
      have hcount : Within cfg 0 s (s.countBuildIdle cfg msg) := within_countBuildIdle s msg
      cases hidle : (s.countBuildIdle cfg msg).buildIdleFeedback? cfg task msg with
      | some t =>
        have hwithin := hcount.trans (within_buildIdleFeedback hidle)
        simpa [htruncated, hidle, steps] using hwithin
      | none =>
        cases hmissing : (s.countBuildIdle cfg msg).missingFinalAnswerFeedback? cfg msg with
        | some t =>
          have hwithin := hcount.trans (within_missingFinalAnswerFeedback hmissing)
          simpa [htruncated, hidle, hmissing, steps] using hwithin
        | none => simpa [htruncated, hidle, hmissing, steps] using hcount

theorem within_afterFinalAssistant (s : LoopState) (w : Round) (msg : Message) :
    let r := s.afterFinalAssistant cfg w msg
    Within cfg ((r.2.map steps).getD 0) s r.1 := by
  unfold LoopState.afterFinalAssistant
  cases w.verdict with
  | accepted => exact within_reflectBranchOnStopTurn s msg
  | rejected rewrite =>
    simp only
    split_ifs with hleft
    · refine ⟨rfl, rfl, rfl, rfl,
        fun hs => ⟨hleft, hs.buildIdle, hs.missingAnswer, hs.truncated⟩, ?_⟩
      simp only [LoopState.driven, steps, Option.map_some, Option.getD_some]
      omega
    · exact within_refl cfg s
  | userCancelled => exact within_refl cfg s

theorem within_reflectBranch (cfg : LoopConfig) (s : LoopState) (w : Round) (msg : Message)
    (finishReason : String) :
    let r := s.reflectBranch cfg w msg finishReason
    Within cfg ((r.2.map steps).getD 0) s r.1 := by
  unfold LoopState.reflectBranch
  split_ifs
  · exact ⟨rfl, rfl, rfl, rfl, fun hs => ⟨hs.1, hs.2, hs.3, hs.4⟩, rfl⟩
  · exact within_afterFinalAssistant s w msg

/-- A part of an iteration that ends it: the phase it ends in leads back to a new iteration when
there is one, and something has driven the loop on. -/
structure Ends (cfg : LoopConfig) (s t : LoopState) (roundEnd : RoundEnd) : Prop where
  iterations : t.budget.outerLoopIterations = s.budget.outerLoopIterations
  legal : t.illegalPhase = false
  planCalls : t.planCalls = s.planCalls
  limits : Limits cfg t
  driven : s.driven ≤ t.driven
  back : roundEnd = .exit .continueNextIteration →
    s.driven < t.driven ∧ phaseTransitionAllowed t.phase .iterationEnter = true

theorem Ends.of_within {n : ℕ} {u : LoopState} {roundEnd : RoundEnd} (h : Within cfg n s t)
    (hu : Ends cfg t u roundEnd) : Ends cfg s u roundEnd := by
  have hdriven := h.driven
  refine ⟨hu.iterations.trans (congrArg _ h.budget), hu.legal, hu.planCalls.trans h.planCalls,
    hu.limits, Nat.le_trans (by omega) hu.driven, fun hnext => ⟨?_, (hu.back hnext).2⟩⟩
  exact Nat.lt_of_le_of_lt (by omega) (hu.back hnext).1

theorem ends_here {roundEnd : RoundEnd} (hs : Limits cfg s) (hlegal : s.illegalPhase = false)
    (hend : roundEnd ≠ .exit .continueNextIteration) : Ends cfg s s roundEnd :=
  ⟨rfl, hlegal, rfl, hs, Nat.le_refl _, fun h => absurd h hend⟩

theorem ends_recordPhase {next : OuterLoopIterationPhase} {u : LoopState} {roundEnd : RoundEnd}
    (hu : Ends cfg (s.recordPhase next) u roundEnd) : Ends cfg s u roundEnd :=
  ⟨hu.iterations, hu.legal, hu.planCalls, hu.limits, hu.driven, hu.back⟩

theorem recordPhase_legal {next : OuterLoopIterationPhase} (hlegal : s.illegalPhase = false)
    (hnext : phaseTransitionAllowed s.phase next = true) :
    (s.recordPhase next).illegalPhase = false := by
  rw [LoopState.recordPhase, hlegal, hnext]
  rfl

theorem limits_recordPhase (next : OuterLoopIterationPhase) (hs : Limits cfg s) :
    Limits cfg (s.recordPhase next) := ⟨hs.1, hs.2, hs.3, hs.4⟩

theorem ends_postToolsFeedback (hs : Limits cfg s) (hlegal : s.illegalPhase = false)
    (hphase : s.phase = .toolsExecute) (hbefore : t.driven < s.driven)
    (hiterations : s.budget = t.budget) (hcalls : s.planCalls = t.planCalls) :
    let r := s.postToolsFeedback cfg
    Ends cfg t r.1 r.2 := by
  unfold LoopState.postToolsFeedback
  cases htruncated : s.truncatedFeedback? with
  | some u =>
    have hwithin : Within cfg 1 s u := within_truncatedFeedback htruncated
    have hmore : s.driven ≤ u.driven := hwithin.driven ▸ Nat.le_add_right _ _
    refine ⟨congrArg _ (hwithin.budget.trans hiterations), hwithin.illegalPhase.trans hlegal,
      hwithin.planCalls.trans hcalls, hwithin.limits hs, ?_, fun _ => ⟨?_, ?_⟩⟩
    · exact Nat.le_trans (Nat.le_of_lt hbefore) hmore
    · exact Nat.lt_of_lt_of_le hbefore hmore
    · rw [hwithin.phase, hphase]
      rfl
  | none =>
    refine ⟨congrArg _ hiterations, hlegal, hcalls, hs, Nat.le_of_lt hbefore,
      fun _ => ⟨hbefore, ?_⟩⟩
    rw [hphase]
    rfl

theorem ends_postToolsExit (w : Round) (msg : Message) (hs : Limits cfg s)
    (hlegal : s.illegalPhase = false) (hphase : s.phase = .reflectDecided) :
    let r := s.postToolsExit cfg w msg
    Ends cfg s r.1 r.2 := by
  have hlegal' : (s.recordPhase .toolsExecute).illegalPhase = false :=
    recordPhase_legal hlegal (by rw [hphase]; rfl)
  have hs' : Limits cfg (s.recordPhase .toolsExecute) := limits_recordPhase _ hs
  unfold LoopState.postToolsExit
  cases msg.toolCalls with
  | none => exact ends_recordPhase (ends_here hs' hlegal' (by simp))
  | some calls =>
    cases w.toolRows with
    | none => exact ends_recordPhase (ends_here hs' hlegal' (by simp))
    | some rows =>
      refine ends_postToolsFeedback ⟨hs'.1, hs'.2, hs'.3, hs'.4⟩ hlegal' rfl ?_ rfl rfl
      simp only [LoopState.driven, LoopState.withToolRows, LoopState.recordPhase]
      omega

theorem ends_afterReflect (w : Round) (msg : Message) (ctl : ReflectBranchCtl) (hs : Limits cfg s)
    (hlegal : s.illegalPhase = false) (hphase : s.phase = .reflectDecided)
    (hbefore : t.driven + steps ctl = s.driven) (hiterations : s.budget = t.budget)
    (hcalls : s.planCalls = t.planCalls) :
    let r := s.afterReflect cfg w msg ctl
    Ends cfg t r.1 r.2 := by
  have hle : t.driven ≤ s.driven := by omega
  cases ctl with
  | breakOuter => exact ⟨congrArg _ hiterations, hlegal, hcalls, hs, hle, fun h => by cases h⟩
  | continueOuter =>
    refine ⟨congrArg _ hiterations, hlegal, hcalls, hs, hle, fun _ => ⟨?_, ?_⟩⟩
    · simp only [steps] at hbefore
      show t.driven < s.driven
      omega
    · show phaseTransitionAllowed s.phase .iterationEnter = true
      rw [hphase]
      rfl
  | proceedToTools =>
    unfold LoopState.afterReflect exitFromReflect
    simp only
    split_ifs
    · have hsame : ∀ u : LoopState, (u.dropRedundantToolCalls msg).budget = u.budget ∧
          (u.dropRedundantToolCalls msg).illegalPhase = u.illegalPhase ∧
          (u.dropRedundantToolCalls msg).planCalls = u.planCalls ∧
          (u.dropRedundantToolCalls msg).driven = u.driven ∧
          (Limits cfg u → Limits cfg (u.dropRedundantToolCalls msg)) := by
        intro u
        unfold LoopState.dropRedundantToolCalls
        cases u.messages.getLast? with
        | none => exact ⟨rfl, rfl, rfl, rfl, id⟩
        | some last =>
          simp only
          split_ifs <;> exact ⟨rfl, rfl, rfl, rfl, fun h => ⟨h.1, h.2, h.3, h.4⟩⟩
      obtain ⟨hbudget, hillegal, hplan, hdriven, hlimits⟩ := hsame s
      exact ⟨congrArg _ (hbudget.trans hiterations), hillegal.trans hlegal, hplan.trans hcalls,
        hlimits hs, Nat.le_trans hle (Nat.le_of_eq hdriven.symm), fun h => by cases h⟩
    · have hends := ends_postToolsExit w msg hs hlegal hphase
      exact ⟨hends.iterations.trans (congrArg _ hiterations), hends.legal,
        hends.planCalls.trans hcalls, hends.limits, Nat.le_trans hle hends.driven,
        fun h => ⟨Nat.lt_of_le_of_lt hle (hends.back h).1, (hends.back h).2⟩⟩

theorem ends_afterPlannerModel (w : Round) (msg : Message) (finishReason : String)
    (hs : Limits cfg s) (hlegal : s.illegalPhase = false) (hphase : s.phase = .afterPlannerModel) :
    let r := s.afterPlannerModel cfg w msg finishReason
    Ends cfg s r.1 r.2 := by
  unfold LoopState.afterPlannerModel
  split_ifs
  · exact ends_here hs hlegal (by simp)
  · have hwithin := within_reflectBranch cfg s w msg finishReason
    rcases hreflect : s.reflectBranch cfg w msg finishReason with ⟨t, _ | ctl⟩
    · rw [hreflect] at hwithin
      exact Ends.of_within hwithin
        (ends_here (hwithin.limits hs) (hwithin.illegalPhase.trans hlegal) (by simp))
    · rw [hreflect] at hwithin
      refine ends_afterReflect w msg ctl (limits_recordPhase _ (hwithin.limits hs)) ?_ rfl ?_
        hwithin.budget hwithin.planCalls
      · exact recordPhase_legal (hwithin.illegalPhase.trans hlegal)
          (by rw [hwithin.phase, hphase]; rfl)
      · exact hwithin.driven.symm

end Limits

section Runs

variable {cfg : LoopConfig} {s t : LoopState}

/-- The loop between two iterations. -/
structure Sound (cfg : LoopConfig) (s : LoopState) : Prop where
  limits : Limits cfg s
  legal : s.illegalPhase = false
  back : phaseTransitionAllowed s.phase .iterationEnter = true
  driven : s.budget.outerLoopIterations ≤ s.driven
  planCalls : s.planCalls ≤ s.budget.outerLoopIterations

/-- The loop after an iteration, whether another one follows or not. -/
structure After (cfg : LoopConfig) (t : LoopState) : Prop where
  limits : Limits cfg t
  legal : t.illegalPhase = false
  driven : t.budget.outerLoopIterations ≤ t.driven + 1
  planCalls : t.planCalls < defaultMaxOuterLoopIterations

theorem after_of_ends {v : LoopState} {roundEnd : RoundEnd} (h : Sound cfg s)
    (hends : Ends cfg v t roundEnd)
    (hiterations : v.budget.outerLoopIterations = s.budget.outerLoopIterations + 1)
    (hcalls : v.planCalls = s.planCalls + 1) (hdriven : v.driven = s.driven)
    (hbelow : s.budget.outerLoopIterations + 1 < defaultMaxOuterLoopIterations) :
    After cfg t ∧ t.budget.outerLoopIterations = s.budget.outerLoopIterations + 1 ∧
      (roundEnd = .exit .continueNextIteration →
        Sound cfg t ∧ t.budget.outerLoopIterations < defaultMaxOuterLoopIterations) := by
  have hcount := hends.iterations.trans hiterations
  have hplan := hends.planCalls.trans hcalls
  have hle := hends.driven
  have hwas := h.driven
  have hasked := h.planCalls
  refine ⟨⟨hends.limits, hends.legal, by omega, by omega⟩, hcount, fun hnext => ?_⟩
  obtain ⟨hlt, hback⟩ := hends.back hnext
  exact ⟨⟨hends.limits, hends.legal, hback, by omega, by omega⟩, by omega⟩

/-- One iteration. If another one follows, the loop is sound again and below its limit. -/
theorem singleIteration_spec (h : Sound cfg s) (hlow : s.planCalls < defaultMaxOuterLoopIterations)
    (w : Round) :
    let r := s.recordOuterLoopIteration.singleIteration cfg w
    After cfg r.1 ∧ r.1.budget.outerLoopIterations = s.budget.outerLoopIterations + 1 ∧
      (r.2 = .exit .continueNextIteration →
        Sound cfg r.1 ∧ r.1.budget.outerLoopIterations < defaultMaxOuterLoopIterations) := by
  set u := s.recordOuterLoopIteration with hu
  have hdriven : u.budget.outerLoopIterations ≤ u.driven + 1 := Nat.succ_le_succ h.driven
  have hlimits : Limits cfg u := ⟨h.limits.1, h.limits.2, h.limits.3, h.limits.4⟩
  have henter : (u.recordPhase .iterationEnter).illegalPhase = false :=
    recordPhase_legal h.legal h.back
  unfold LoopState.singleIteration
  cases hguard : u.outerLoopIterationGuard cfg w with
  | some error => exact ⟨⟨hlimits, h.legal, hdriven, hlow⟩, rfl, fun hend => by cases hend⟩
  | none =>
    have hbelow : s.budget.outerLoopIterations + 1 < defaultMaxOuterLoopIterations := by
      by_contra hnot
      have hmax : defaultMaxOuterLoopIterations ≤ u.budget.outerLoopIterations := Nat.not_lt.mp hnot
      rw [LoopState.outerLoopIterationGuard, if_pos hmax] at hguard
      cases hguard
    cases w.prepared with
    | error e =>
      exact ⟨⟨limits_recordPhase _ hlimits, henter, hdriven, hlow⟩, rfl, fun hend => by cases hend⟩
    | ok messages =>
      have hasked : (u.askPlanner w messages).illegalPhase = false := recordPhase_legal henter rfl
      have hkept : Limits cfg (u.askPlanner w messages) :=
        ⟨hlimits.1, hlimits.2, hlimits.3, hlimits.4⟩
      cases w.reply with
      | error e =>
        have hcalls : s.planCalls + 1 < defaultMaxOuterLoopIterations :=
          Nat.lt_of_le_of_lt (Nat.succ_le_succ h.planCalls) hbelow
        exact ⟨⟨hkept, hasked, hdriven, hcalls⟩, rfl, fun hend => by cases hend⟩
      | ok reply =>
        have hpushed : Limits cfg ((u.askPlanner w messages).pushReply cfg reply.1 reply.2) :=
          ⟨hkept.1, hkept.2, hkept.3, hkept.4⟩
        have hends := ends_afterPlannerModel w reply.1 reply.2
          (limits_recordPhase .afterPlannerModel hpushed) (recordPhase_legal hasked rfl) rfl
        exact after_of_ends h hends rfl rfl rfl hbelow

theorem run_spec (h : Sound cfg s)
    (hlow : s.budget.outerLoopIterations < defaultMaxOuterLoopIterations) (rounds : List Round) :
    let r := runAgentOuterLoop cfg s rounds
    After cfg r.1 ∧ (r.2 = .running →
      r.1.budget.outerLoopIterations = s.budget.outerLoopIterations + rounds.length ∧
        r.1.budget.outerLoopIterations < defaultMaxOuterLoopIterations) := by
  induction rounds generalizing s with
  | nil =>
    exact ⟨⟨h.limits, h.legal, Nat.le_succ_of_le h.driven, Nat.lt_of_le_of_lt h.planCalls hlow⟩,
      fun _ => ⟨rfl, hlow⟩⟩
  | cons w rounds ih =>
    have hstep := singleIteration_spec h (Nat.lt_of_le_of_lt h.planCalls hlow) w
    unfold runAgentOuterLoop
    rcases hiteration : s.recordOuterLoopIteration.singleIteration cfg w with ⟨t, (_ | _) | error⟩
    · rw [hiteration] at hstep
      obtain ⟨-, hcount, hnext⟩ := hstep
      obtain ⟨hsound, hbelow⟩ := hnext rfl
      obtain ⟨hafter, hrunning⟩ := ih hsound hbelow
      refine ⟨hafter, fun hrun => ?_⟩
      obtain ⟨hlen, hmax⟩ := hrunning hrun
      refine ⟨?_, hmax⟩
      simp only at hcount hlen ⊢
      rw [hlen, hcount, List.length_cons]
      omega
    · rw [hiteration] at hstep
      exact ⟨hstep.1, fun hrun => by cases hrun⟩
    · rw [hiteration] at hstep
      exact ⟨hstep.1, fun hrun => by cases hrun⟩

theorem sound_start (cfg : LoopConfig) (messages : List Message) :
    Sound cfg (LoopState.start messages) :=
  ⟨⟨Nat.zero_le _, Nat.zero_le _, Nat.zero_le _, Nat.zero_le _⟩, rfl, rfl, Nat.zero_le _,
    Nat.zero_le _⟩

/-- Rounds that come after the end of the loop change nothing. -/
theorem run_append (rounds more : List Round)
    (hend : (runAgentOuterLoop cfg s rounds).2 ≠ .running) :
    runAgentOuterLoop cfg s (rounds ++ more) = runAgentOuterLoop cfg s rounds := by
  induction rounds generalizing s with
  | nil => exact absurd rfl hend
  | cons w rounds ih =>
    rw [List.cons_append]
    unfold runAgentOuterLoop at hend ⊢
    rcases hiteration : s.recordOuterLoopIteration.singleIteration cfg w with ⟨t, (_ | _) | error⟩
    · rw [hiteration] at hend
      exact ih hend
    · rfl
    · rfl

/-- Whatever the model replies and the tools return, the loop has ended after 500 iterations and the
model has been asked at most 499 times; what comes after the end changes nothing. -/
theorem outer_loop_ends (cfg : LoopConfig) (messages : List Message) (rounds : List Round) :
    let r := runAgentOuterLoop cfg (LoopState.start messages) rounds
    (r.2 = .running → rounds.length < 500) ∧ r.1.planCalls ≤ 499 ∧
      (r.2 ≠ .running → ∀ more,
        runAgentOuterLoop cfg (LoopState.start messages) (rounds ++ more) = r) := by
  obtain ⟨hafter, hrunning⟩ := run_spec (sound_start cfg messages) (Nat.zero_lt_succ 499) rounds
  refine ⟨fun hrun => ?_, Nat.le_of_lt_succ hafter.planCalls,
    fun hend more => run_append _ more hend⟩
  obtain ⟨hlen, hmax⟩ := hrunning hrun
  rw [hlen] at hmax
  simpa [LoopState.start, defaultMaxOuterLoopIterations] using hmax

/-- In every run each kind of feedback and the rewriting of plans stay within their limits, and
every iteration but the last is accounted for by a round of tools, a rewrite or a feedback. -/
theorem outer_loop_accounted (cfg : LoopConfig) (messages : List Message) (rounds : List Round) :
    let t := (runAgentOuterLoop cfg (LoopState.start messages) rounds).1
    t.truncatedFeedbackInjected ≤ 2 ∧ t.buildIdleFeedbackInjected ≤ 4 ∧
      t.missingFinalAnswerFeedbackInjected ≤ 2 ∧
      t.planRewriteAttempts ≤ max cfg.planRewriteMaxAttempts 1 ∧
      t.budget.outerLoopIterations ≤ t.toolRounds + t.planRewriteAttempts +
        t.buildIdleFeedbackInjected + t.missingFinalAnswerFeedbackInjected +
        t.truncatedFeedbackInjected + 1 := by
  intro t
  have hafter : After cfg t := (run_spec (sound_start cfg messages) (Nat.zero_lt_succ 499) rounds).1
  have hdriven := hafter.driven
  have hrewrites : t.planRewriteAttempts ≤ max cfg.planRewriteMaxAttempts 1 :=
    hafter.limits.rewrites
  have hidle : t.buildIdleFeedbackInjected ≤ 4 := hafter.limits.buildIdle
  have hmissing : t.missingFinalAnswerFeedbackInjected ≤ 2 := hafter.limits.missingAnswer
  have htruncated : t.truncatedFeedbackInjected ≤ 2 := hafter.limits.truncated
  refine ⟨htruncated, hidle, hmissing, hrewrites, ?_⟩
  rwa [LoopState.driven] at hdriven

/-- No run takes the driver through a transition that its table does not allow. -/
theorem outer_loop_phases (cfg : LoopConfig) (messages : List Message) (rounds : List Round) :
    (runAgentOuterLoop cfg (LoopState.start messages) rounds).1.illegalPhase = false :=
  (run_spec (sound_start cfg messages) (Nat.zero_lt_succ 499) rounds).1.legal

end Runs

end CrabMate.OuterLoop
