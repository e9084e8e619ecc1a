import CrabMate.Lib.Str
import CrabMate.Lib.Json

/-! Chat messages and the predicates that classify them: real user turns, server-injected
user rows, context summaries, timeline rows and model-context artifacts. -/
namespace CrabMate
open RustStr

structure FunctionCall where
  name : String
  arguments : String
  deriving DecidableEq

structure ToolCall where
  id : String
  typ : String
  function : FunctionCall
  deriving DecidableEq

/-- Plain text, or the parts array of a multimodal message. -/
inductive MessageContent where
  | text (s : String)
  | parts (ps : List JsonValue)
  deriving DecidableEq

structure Message where
  role : String
  content : Option MessageContent
  reasoningContent : Option String
  reasoningDetails : Option (List JsonValue)
  toolCalls : Option (List ToolCall)
  name : Option String
  toolCallId : Option String
  deriving DecidableEq

def crabmateTimelineName : String := "crabmate_timeline"
def crabmateModelContextArtifactName : String := "crabmate_model_context_artifact"
def crabmateLongTermMemoryName : String := "crabmate_long_term_memory"
def crabmateWorkspaceChangelistName : String := "crabmate_workspace_changelist"
def crabmateFirstTurnWorkspaceContextName : String := "crabmate_first_turn_workspace_context"
def crabmateContextSummaryName : String := "crabmate_context_summary"
def crabmatePlannerToolCallRejectName : String := "crabmate_planner_tool_call_reject"
def crabmatePlanRewriteName : String := "crabmate_plan_rewrite"
def crabmateExecutionConstraintHintName : String := "crabmate_execution_constraint_hint"

def contextSummaryInjectionContentPrefix : String := "[较早对话已摘要，以下为压缩要点]"
def stagedPlannerToolCallRejectPrefix : String :=
  "### 规划轮约束提醒（code=PLANNER_TOOL_CALL_REJECTED）"
def outerLoopBuildIdleOrchestrationPrefix : String := "【编排纠偏】"
def longTermMemoryInjectionContentPrefix : String := "以下为与当前问题可能相关的长期记忆"

def messageContentAsStr : Option MessageContent → Option String
  | some (.text s) => some s
  | some (.parts _) => none
  | none => none

def bodyStartsWith (p s : String) : Bool := startsWith p.toList (trimStart s.toList)

def bodyContains (p s : String) : Bool := contains p.toList s.toList

def isPlanRewriteInjectedUserContent (s : String) : Bool :=
  bodyContains "你的最终回答缺少**结构化规划**" s ||
  bodyContains "crabmate_plan_semantic_feedback" s ||
  bodyContains "侧向校验认为你的 **agent_reply_plan**" s

def userMessageShouldHideForChatDisplay (s : String) : Bool :=
  bodyStartsWith stagedPlannerToolCallRejectPrefix s ||
  bodyStartsWith "### 分阶段规划 · 步级反馈" s ||
  isPlanRewriteInjectedUserContent s ||
  bodyStartsWith longTermMemoryInjectionContentPrefix s ||
  bodyStartsWith contextSummaryInjectionContentPrefix s ||
  bodyStartsWith outerLoopBuildIdleOrchestrationPrefix s

namespace Message

def isChatTimelineMarker (m : Message) : Bool :=
  m.role == "system" && m.name == some crabmateTimelineName

def isModelContextArtifactMarker (m : Message) : Bool :=
  m.role == "system" && m.name == some crabmateModelContextArtifactName

def isExecutionConstraintEphemeralSystem (m : Message) : Bool :=
  m.role == "system" && m.name == some crabmateExecutionConstraintHintName

def isLongTermMemoryInjection (m : Message) : Bool :=
  m.role == "user" && m.name == some crabmateLongTermMemoryName

def isWorkspaceChangelistInjection (m : Message) : Bool :=
  m.role == "user" && m.name == some crabmateWorkspaceChangelistName

def isFirstTurnWorkspaceContextInjection (m : Message) : Bool :=
  m.role == "user" && m.name == some crabmateFirstTurnWorkspaceContextName

def isContextSummaryInjection (m : Message) : Bool :=
  m.role == "user" && (m.name == some crabmateContextSummaryName ||
    (messageContentAsStr m.content).any (bodyStartsWith contextSummaryInjectionContentPrefix))

def isServerInjectedUserByName (m : Message) : Bool :=
  m.name == some crabmateLongTermMemoryName ||
  m.name == some crabmateWorkspaceChangelistName ||
  m.name == some crabmateFirstTurnWorkspaceContextName ||
  m.name == some crabmatePlannerToolCallRejectName ||
  m.name == some crabmatePlanRewriteName ||
  m.name == some crabmateContextSummaryName

def isServerInjectedUserMessage (m : Message) : Bool :=
  m.role == "user" && (isServerInjectedUserByName m ||
    (messageContentAsStr m.content).any userMessageShouldHideForChatDisplay)

/-- The real user turns, counted by branch truncation and turn grouping
(`user_message_counts_for_branch_truncation`). -/
def userMessageCountsForBranchTruncation (m : Message) : Bool :=
  m.role == "user" && !isServerInjectedUserMessage m

def userOnly (content : String) : Message :=
  ⟨"user", some (.text content), none, none, none, none, none⟩

def userServerInjection (name content : String) : Message :=
  ⟨"user", some (.text content), none, none, none, some name, none⟩

def userContextSummaryInjection (summaryText : String) : Message :=
  userServerInjection crabmateContextSummaryName
    (contextSummaryInjectionContentPrefix ++ "\n" ++ trimString summaryText)

@[simp] theorem role_of_realUser {m : Message} (h : m.userMessageCountsForBranchTruncation) :
    m.role = "user" := by
  have := (Bool.and_eq_true_iff.mp h).1
  simpa using this

/-- A summary row is never counted as a real user turn. -/
theorem not_realUser_of_summary {m : Message} (h : m.isContextSummaryInjection) :
    m.userMessageCountsForBranchTruncation = false := by
  obtain ⟨hr, hn⟩ := Bool.and_eq_true_iff.mp h
  have hi : m.isServerInjectedUserMessage = true := by
    rcases Bool.or_eq_true_iff.mp hn with hn | hc
    · simp [isServerInjectedUserMessage, isServerInjectedUserByName, hr, hn]
    · cases hs : messageContentAsStr m.content with
      | none => simp [hs] at hc
      | some s =>
        have hp : bodyStartsWith contextSummaryInjectionContentPrefix s = true := by
          simpa [hs] using hc
        simp [isServerInjectedUserMessage, hr, hs, userMessageShouldHideForChatDisplay, hp]
  simp [userMessageCountsForBranchTruncation, hi]

theorem not_realUser_of_system {m : Message} (h : m.role = "system") :
    m.userMessageCountsForBranchTruncation = false := by
  simp [userMessageCountsForBranchTruncation, h]

theorem role_of_timeline {m : Message} (h : m.isChatTimelineMarker) : m.role = "system" := by
  simpa using (Bool.and_eq_true_iff.mp h).1

theorem role_of_artifact {m : Message} (h : m.isModelContextArtifactMarker) :
    m.role = "system" := by
  simpa using (Bool.and_eq_true_iff.mp h).1

end Message

/-- What one commit of a model-context view moved out of the canonical history. -/
structure StructuralCommit where
  archivedPrefix : List Message
  prefixSummarized : Bool
  archivedArtifacts : List Message
  appended : Nat
  rangeStart : Nat
  rangeEnd : Nat
  deriving DecidableEq

namespace StructuralCommit

/-- `StructuralCommit::default()`. -/
def empty : StructuralCommit := ⟨[], false, [], 0, 0, 0⟩

end StructuralCommit
end CrabMate
