import CrabMate.Context.Compaction

/-! One committed turn: the caller hands over the stored history with the new user message,
the agent loop works on the derived view, and the view is committed and cleaned for storage. -/
namespace CrabMate
open Positions List

def stripLongTermMemoryInjections (messages : List Message) : List Message :=
  messages.filter fun m => !m.isLongTermMemoryInjection

def stripWorkspaceChangelistInjections (messages : List Message) : List Message :=
  messages.filter fun m => !m.isWorkspaceChangelistInjection

def shouldStripUserBeforeConversationStore (m : Message) : Bool :=
  m.role == "user" && m.isServerInjectedUserMessage && !m.isFirstTurnWorkspaceContextInjection &&
    !m.isContextSummaryInjection

def stripOrchestrationInjectedUsersForConversationStore (messages : List Message) : List Message :=
  messages.filter fun m => !shouldStripUserBeforeConversationStore m

def stripPersistInjections (messages : List Message) : List Message :=
  (stripOrchestrationInjectedUsersForConversationStore
    (stripWorkspaceChangelistInjections (stripLongTermMemoryInjections messages))).filter
      fun m => !m.isExecutionConstraintEphemeralSystem

/-- A turn of the agent. `prepare` is what the caller does to the stored history before the
user message goes in: refreshing the system prompt and placing server rows. -/
structure Turn where
  user : Message
  isUser : realUser user = true
  prepare : List Message → List Message
  prepare_rows : ∀ ms, (prepare ms).filter conversationRow = ms.filter conversationRow
  ops : List TurnOp
  artifacts : List Message
  isArtifact : ∀ m ∈ artifacts, m.isModelContextArtifactMarker = true

namespace Turn

variable (turn : Turn)

/-- The conversation rows the turn brings in. -/
def appended : List Message := turn.user :: turn.ops.flatMap TurnOp.appended

def opening (stored : List Message) : List Message := turn.prepare stored ++ [turn.user]

/-- The view after the agent loop. -/
def view (stored : List Message) : ModelContextView :=
  { ModelContextView.derive (turn.opening stored) with
    messages := turn.ops.foldl TurnOp.apply (turn.opening stored) }

variable (parseJson : String → Option JsonValue)

/-- `commit_successful_model_context_view`: the artifact rows go to the history first. -/
def commitSuccessfulModelContextView (stored : List Message) : List Message × StructuralCommit :=
  (turn.view stored).commitCurrentTurnTo parseJson (turn.opening stored ++ turn.artifacts)

/-- The messages and the commit that go to the store. -/
def committed (stored : List Message) : List Message × StructuralCommit :=
  (stripPersistInjections (turn.commitSuccessfulModelContextView parseJson stored).1,
    (turn.commitSuccessfulModelContextView parseJson stored).2)

end Turn

/-- The conversation rows start with a real user. -/
def StartsWithUser (rows : List Message) : Prop := ∀ m, rows.head? = some m → realUser m = true

theorem StartsWithUser.append {rows₁ rows₂ : List Message} (h₁ : StartsWithUser rows₁)
    (h₂ : StartsWithUser rows₂) : StartsWithUser (rows₁ ++ rows₂) := by
  intro m hm
  cases rows₁ with
  | nil => exact h₂ m hm
  | cons x rows₁ => exact h₁ m hm

/-- Then no conversation row stands before the first real user. -/
theorem StartsWithUser.before_user {ms : List Message}
    (h : StartsWithUser (ms.filter conversationRow)) {pre rest : List Message}
    (hsplit : ms = pre ++ rest) (hpre : ∀ m ∈ pre, realUser m = false) :
    pre.filter conversationRow = [] := by
  cases hf : pre.filter conversationRow with
  | nil => rfl
  | cons x xs =>
    have hx : x ∈ pre.filter conversationRow := by simp [hf]
    have hreal := h x (by rw [hsplit, filter_append, hf]; rfl)
    rw [hpre x (mem_of_mem_filter hx)] at hreal
    cases hreal

theorem realUser_conversationRow {m : Message} (h : realUser m = true) :
    conversationRow m = true := by
  simp [conversationRow, h]

theorem filter_stripPersistInjections (ms : List Message) :
    (stripPersistInjections ms).filter conversationRow = ms.filter conversationRow := by
  simp only [stripPersistInjections, stripOrchestrationInjectedUsersForConversationStore,
    stripWorkspaceChangelistInjections, stripLongTermMemoryInjections, filter_filter]
  apply filter_congr
  intro m _
  cases hc : conversationRow m with
  | false => simp
  | true =>
    have hrole : m.role ≠ "system" := by
      intro hs
      have hreal : realUser m = false := Message.not_realUser_of_system hs
      simp [conversationRow, hreal, hs] at hc
    have hinj : m.role = "user" → m.isServerInjectedUserMessage = false := by
      intro hr
      have hreal : realUser m = true := by simpa [conversationRow, hr] using hc
      have hnot := (Bool.and_eq_true_iff.mp hreal).2
      simpa using hnot
    have hname : m.role = "user" → m.isServerInjectedUserByName = false := by
      intro hr
      have hi := hinj hr
      simp only [Message.isServerInjectedUserMessage, hr, beq_self_eq_true, Bool.true_and,
        Bool.or_eq_false_iff] at hi
      exact hi.1
    have hltm : m.isLongTermMemoryInjection = false := by
      by_cases hr : m.role = "user"
      · have hn := hname hr
        simp only [Message.isServerInjectedUserByName, Bool.or_eq_false_iff] at hn
        simp only [Message.isLongTermMemoryInjection, hn.1.1.1.1.1, Bool.and_false]
      · simp [Message.isLongTermMemoryInjection, hr]
    have hlist : m.isWorkspaceChangelistInjection = false := by
      by_cases hr : m.role = "user"
      · have hn := hname hr
        simp only [Message.isServerInjectedUserByName, Bool.or_eq_false_iff] at hn
        simp only [Message.isWorkspaceChangelistInjection, hn.1.1.1.1.2, Bool.and_false]
      · simp [Message.isWorkspaceChangelistInjection, hr]
    have horch : shouldStripUserBeforeConversationStore m = false := by
      by_cases hr : m.role = "user"
      · simp [shouldStripUserBeforeConversationStore, hinj hr]
      · simp [shouldStripUserBeforeConversationStore, hr]
    have hconstraint : m.isExecutionConstraintEphemeralSystem = false := by
      simp [Message.isExecutionConstraintEphemeralSystem, hrole]
    simp [hltm, hlist, horch, hconstraint]

section Commit

variable (parseJson : String → Option JsonValue)

theorem take_firstRemoval_rows {canonical : List Message}
    (h : StartsWithUser (canonical.filter conversationRow)) (view : ModelContextView) :
    (canonical.take (view.firstRemoval canonical)).filter conversationRow = [] :=
  h.before_user (take_append_drop _ _).symm
    (not_realUser_of_mem_take_firstRemoval view canonical)

/-- The additions of a commit are the conversation rows behind the anchor. -/
theorem additions_rows {view : ModelContextView} {u : Message} {before after : List Message}
    (hsplit : view.messages = before ++ u :: after)
    (hside : ∀ m ∈ view.originalParkedSidecars, conversationRow m = false) :
    (view.additions parseJson before.length).filter conversationRow =
      after.filter conversationRow := by
  have hdrop : view.messages.drop (before.length + 1) = after := by
    rw [hsplit, ← singleton_append, ← append_assoc]
    exact drop_left' (by simp)
  rw [ModelContextView.additions, hdrop, filter_filter]
  apply filter_congr
  intro m _
  cases hm : conversationRow m with
  | false => simp
  | true =>
    have hnot : (view.originalParkedSidecars.any (· == m)) = false := by
      rw [any_eq_false]
      intro x hx hbeq
      have hxm : x = m := by simpa using hbeq
      rw [← hxm, hside x hx] at hm
      cases hm
    simp [hnot]

/-- A committed turn splits the old conversation and the turn's rows between the archived
prefix and the stored messages, which start with a real user again. -/
theorem Turn.committed_rows (turn : Turn) {stored : List Message}
    (h : StartsWithUser (stored.filter conversationRow)) :
    (turn.committed parseJson stored).2.archivedPrefix.filter conversationRow ++
        (turn.committed parseJson stored).1.filter conversationRow =
      stored.filter conversationRow ++ turn.appended.filter conversationRow ∧
    StartsWithUser ((turn.committed parseJson stored).1.filter conversationRow) := by
  have hu := turn.isUser
  have hurow : conversationRow turn.user = true := realUser_conversationRow hu
  -- the rows of the history the commit works on
  have hart : turn.artifacts.filter conversationRow = [] :=
    filter_eq_nil_iff.mpr fun m hm => by
      simp [conversationRow_ignoresSideRows.artifact m (turn.isArtifact m hm)]
  have hcan : (turn.opening stored ++ turn.artifacts).filter conversationRow =
      stored.filter conversationRow ++ [turn.user] := by
    simp [Turn.opening, turn.prepare_rows, hart, hurow]
  have hstart : StartsWithUser ((turn.opening stored ++ turn.artifacts).filter conversationRow) := by
    rw [hcan]
    refine h.append fun m hm => ?_
    cases hm
    exact hu
  -- the view behind the current user
  have hopen : TurnView turn.user [] (turn.opening stored) :=
    ⟨turn.prepare stored, [], rfl, by simp, rfl, rfl⟩
  have hview : TurnView turn.user (turn.ops.flatMap TurnOp.appended) (turn.view stored).messages :=
    turnView_run hu turn.ops hopen
  obtain ⟨before, after, hsplit, hafter, -, hrows⟩ := hview.split
  have hanchor : rposition realUser (turn.view stored).messages = some before.length := by
    rw [hsplit]
    exact rposition_append_cons hu hafter
  have hside : ∀ m ∈ (turn.view stored).originalParkedSidecars, conversationRow m = false := by
    intro m hm
    rcases Bool.or_eq_true_iff.mp (mem_filter.mp hm).2 with hm | hm
    · exact conversationRow_ignoresSideRows.timeline m hm
    · exact conversationRow_ignoresSideRows.artifact m hm
  have hadd := additions_rows parseJson hsplit hside
  have hhead := take_firstRemoval_rows hstart (turn.view stored)
  simp only [Turn.committed, filter_stripPersistInjections]
  constructor
  · rw [Turn.commitSuccessfulModelContextView, commit_filter parseJson
      conversationRow_ignoresSideRows (turn.view stored) _ hanchor hhead, hadd, hrows, hcan,
      Turn.appended, filter_cons_of_pos hurow, append_assoc, singleton_append]
  · have hcount : countRealUsers (turn.opening stored ++ turn.artifacts) -
        countRealUsers ((turn.view stored).messages.take (before.length + 1)) <
        countRealUsers (turn.opening stored ++ turn.artifacts) := by
      have hkeep : 0 < countRealUsers ((turn.view stored).messages.take (before.length + 1)) :=
        countP_pos_iff.mpr ⟨turn.user, by simp [hsplit, take_append], hu⟩
      have hold : 0 < countRealUsers (turn.opening stored ++ turn.artifacts) :=
        countP_pos_iff.mpr ⟨turn.user, by simp [Turn.opening], hu⟩
      omega
    obtain ⟨x, rest, hdrop, hx⟩ := drop_tailStart (turn.view stored) _ hcount
    rw [Turn.commitSuccessfulModelContextView, commit_next_filter parseJson
      conversationRow_ignoresSideRows (turn.view stored) _ hanchor hhead, hdrop,
      filter_cons_of_pos (realUser_conversationRow hx)]
    intro m hm
    cases hm
    exact hx

end Commit
end CrabMate
