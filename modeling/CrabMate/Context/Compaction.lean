import CrabMate.Context.View

/-! What a turn does to its model-context view: appended rows, removal of the oldest turn
groups, folding of a prefix into a summary, and the synchronous pipeline that parks the side
rows. The current turn, from its real user on, comes through all of them. -/
namespace CrabMate
open Positions List

structure ConversationTurnGroup where
  start : ℕ
  stop : ℕ
  deriving DecidableEq

/-- The half-open ranges from one real user to the next. -/
def conversationTurnGroups (messages : List Message) : List ConversationTurnGroup :=
  let starts := indices realUser messages
  starts.zipIdx.map fun e => ⟨e.1, (starts[e.2 + 1]?).getD messages.length⟩

structure RemovedPrefix where
  start : ℕ
  removed : ℕ
  deriving DecidableEq

def removeOldestTurnGroup (messages : List Message) (minGroupsToKeep : ℕ) :
    List Message × RemovedPrefix :=
  let groups := conversationTurnGroups messages
  if groups.length ≤ minGroupsToKeep then (messages, ⟨0, 0⟩)
  else
    match groups with
    | [] => (messages, ⟨0, 0⟩)
    | oldest :: _ =>
      (messages.take oldest.start ++ messages.drop oldest.stop,
        ⟨oldest.start, oldest.stop - oldest.start⟩)

/-- Moves the side rows out of the way of the budgets. -/
def takeChatTimelineMarkers (messages : List Message) : List Message × List Message :=
  (messages.filter fun m => !(m.isChatTimelineMarker || m.isModelContextArtifactMarker),
    messages.filter fun m => m.isChatTimelineMarker || m.isModelContextArtifactMarker)

/-- A tool result may follow another result or an assistant row with tool calls. -/
def answersCall (prev : Message) : Bool :=
  prev.role == "tool" || (prev.role == "assistant" && prev.toolCalls.any fun c => !c.isEmpty)

/-- The rows kept behind the last kept row `prev`. -/
def dropOrphansAfter (prev : Option Message) : List Message → List Message
  | [] => []
  | m :: ms =>
    if m.role = "tool" ∧ prev.any answersCall = false then dropOrphansAfter prev ms
    else m :: dropOrphansAfter (some m) ms

def dropOrphanToolMessages (messages : List Message) : List Message :=
  dropOrphansAfter none messages

/-- The loop that moves the first kept group back while the tail is too short. -/
def firstKeptGroup (messages : List Message) (groups : List ConversationTurnGroup)
    (requestedTail : ℕ) : ℕ → ℕ
  | 0 => 0
  | 1 => 1
  | k + 2 =>
    if messages.length - ((groups[k + 2]?).map ConversationTurnGroup.start).getD 0 <
        requestedTail then
      firstKeptGroup messages groups requestedTail (k + 1)
    else k + 2

def completeTurnGroupTailLen (messages : List Message) (requestedTail : ℕ) : Option ℕ :=
  let groups := conversationTurnGroups messages
  if groups.length < 3 then none
  else
    (groups[firstKeptGroup messages groups requestedTail (groups.length - 2)]?).map fun g =>
      messages.length - g.start

def applyLlmSummaryToMessages (messages : List Message) (tail : ℕ) (summaryText : String) :
    List Message :=
  let tailStart := messages.length - tail
  dropOrphanToolMessages
    (messages.take 1 ++ [.userContextSummaryInjection summaryText] ++ messages.drop tailStart)

/-- A summary attempt that reached the model: only a view with a leading system row and
something between it and the kept tail is folded. -/
def summarizeWith (messages : List Message) (requestedTail : ℕ) (summaryText : String) :
    List Message :=
  if messages.head?.all fun m => m.role != "system" then messages
  else
    match completeTurnGroupTailLen messages requestedTail with
    | none => messages
    | some tail =>
      if messages.length ≤ 1 + tail + 1 then messages
      else applyLlmSummaryToMessages messages tail summaryText

/-- The trimming loops: the oldest group goes while the budget asks for it. -/
def trimGroups (messages : List Message) : ℕ → List Message
  | 0 => messages
  | n + 1 => trimGroups (removeOldestTurnGroup messages 1).1 n

/-- The synchronous pipeline with `removals` groups over the budgets. -/
def applySessionSyncPipeline (messages : List Message) (removals : ℕ) : List Message :=
  let (kept, parked) := takeChatTimelineMarkers messages
  dropOrphanToolMessages (trimGroups kept removals) ++ parked

/-- What the agent loop does to the view in one turn. Tool results are appended directly
behind the assistant row that calls for them; no appended row is a real user. -/
inductive TurnOp where
  | say (m : Message) (hrole : m.role ≠ "tool") (hreal : realUser m = false)
  | toolRound (call : Message) (results : List Message) (hcall : call.role = "assistant")
      (hcalls : (call.toolCalls.any fun c => !c.isEmpty) = true)
      (hresults : ∀ r ∈ results, r.role = "tool")
  | removeOldest (minGroupsToKeep : ℕ) (hkeep : 0 < minGroupsToKeep)
  | summarize (requestedTail : ℕ) (summaryText : String)
  | sync (removals : ℕ)

namespace TurnOp

def appended : TurnOp → List Message
  | .say m _ _ => [m]
  | .toolRound call results _ _ _ => call :: results
  | _ => []

def apply (messages : List Message) : TurnOp → List Message
  | .say m _ _ => messages ++ [m]
  | .toolRound call results _ _ _ => messages ++ call :: results
  | .removeOldest minGroupsToKeep _ => (removeOldestTurnGroup messages minGroupsToKeep).1
  | .summarize requestedTail summaryText => summarizeWith messages requestedTail summaryText
  | .sync removals => applySessionSyncPipeline messages removals

end TurnOp

/-- The rows of the conversation proper. -/
def conversationRow (m : Message) : Bool :=
  realUser m || m.role == "assistant" || m.role == "tool"

theorem conversationRow_ignoresSideRows : IgnoresSideRows conversationRow where
  summary m h := by
    have hrole : m.role = "user" := by simpa using (Bool.and_eq_true_iff.mp h).1
    have hreal : realUser m = false := Message.not_realUser_of_summary h
    simp [conversationRow, hreal, hrole]
  artifact m h := by
    have hrole := Message.role_of_artifact h
    have hreal : realUser m = false := Message.not_realUser_of_system hrole
    simp [conversationRow, hreal, hrole]
  timeline m h := by
    have hrole := Message.role_of_timeline h
    have hreal : realUser m = false := Message.not_realUser_of_system hrole
    simp [conversationRow, hreal, hrole]

section Orphans

theorem dropOrphansAfter_of_not_tool {prev : Option Message} {m : Message} {ms : List Message}
    (h : m.role ≠ "tool") :
    dropOrphansAfter prev (m :: ms) = m :: dropOrphansAfter (some m) ms := by
  simp [dropOrphansAfter, h]

/-- A row that is no tool result cuts the list: what is kept behind it depends on it alone. -/
theorem dropOrphansAfter_split {m : Message} (h : m.role ≠ "tool") (ms₁ ms₂ : List Message)
    (prev : Option Message) :
    dropOrphansAfter prev (ms₁ ++ m :: ms₂) =
      dropOrphansAfter prev ms₁ ++ m :: dropOrphansAfter (some m) ms₂ := by
  induction ms₁ generalizing prev with
  | nil => exact dropOrphansAfter_of_not_tool h
  | cons x ms₁ ih =>
    simp only [cons_append, dropOrphansAfter]
    split
    · exact ih prev
    · rw [ih, cons_append]

theorem getLast?_dropOrphansAfter_append (prev : Option Message) (ms₁ ms₂ : List Message) :
    dropOrphansAfter prev (ms₁ ++ ms₂) = dropOrphansAfter prev ms₁ ++
      dropOrphansAfter ((dropOrphansAfter prev ms₁).getLast?.or prev) ms₂ := by
  induction ms₁ generalizing prev with
  | nil => rfl
  | cons m ms₁ ih =>
    simp only [cons_append, dropOrphansAfter]
    split
    · exact ih prev
    · rw [ih (some m), cons_append, getLast?_cons]
      cases (dropOrphansAfter (some m) ms₁).getLast? <;> rfl

theorem dropOrphansAfter_sublist (prev : Option Message) (ms : List Message) :
    (dropOrphansAfter prev ms).Sublist ms := by
  induction ms generalizing prev with
  | nil => exact List.Sublist.refl _
  | cons m ms ih =>
    unfold dropOrphansAfter
    split
    · exact (ih prev).trans (sublist_cons_self _ _)
    · exact (ih (some m)).cons_cons m

theorem dropOrphansAfter_no_tools {ms : List Message} (h : ∀ m ∈ ms, m.role ≠ "tool")
    (prev : Option Message) : dropOrphansAfter prev ms = ms := by
  induction ms generalizing prev with
  | nil => rfl
  | cons m ms ih =>
    rw [dropOrphansAfter_of_not_tool (h m mem_cons_self),
      ih fun x hx => h x (mem_cons_of_mem _ hx)]

/-- Rows without tool results stay behind whatever is kept. -/
theorem dropOrphansAfter_append {ms₂ : List Message} (h : ∀ m ∈ ms₂, m.role ≠ "tool")
    (ms₁ : List Message) (prev : Option Message) :
    dropOrphansAfter prev (ms₁ ++ ms₂) = dropOrphansAfter prev ms₁ ++ ms₂ := by
  cases ms₂ with
  | nil => simp
  | cons m ms₂ =>
    rw [dropOrphansAfter_split (h m mem_cons_self),
      dropOrphansAfter_no_tools fun x hx => h x (mem_cons_of_mem _ hx)]

theorem dropOrphansAfter_results {prev : Message} (hprev : answersCall prev = true)
    {results : List Message} (h : ∀ r ∈ results, r.role = "tool") :
    dropOrphansAfter (some prev) results = results := by
  induction results generalizing prev with
  | nil => rfl
  | cons r results ih =>
    have hr : r.role = "tool" := h r mem_cons_self
    have ha : answersCall r = true := by simp [answersCall, hr]
    simp [dropOrphansAfter, hprev, ih ha fun x hx => h x (mem_cons_of_mem _ hx)]

theorem dropOrphansAfter_filter {p : Message → Bool} (hp : ∀ m, p m = false → m.role = "system")
    {ms : List Message} {prev prev' : Option Message} (h : dropOrphansAfter prev ms = ms)
    (hprev : prev.any answersCall = true → prev'.any answersCall = true) :
    dropOrphansAfter prev' (ms.filter p) = ms.filter p := by
  induction ms generalizing prev prev' with
  | nil => rfl
  | cons m ms ih =>
    by_cases horphan : m.role = "tool" ∧ prev.any answersCall = false
    · -- an orphan would have been dropped
      have hlen := (dropOrphansAfter_sublist prev ms).length_le
      rw [dropOrphansAfter, if_pos horphan] at h
      rw [h, length_cons] at hlen
      omega
    · rw [dropOrphansAfter, if_neg horphan, List.cons.injEq] at h
      cases hm : p m with
      | false =>
        have hsys : m.role = "system" := hp m hm
        rw [filter_cons_of_neg (by simp [hm])]
        refine ih h.2 fun hbad => ?_
        simp [answersCall, hsys] at hbad
      | true =>
        rw [filter_cons_of_pos hm, dropOrphansAfter, if_neg]
        · rw [ih h.2 fun hx => hx]
        · rintro ⟨htool, hno⟩
          apply horphan
          refine ⟨htool, ?_⟩
          cases hx : prev.any answersCall with
          | false => rfl
          | true => rw [hprev hx] at hno; cases hno

end Orphans

section Turn

/-- The view of a turn in progress: behind its real user `u` stand the rows appended so far,
together with side rows, and every tool result there answers a call. -/
structure TurnView (u : Message) (appended messages : List Message) : Prop where
  split : ∃ before after, messages = before ++ u :: after ∧
    (∀ m ∈ after, realUser m = false) ∧ dropOrphansAfter (some u) after = after ∧
    after.filter conversationRow = appended.filter conversationRow

variable {u : Message} {appended messages : List Message}

theorem role_ne_tool_of_realUser (hu : realUser u = true) : u.role ≠ "tool" := by
  rw [Message.role_of_realUser hu]
  decide

theorem indices_split {before after : List Message} (hu : realUser u = true)
    (hafter : ∀ m ∈ after, realUser m = false) :
    indices realUser (before ++ u :: after) = indices realUser before ++ [before.length] :=
  indices_append_cons hu hafter

theorem starts_le {before after : List Message} (hu : realUser u = true)
    (hafter : ∀ m ∈ after, realUser m = false) {i : ℕ}
    (hi : i ∈ indices realUser (before ++ u :: after)) : i ≤ before.length := by
  rw [indices_split hu hafter, mem_append, mem_singleton] at hi
  rcases hi with hi | rfl
  · exact (lt_of_mem_indices hi).le
  · exact le_refl _

/-- Removing the oldest group shortens only what stands before the current user, as long as
one group is kept. -/
theorem removeOldestTurnGroup_split (hu : realUser u = true) {after : List Message}
    (hafter : ∀ m ∈ after, realUser m = false) {minGroupsToKeep : ℕ} (hkeep : 0 < minGroupsToKeep)
    (before : List Message) : ∃ before', (removeOldestTurnGroup (before ++ u :: after) minGroupsToKeep).1 =
      before' ++ u :: after := by
  have hgroups : conversationTurnGroups (before ++ u :: after) =
      (indices realUser (before ++ u :: after)).zipIdx.map fun e =>
        ⟨e.1, ((indices realUser (before ++ u :: after))[e.2 + 1]?).getD
          (before ++ u :: after).length⟩ := rfl
  by_cases hlen : (conversationTurnGroups (before ++ u :: after)).length ≤ minGroupsToKeep
  · exact ⟨before, by simp [removeOldestTurnGroup, hlen]⟩
  · have hmany : minGroupsToKeep < (indices realUser (before ++ u :: after)).length := by
      rw [hgroups, List.length_map, length_zipIdx] at hlen
      omega
    match hidx : indices realUser (before ++ u :: after), hmany with
    | [i], hmany => exact absurd hmany (by simp; omega)
    | i :: j :: rest, _ =>
      have hi : i ≤ before.length := starts_le hu hafter (by simp [hidx])
      have hj : j ≤ before.length := starts_le hu hafter (by simp [hidx])
      refine ⟨before.take i ++ before.drop j, ?_⟩
      simp only [removeOldestTurnGroup, if_neg hlen]
      rw [hgroups, hidx]
      simp [take_append_of_le_length hi, drop_append_of_le_length hj]

theorem trimGroups_split (hu : realUser u = true) {after : List Message}
    (hafter : ∀ m ∈ after, realUser m = false) (n : ℕ) (before : List Message) :
    ∃ before', trimGroups (before ++ u :: after) n = before' ++ u :: after := by
  induction n generalizing before with
  | zero => exact ⟨before, rfl⟩
  | succ n ih =>
    obtain ⟨before', h⟩ := removeOldestTurnGroup_split hu hafter Nat.one_pos before
    rw [trimGroups, h]
    exact ih before'

theorem completeTurnGroupTailLen_split (hu : realUser u = true) {before after : List Message}
    (hafter : ∀ m ∈ after, realUser m = false) {requestedTail tail : ℕ}
    (h : completeTurnGroupTailLen (before ++ u :: after) requestedTail = some tail) :
    ∃ before', (before ++ u :: after).drop ((before ++ u :: after).length - tail) =
      before' ++ u :: after := by
  simp only [completeTurnGroupTailLen] at h
  split at h
  · cases h
  · rw [Option.map_eq_some_iff] at h
    obtain ⟨g, hg, rfl⟩ := h
    have hmem := mem_of_getElem? hg
    simp only [conversationTurnGroups, mem_map] at hmem
    obtain ⟨⟨start, idx⟩, hz, rfl⟩ := hmem
    have hstart : start ≤ before.length := by
      have hm := mem_zipIdx_iff_getElem?.mp hz
      exact starts_le hu hafter (mem_of_getElem? hm)
    refine ⟨before.drop start, ?_⟩
    have hlen : (before ++ u :: after).length - ((before ++ u :: after).length - start) = start := by
      simp only [length_append, length_cons]
      omega
    rw [hlen, drop_append_of_le_length hstart]

theorem TurnView.removeOldest (h : TurnView u appended messages) (hu : realUser u = true)
    {minGroupsToKeep : ℕ} (hkeep : 0 < minGroupsToKeep) :
    TurnView u appended (removeOldestTurnGroup messages minGroupsToKeep).1 := by
  obtain ⟨before, after, rfl, hafter, horphan, hrows⟩ := h.split
  obtain ⟨before', hsplit⟩ := removeOldestTurnGroup_split hu hafter hkeep before
  exact ⟨before', after, hsplit, hafter, horphan, hrows⟩

theorem TurnView.summarize (h : TurnView u appended messages) (hu : realUser u = true)
    (requestedTail : ℕ) (summaryText : String) :
    TurnView u appended (summarizeWith messages requestedTail summaryText) := by
  unfold summarizeWith
  split
  · exact h
  · split
    · exact h
    · next tail htail =>
      split
      · exact h
      · obtain ⟨before, after, rfl, hafter, horphan, hrows⟩ := h.split
        obtain ⟨before', hdrop⟩ := completeTurnGroupTailLen_split hu hafter htail
        simp only [applyLlmSummaryToMessages, dropOrphanToolMessages]
        rw [hdrop, ← append_assoc, dropOrphansAfter_split (role_ne_tool_of_realUser hu),
          horphan]
        exact ⟨_, after, rfl, hafter, horphan, hrows⟩

theorem TurnView.sync (h : TurnView u appended messages) (hu : realUser u = true) (removals : ℕ) :
    TurnView u appended (applySessionSyncPipeline messages removals) := by
  obtain ⟨before, after, rfl, hafter, horphan, hrows⟩ := h.split
  set side : Message → Bool := fun m => m.isChatTimelineMarker || m.isModelContextArtifactMarker
    with hside
  have hsys : ∀ m, side m = true → m.role = "system" := by
    intro m hm
    rcases Bool.or_eq_true_iff.mp hm with hm | hm
    · exact Message.role_of_timeline hm
    · exact Message.role_of_artifact hm
  have huside : side u = false := by
    cases hx : side u with
    | false => rfl
    | true =>
      have hrole := Message.role_of_realUser hu
      rw [hsys u hx] at hrole
      exact absurd hrole (by decide)
  have hpark : (before ++ u :: after).filter (fun m => !side m) =
      before.filter (fun m => !side m) ++ u :: after.filter (fun m => !side m) := by
    simp [huside]
  have hafter' : ∀ m ∈ after.filter (fun m => !side m), realUser m = false :=
    fun m hm => hafter m (mem_of_mem_filter hm)
  have horphan' : dropOrphansAfter (some u) (after.filter fun m => !side m) =
      after.filter fun m => !side m :=
    dropOrphansAfter_filter (fun m hm => hsys m (by simpa using hm)) horphan fun hx => hx
  obtain ⟨before', htrim⟩ := trimGroups_split hu hafter' removals (before.filter fun m => !side m)
  have hparked : ∀ m ∈ (before ++ u :: after).filter side, m.role = "system" :=
    fun m hm => hsys m (mem_filter.mp hm).2
  have hresult : applySessionSyncPipeline (before ++ u :: after) removals =
      dropOrphansAfter none before' ++ u :: (after.filter (fun m => !side m) ++
        (before ++ u :: after).filter side) := by
    simp only [applySessionSyncPipeline, takeChatTimelineMarkers, dropOrphanToolMessages]
    rw [hpark, htrim, dropOrphansAfter_split (role_ne_tool_of_realUser hu), horphan',
      append_assoc, cons_append]
  refine ⟨_, _, hresult, fun m hm => ?_, ?_, ?_⟩
  · rcases mem_append.mp hm with hm | hm
    · exact hafter' m hm
    · exact Message.not_realUser_of_system (hparked m hm)
  · rw [dropOrphansAfter_append (fun m hm => by simp [hparked m hm]), horphan']
  · have hnone : ((before ++ u :: after).filter side).filter conversationRow = [] :=
      filter_eq_nil_iff.mpr fun m hm => by
        simp [conversationRow, Message.not_realUser_of_system (hparked m hm), hparked m hm]
    have hkept : (after.filter fun m => !side m).filter conversationRow =
        after.filter conversationRow := by
      rw [filter_filter]
      apply filter_congr
      intro m _
      cases hm : side m with
      | false => simp
      | true => simp [conversationRow, realUser, Message.not_realUser_of_system (hsys m hm), hsys m hm]
    rw [filter_append, hnone, hkept, append_nil, hrows]

theorem TurnView.say (h : TurnView u appended messages) {m : Message} (hrole : m.role ≠ "tool")
    (hreal : realUser m = false) : TurnView u (appended ++ [m]) (messages ++ [m]) := by
  obtain ⟨before, after, rfl, hafter, horphan, hrows⟩ := h.split
  refine ⟨before, after ++ [m], by simp, fun x hx => ?_, ?_, ?_⟩
  · rcases mem_append.mp hx with hx | hx
    · exact hafter x hx
    · rwa [mem_singleton.mp hx]
  · rw [dropOrphansAfter_append (by simpa using hrole), horphan]
  · rw [filter_append, filter_append, hrows]

theorem TurnView.toolRound (h : TurnView u appended messages) {call : Message}
    {results : List Message} (hcall : call.role = "assistant")
    (hcalls : (call.toolCalls.any fun c => !c.isEmpty) = true)
    (hresults : ∀ r ∈ results, r.role = "tool") :
    TurnView u (appended ++ call :: results) (messages ++ call :: results) := by
  obtain ⟨before, after, rfl, hafter, horphan, hrows⟩ := h.split
  have hanswers : answersCall call = true := by simp [answersCall, hcall, hcalls]
  refine ⟨before, after ++ call :: results, by simp, fun x hx => ?_, ?_, ?_⟩
  · rcases mem_append.mp hx with hx | hx
    · exact hafter x hx
    · rcases mem_cons.mp hx with rfl | hx
      · simp [realUser, Message.userMessageCountsForBranchTruncation, hcall]
      · simp [realUser, Message.userMessageCountsForBranchTruncation, hresults x hx]
  · rw [dropOrphansAfter_split (by simp [hcall]), horphan,
      dropOrphansAfter_results hanswers hresults]
  · rw [filter_append, filter_append, hrows]

theorem TurnView.apply (hu : realUser u = true) (h : TurnView u appended messages) (op : TurnOp) :
    TurnView u (appended ++ op.appended) (op.apply messages) := by
  cases op with
  | say m hrole hreal => exact h.say hrole hreal
  | toolRound call results hcall hcalls hresults => exact h.toolRound hcall hcalls hresults
  | removeOldest minGroupsToKeep hkeep =>
    simpa only [TurnOp.appended, TurnOp.apply, append_nil] using h.removeOldest hu hkeep
  | summarize requestedTail summaryText =>
    simpa only [TurnOp.appended, TurnOp.apply, append_nil] using
      h.summarize hu requestedTail summaryText
  | sync removals =>
    simpa only [TurnOp.appended, TurnOp.apply, append_nil] using h.sync hu removals

/-- Whatever a turn does to its view, the rows behind the current user are those it appended. -/
theorem turnView_run (hu : realUser u = true) (ops : List TurnOp)
    (h : TurnView u appended messages) :
    TurnView u (appended ++ ops.flatMap TurnOp.appended) (ops.foldl TurnOp.apply messages) := by
  induction ops generalizing appended messages with
  | nil => simpa using h
  | cons op ops ih =>
    rw [flatMap_cons, ← append_assoc]
    exact ih (h.apply hu op)

end Turn
end CrabMate
