import CrabMate.Context.Trim

/-! Tool calls and their results. The upstream wants every call of an assistant row answered in the
run of tool rows right behind it; where an answer is missing a placeholder is put in, before a
request is sent and when an interrupted turn is stored. -/
namespace CrabMate
open RustStr List

section Completion

def Message.hasNonEmptyToolCalls (m : Message) : Bool := m.toolCalls.any fun c => !c.isEmpty

def Message.calls (m : Message) : List ToolCall := m.toolCalls.getD []

/-- An assistant row whose calls want answers. -/
def Message.callsTools (m : Message) : Bool := roleIs "assistant" m && m.hasNonEmptyToolCalls

/-- The run of tool rows at the start of the list. -/
def toolRun (behind : List Message) : List Message := behind.takeWhile (roleIs "tool")

def contiguousToolResponseIds (behind : List Message) : List String :=
  (toolRun behind).filterMap Message.toolCallId

def Message.toolResult (toolCallId content : String) : Message :=
  ⟨"tool", some (.text content), none, none, none, none, some toolCallId⟩

def toolPlaceholderMessage (toolCallId toolName notice : String) : Message :=
  .toolResult toolCallId s!"{notice}（工具：{toolName}）"

/-- The placeholders for the calls of a row without an answer in the run behind it. -/
def missingToolResponses (notice : String) (m : Message) (behind : List Message) : List Message :=
  (m.calls.filter fun call => !(contiguousToolResponseIds behind).contains call.id).map fun call =>
    toolPlaceholderMessage call.id call.function.name notice

/-- The scan of `complete_missing_tool_responses`; `pending` are the placeholders that go behind
the run of tool rows the scan is in. -/
def completeBehind (notice : String) (pending : List Message) : List Message → List Message
  | [] => pending
  | m :: ms =>
    if roleIs "tool" m then m :: completeBehind notice pending ms
    else if m.callsTools then
      pending ++ m :: completeBehind notice (missingToolResponses notice m ms) ms
    else pending ++ m :: completeBehind notice [] ms

def completeMissingToolResponses (notice : String) (messages : List Message) : List Message :=
  completeBehind notice [] messages

/-- Every call of every assistant row has its answer in the run right behind the row. -/
def Answered (messages : List Message) : Prop :=
  ∀ pre m post, messages = pre ++ m :: post → roleIs "assistant" m = true →
    ∀ call ∈ m.calls, call.id ∈ contiguousToolResponseIds post

end Completion

section Roles

variable {m : Message}

theorem callsTools_of_mem_calls {call : ToolCall} (hrole : roleIs "assistant" m = true)
    (hcall : call ∈ m.calls) : m.callsTools = true := by
  rw [Message.callsTools, hrole, Bool.true_and]
  unfold Message.calls at hcall
  unfold Message.hasNonEmptyToolCalls
  cases hcalls : m.toolCalls with
  | none => simp [hcalls] at hcall
  | some calls =>
    cases calls with
    | nil => simp [hcalls] at hcall
    | cons c cs => rfl

theorem roleIs_assistant_of_callsTools (h : m.callsTools = true) : roleIs "assistant" m = true :=
  (Bool.and_eq_true_iff.mp h).1

theorem roleIs_tool_of_assistant (h : roleIs "assistant" m = true) : roleIs "tool" m = false := by
  simp only [roleIs, eqIgnoreAsciiCase, decide_eq_true_eq] at h
  simp only [roleIs, eqIgnoreAsciiCase, h]
  decide

theorem roleIs_tool_toolResult (toolCallId content : String) :
    roleIs "tool" (.toolResult toolCallId content) = true := by
  simp only [roleIs, Message.toolResult]
  decide

theorem callsTools_of_tool (h : roleIs "tool" m = true) : m.callsTools = false := by
  cases hassistant : roleIs "assistant" m with
  | true =>
    rw [roleIs_tool_of_assistant hassistant] at h
    cases h
  | false => rw [Message.callsTools, hassistant, Bool.false_and]

end Roles

section Scan

variable {notice : String} {m : Message} {ms pending : List Message}

theorem answered_nil : Answered [] := by
  intro pre m post h
  simp at h

theorem answered_cons :
    Answered (m :: ms) ↔
      (m.callsTools = true → ∀ call ∈ m.calls, call.id ∈ contiguousToolResponseIds ms) ∧
        Answered ms := by
  constructor
  · intro h
    refine ⟨fun hm => h [] m ms rfl (roleIs_assistant_of_callsTools hm), fun pre x post heq => ?_⟩
    exact h (m :: pre) x post (by rw [heq, cons_append])
  · rintro ⟨hm, hms⟩ pre x post heq hrole call hcall
    cases pre with
    | nil =>
      rw [nil_append, List.cons.injEq] at heq
      obtain ⟨rfl, rfl⟩ := heq
      exact hm (callsTools_of_mem_calls hrole hcall) call hcall
    | cons y pre =>
      rw [cons_append, List.cons.injEq] at heq
      exact hms pre x post heq.2 hrole call hcall

theorem answered_append_tools {tools : List Message}
    (htools : ∀ t ∈ tools, roleIs "tool" t = true) :
    Answered (tools ++ ms) ↔ Answered ms := by
  induction tools with
  | nil => rfl
  | cons t tools ih =>
    have ht := htools t mem_cons_self
    rw [cons_append, answered_cons, ih fun x hx => htools x (mem_cons_of_mem _ hx),
      callsTools_of_tool ht]
    simp

theorem roleIs_tool_missingToolResponses {behind : List Message} :
    ∀ t ∈ missingToolResponses notice m behind, roleIs "tool" t = true := by
  intro t ht
  obtain ⟨call, -, rfl⟩ := mem_map.mp ht
  exact roleIs_tool_toolResult _ _

theorem toolRun_append_tools {tools : List Message}
    (htools : ∀ t ∈ tools, roleIs "tool" t = true) (ms : List Message) :
    toolRun (tools ++ ms) = tools ++ toolRun ms :=
  takeWhile_append_of_pos htools

/-- Behind the scan the run holds what it held and the pending placeholders. -/
theorem toolRun_completeBehind (hpending : ∀ t ∈ pending, roleIs "tool" t = true) :
    toolRun (completeBehind notice pending ms) = toolRun ms ++ pending := by
  induction ms with
  | nil => simpa [completeBehind, toolRun] using hpending
  | cons x ms ih =>
    rw [completeBehind]
    cases hx : roleIs "tool" x with
    | true =>
      rw [if_pos rfl]
      simp only [toolRun, takeWhile_cons, hx, ↓reduceIte, cons_append] at ih ⊢
      rw [ih]
    | false =>
      have hstop : ∀ rest, toolRun (x :: rest) = [] := fun rest => by
        simp [toolRun, hx]
      rw [hstop, nil_append, if_neg (by simp)]
      split
      · rw [toolRun_append_tools hpending, hstop, append_nil]
      · rw [toolRun_append_tools hpending, hstop, append_nil]

theorem mem_contiguousToolResponseIds_completeBehind {call : ToolCall} (hcall : call ∈ m.calls) :
    call.id ∈ contiguousToolResponseIds
      (completeBehind notice (missingToolResponses notice m ms) ms) := by
  rw [contiguousToolResponseIds, toolRun_completeBehind roleIs_tool_missingToolResponses,
    filterMap_append, mem_append]
  by_cases hanswered : call.id ∈ contiguousToolResponseIds ms
  · exact Or.inl hanswered
  · refine Or.inr (mem_filterMap.mpr
      ⟨toolPlaceholderMessage call.id call.function.name notice, mem_map.mpr ⟨call, ?_, rfl⟩,
        rfl⟩)
    rw [mem_filter]
    exact ⟨hcall, by simpa using hanswered⟩

theorem answered_completeBehind (hpending : ∀ t ∈ pending, roleIs "tool" t = true) :
    Answered (completeBehind notice pending ms) := by
  induction ms generalizing pending with
  | nil =>
    have h : Answered (pending ++ []) := (answered_append_tools hpending).mpr answered_nil
    rwa [append_nil] at h
  | cons x ms ih =>
    rw [completeBehind]
    split
    · next hx => exact answered_cons.mpr ⟨by simp [callsTools_of_tool hx], ih hpending⟩
    · split
      · rw [answered_append_tools hpending, answered_cons]
        exact ⟨fun _ call hcall => mem_contiguousToolResponseIds_completeBehind hcall,
          ih roleIs_tool_missingToolResponses⟩
      · next hcalls =>
        rw [answered_append_tools hpending, answered_cons]
        exact ⟨fun h => absurd h hcalls, ih (by simp)⟩

theorem answered_completeMissingToolResponses (notice : String) (messages : List Message) :
    Answered (completeMissingToolResponses notice messages) :=
  answered_completeBehind (by simp)

/-- Where every call has its answer, nothing is put in. -/
theorem completeMissingToolResponses_eq_self (h : Answered ms) :
    completeMissingToolResponses notice ms = ms := by
  unfold completeMissingToolResponses
  induction ms with
  | nil => rfl
  | cons x ms ih =>
    obtain ⟨hx, hms⟩ := answered_cons.mp h
    rw [completeBehind, ih hms]
    cases hcalls : x.callsTools with
    | true =>
      have hnone : missingToolResponses notice x ms = [] := by
        simpa [missingToolResponses] using hx hcalls
      rw [hnone, ih hms]
      simp
    | false => simp

end Scan

section Persistence

variable (parses : String → Bool)

def interruptedToolResultPlaceholder : String := "本轮已被用户中断，该工具调用未执行完成，无结果。"

/-- A call is kept when it has an answer or its arguments parse. -/
def keepsCall (behind : List Message) (call : ToolCall) : Bool :=
  (contiguousToolResponseIds behind).contains call.id || parses (trimString call.function.arguments)

/-- The row with the calls that were cut off while they streamed in taken out. -/
def keptCallsRow (m : Message) (behind : List Message) : Message :=
  if m.callsTools then
    let kept := m.calls.filter (keepsCall parses behind)
    { m with toolCalls := if kept.isEmpty then none else some kept }
  else m

def dropUnrespondedIncompleteToolCalls : List Message → List Message
  | [] => []
  | m :: ms => keptCallsRow parses m ms :: dropUnrespondedIncompleteToolCalls ms

def completePendingToolResponsesForPersistence (messages : List Message) : List Message :=
  completeMissingToolResponses interruptedToolResultPlaceholder
    (dropUnrespondedIncompleteToolCalls parses messages)

/-- What the repair may do to one row: take calls out of an assistant row, those without an answer
behind it whose arguments do not parse. -/
structure EditsCalls (m : Message) (behind : List Message) (edited : Message) : Prop where
  same : edited = { m with toolCalls := edited.toolCalls }
  others : m.callsTools = false → edited = m
  kept : edited.calls.Sublist m.calls
  parsable : m.callsTools = true → ∀ call ∈ edited.calls,
    call.id ∉ contiguousToolResponseIds behind → parses (trimString call.function.arguments) = true
  answered : ∀ call ∈ m.calls, call.id ∈ contiguousToolResponseIds behind → call ∈ edited.calls

/-- Row by row, each with the rows that stood behind it. -/
inductive EditsAll : List Message → List Message → Prop where
  | nil : EditsAll [] []
  | cons {m edited : Message} {ms es : List Message} (row : EditsCalls parses m ms edited)
      (rest : EditsAll ms es) : EditsAll (m :: ms) (edited :: es)

/-- The same rows in the same order, with rows that satisfy `p` put in between. -/
inductive Inserts (p : Message → Prop) : List Message → List Message → Prop where
  | nil : Inserts p [] []
  | keep {m : Message} {ms out : List Message} (rest : Inserts p ms out) :
      Inserts p (m :: ms) (m :: out)
  | add {m : Message} {ms out : List Message} (h : p m) (rest : Inserts p ms out) :
      Inserts p ms (m :: out)

variable {parses} {p : Message → Prop}

theorem calls_keptCallsRow (parses : String → Bool) {m : Message} (behind : List Message) (h : m.callsTools = true) :
    (keptCallsRow parses m behind).calls = m.calls.filter (keepsCall parses behind) := by
  rw [keptCallsRow, if_pos h, Message.calls]
  simp only
  split
  · next hempty => simpa using hempty
  · rfl

theorem editsCalls_keptCallsRow (m : Message) (behind : List Message) :
    EditsCalls parses m behind (keptCallsRow parses m behind) := by
  cases hm : m.callsTools with
  | false =>
    have hsame : keptCallsRow parses m behind = m := by
      rw [keptCallsRow, hm, if_neg Bool.false_ne_true]
    rw [hsame]
    exact ⟨rfl, fun _ => rfl, List.Sublist.refl _, fun h => by simp [hm] at h, fun _ h _ => h⟩
  | true =>
    have hcalls := calls_keptCallsRow parses behind hm
    refine ⟨?_, fun h => by simp [hm] at h, ?_, fun _ call hcall hnot => ?_,
      fun call hcall hid => ?_⟩
    · rw [keptCallsRow, if_pos hm]
    · rw [hcalls]
      exact filter_sublist
    · rw [hcalls, mem_filter] at hcall
      simpa [keepsCall, hnot] using hcall.2
    · rw [hcalls, mem_filter]
      exact ⟨hcall, by simp [keepsCall, hid]⟩

theorem editsAll_drop (messages : List Message) :
    EditsAll parses messages (dropUnrespondedIncompleteToolCalls parses messages) := by
  induction messages with
  | nil => exact .nil
  | cons m ms ih => exact .cons (editsCalls_keptCallsRow m ms) ih

theorem Inserts.add_all {added ms out : List Message} (hadded : ∀ m ∈ added, p m)
    (h : Inserts p ms out) : Inserts p ms (added ++ out) := by
  induction added with
  | nil => exact h
  | cons m added ih =>
    exact .add (hadded m mem_cons_self) (ih fun x hx => hadded x (mem_cons_of_mem _ hx))

theorem inserts_completeBehind {notice : String} {pending : List Message}
    (hp : ∀ toolCallId toolName, p (toolPlaceholderMessage toolCallId toolName notice))
    (hpending : ∀ m ∈ pending, p m) (ms : List Message) :
    Inserts p ms (completeBehind notice pending ms) := by
  induction ms generalizing pending with
  | nil =>
    have h : Inserts p [] (pending ++ []) := Inserts.add_all hpending .nil
    rwa [append_nil] at h
  | cons m ms ih =>
    rw [completeBehind]
    split
    · exact .keep (ih hpending)
    · split
      · refine Inserts.add_all hpending (.keep (ih fun x hx => ?_))
        obtain ⟨call, -, rfl⟩ := mem_map.mp hx
        exact hp _ _
      · exact Inserts.add_all hpending (.keep (ih (by simp)))

theorem keptCallsRow_eq_self {m : Message} {behind : List Message}
    (h : m.callsTools = true → ∀ call ∈ m.calls, call.id ∈ contiguousToolResponseIds behind) :
    keptCallsRow parses m behind = m := by
  cases hm : m.callsTools with
  | false => rw [keptCallsRow, hm, if_neg Bool.false_ne_true]
  | true =>
    have hall : m.calls.filter (keepsCall parses behind) = m.calls :=
      filter_eq_self.mpr fun call hcall => by simp [keepsCall, h hm call hcall]
    obtain ⟨calls, hcalls, hne⟩ : ∃ calls, m.toolCalls = some calls ∧ calls ≠ [] := by
      have hsome := (Bool.and_eq_true_iff.mp hm).2
      unfold Message.hasNonEmptyToolCalls at hsome
      cases hc : m.toolCalls with
      | none => simp [hc] at hsome
      | some calls => exact ⟨calls, rfl, by simpa [hc] using hsome⟩
    have hlist : m.calls = calls := by rw [Message.calls, hcalls, Option.getD_some]
    rw [keptCallsRow, if_pos hm, hall, hlist]
    simp only [List.isEmpty_iff, if_neg hne, ← hcalls]

theorem drop_eq_self {messages : List Message} (h : Answered messages) :
    dropUnrespondedIncompleteToolCalls parses messages = messages := by
  induction messages with
  | nil => rfl
  | cons m ms ih =>
    obtain ⟨hm, hms⟩ := answered_cons.mp h
    rw [dropUnrespondedIncompleteToolCalls, keptCallsRow_eq_self hm, ih hms]

/-- The repair of an interrupted turn: every call is answered right behind its row, only calls
that were cut off went, only placeholders came, and a second repair finds nothing to do. -/
theorem interrupted_turn_repaired (parses : String → Bool) (messages : List Message) :
    let repaired := completePendingToolResponsesForPersistence parses messages
    Answered repaired ∧
    (∃ edited, EditsAll parses messages edited ∧
      Inserts (fun m => ∃ toolCallId toolName,
        m = toolPlaceholderMessage toolCallId toolName interruptedToolResultPlaceholder)
        edited repaired) ∧
    completePendingToolResponsesForPersistence parses repaired = repaired := by
  have hanswered : Answered (completePendingToolResponsesForPersistence parses messages) :=
    answered_completeMissingToolResponses _ _
  refine ⟨hanswered, ⟨_, editsAll_drop messages, ?_⟩, ?_⟩
  · exact inserts_completeBehind (fun toolCallId toolName => ⟨toolCallId, toolName, rfl⟩)
      (by simp) _
  · conv_lhs => rw [completePendingToolResponsesForPersistence]
    rw [drop_eq_self hanswered, completeMissingToolResponses_eq_self hanswered]

end Persistence
end CrabMate
