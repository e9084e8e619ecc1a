import Mathlib
import CrabMate.Layout.Splitting
import CrabMate.Types.Message

/-! The layout that is stored with a conversation: the rows of each turn are replayed as events
through the reducer, projected, and numbered. Row by row this is what the messages say. -/
namespace CrabMate.Layout
open RustStr List Option

section Model

structure ProjectedRow where
  kind : String
  text : String
  toolName : Option String
  toolCallId : Option String
  deriving DecidableEq

def toolKind : String := "tool"
def leadTurnId : String := "lead"
def assistantTimeline : String := "assistant_timeline"
def assistantCommentary : String := "assistant_commentary"
def assistantAnswer : String := "assistant_answer"

def toolRow (step : ToolStep) : ProjectedRow :=
  ⟨toolKind, step.summary, some step.name, some step.toolCallId⟩

def commentaryRow (toolCallId text : String) : ProjectedRow :=
  ⟨assistantCommentary, text, none, some toolCallId⟩

def timelineRow (text : String) : ProjectedRow := ⟨assistantTimeline, text, none, none⟩

def answerRow (text : String) : ProjectedRow := ⟨assistantAnswer, text, none, none⟩

/-- The step with the commentary in front of it. -/
def stepRows (step : ToolStep) : List ProjectedRow :=
  ((step.beforeCommentary.filter fun text => !isBlank text).map
    (commentaryRow step.toolCallId)).toList ++ [toolRow step]

def projectTurnWebV2 (turn : Turn) : List ProjectedRow :=
  turn.preToolTimeline.map timelineRow ++ turn.steps.flatMap stepRows

def messageContentPlainForChatDisplay : Option MessageContent → String
  | none => ""
  | some (.text s) => s
  | some (.parts parts) =>
    String.intercalate "\n" (((parts.filterMap fun p => (p.get? "text").bind (·.asStr?)).map
      trimString).filter fun s => !s.isEmpty)

def plainText (m : Message) : String := messageContentPlainForChatDisplay m.content

/-- The scan of a turn: the turn so far, the answers with the number of steps in front of each,
and whether tools were called since the last answer. -/
structure SliceScan where
  turn : Turn
  answers : List (ℕ × String)
  sawTools : Bool

def applyTimeline (turn : Turn) (m : Message) : Turn :=
  if isBlank (plainText m) then turn else reduceEvent turn (.timelineAssistant (plainText m))

/-- The segment with the text of the batch, in front of its first tool. -/
def commentaryEvents (text : String) (first : ToolCall) : List TurnEvent :=
  let segId := segBefore first.id
  [.segmentStart segId .commentary (some first.id), .segmentDelta segId text, .segmentEnd segId]

def applyToolBatch (turn : Turn) (m : Message) (tools : List ToolCall) : Turn :=
  let turn := if isBlank (plainText m) then turn
    else tools.head?.elim turn fun first =>
      Run.run reduceEvent turn (commentaryEvents (plainText m) first)
  Run.run reduceEvent turn (tools.map fun tc => .toolCall tc.id tc.function.name tc.function.name)

def pushAnswerCheckpoint (answers : List (ℕ × String)) (turn : Turn) (m : Message) :
    List (ℕ × String) :=
  if isBlank (plainText m) then answers else answers ++ [(turn.steps.length, plainText m)]

def scanMessage (scan : SliceScan) (m : Message) : SliceScan :=
  if m.isChatTimelineMarker then { scan with turn := applyTimeline scan.turn m }
  else if m.role ≠ "assistant" then scan
  else
    let tools := m.toolCalls.getD []
    if tools.isEmpty then
      let turn := if scan.sawTools then reduceEvent scan.turn .toolPhaseEnd else scan.turn
      ⟨turn, pushAnswerCheckpoint scan.answers turn m, false⟩
    else ⟨applyToolBatch scan.turn m tools, scan.answers, true⟩

def closeOpenCommentarySegments (turn : Turn) : Turn :=
  flushSegmentsOntoSteps (closeOpenCommentaryExcept turn none)

/-- The rows of the answers behind that many tools, and the answers further on. -/
def drainAnswersAt (answers : List (ℕ × String)) (afterTools : ℕ) :
    List ProjectedRow × List (ℕ × String) :=
  ((answers.takeWhile fun a => a.1 == afterTools).map fun a => answerRow a.2,
    answers.dropWhile fun a => a.1 == afterTools)

/-- The rows with the answers put in behind their tools. -/
def mergeRows (answers : List (ℕ × String)) (toolsEmitted : ℕ) :
    List ProjectedRow → List ProjectedRow
  | [] => answers.map fun a => answerRow a.2
  | row :: rows =>
    if row.kind = toolKind then
      let (now, later) := drainAnswersAt answers (toolsEmitted + 1)
      row :: (now ++ mergeRows later (toolsEmitted + 1) rows)
    else row :: mergeRows answers toolsEmitted rows

def mergeV2WithAnswers (v2 : List ProjectedRow) (answers : List (ℕ × String)) :
    List ProjectedRow :=
  let (now, later) := drainAnswersAt answers 0
  (v2.takeWhile fun row => row.kind == assistantTimeline) ++ now ++
    mergeRows later 0 (v2.dropWhile fun row => row.kind == assistantTimeline)

def rowsForTurnSlice (slice : List Message) : List ProjectedRow :=
  let scan := slice.foldl scanMessage ⟨.empty, [], false⟩
  let turn := if scan.sawTools then reduceEvent scan.turn .toolPhaseEnd else scan.turn
  mergeV2WithAnswers (projectTurnWebV2 (closeOpenCommentarySegments turn)) scan.answers

/-- The messages in front of the first counted user, and behind each counted user. -/
def splitTurns : List Message → List Message × List (List Message)
  | [] => ([], [])
  | m :: ms =>
    let (lead, slices) := splitTurns ms
    if m.userMessageCountsForBranchTruncation then ([], lead :: slices) else (m :: lead, slices)

def userTurnId (ordinal : ℕ) : String := "u" ++ ordinal.repr

def iterTurnSlices (messages : List Message) : List (String × List Message) :=
  let (lead, slices) := splitTurns messages
  (if lead.isEmpty then [] else [(leadTurnId, lead)]) ++
    slices.zipIdx.map fun slice => (userTurnId slice.2, slice.1)

structure ConversationLayoutSegment where
  turnId : Option String
  segmentId : String
  segmentKind : String
  beforeToolCallId : Option String
  sequence : ℕ
  deriving DecidableEq

def segmentKeys (row : ProjectedRow) (sequence : ℕ) : String × Option String :=
  let numbered := row.kind ++ "-" ++ sequence.repr
  if row.kind = toolKind then (row.toolCallId.getD numbered, none)
  else if row.kind = assistantCommentary then
    (row.toolCallId.elim numbered segBefore, row.toolCallId)
  else (numbered, none)

def segment (turnId : String) (row : ProjectedRow) (sequence : ℕ) : ConversationLayoutSegment :=
  ⟨some turnId, (segmentKeys row sequence).1, row.kind, (segmentKeys row sequence).2, sequence⟩

/-- The rows of all turns, each with the turn it is in. The counters of the source are `u32` and
stop at the largest value: what follows is for layouts of at most `2 ^ 32` rows. -/
def turnRows (rowsOf : List Message → List ProjectedRow) (messages : List Message) :
    List (String × ProjectedRow) :=
  (iterTurnSlices messages).flatMap fun slice => (rowsOf slice.2).map fun row => (slice.1, row)

def numberRows (rows : List (String × ProjectedRow)) : List ConversationLayoutSegment :=
  rows.zipIdx.map fun row => segment row.1.1 row.1.2 row.2

def fnv1a64 (data : List UInt8) : UInt64 :=
  data.foldl (fun h b => (h ^^^ b.toUInt64) * 0x00000100000001b3) 0xcbf29ce484222325

/-- The number in 16 hexadecimal digits. -/
def hex16 (h : UInt64) : String :=
  String.ofList ((List.range 16).reverse.map fun i => hexDigit (h.toNat / 16 ^ i % 16))

structure ConversationLayoutMeta where
  layoutSchemaVersion : ℕ
  projectionHash : Option String
  segments : List ConversationLayoutSegment

/-- `toVec` is the printer of the rows as JSON. -/
def layoutMetaFromMessages (toVec : List ProjectedRow → List UInt8) (messages : List Message) :
    ConversationLayoutMeta :=
  let rows := turnRows rowsForTurnSlice messages
  ⟨2, some (hex16 (fnv1a64 (toVec (rows.map Prod.snd)))), numberRows rows⟩

end Model

section Specification

/-- The rows of one message in their place: the commentary of a batch and its tools, or an
answer. -/
def messageRows (m : Message) : List ProjectedRow :=
  if m.role ≠ "assistant" then []
  else
    match m.toolCalls.getD [] with
    | [] => if isBlank (plainText m) then [] else [answerRow (plainText m)]
    | first :: rest =>
      (if isBlank (plainText m) then [] else [commentaryRow first.id (plainText m)]) ++
        (first :: rest).map fun tc =>
          toolRow ⟨tc.id, tc.function.name, tc.function.name, none⟩

def timelineTexts (slice : List Message) : List String :=
  (slice.filter fun m => m.isChatTimelineMarker && !isBlank (plainText m)).map plainText

/-- The timelines, then message by message. -/
def layoutOfTurn (slice : List Message) : List ProjectedRow :=
  (timelineTexts slice).map timelineRow ++ slice.flatMap messageRows

/-- The ids of the tool calls of a turn. -/
def callIds (slice : List Message) : List String :=
  (slice.filter fun m => m.role == "assistant").flatMap fun m =>
    (m.toolCalls.getD []).map ToolCall.id

end Specification

section Replay

variable {timelines : List String} {steps : List ToolStep} {phase : Bool}

/-- A turn between two messages: no segment waits. -/
def steady (timelines : List String) (steps : List ToolStep) (phase : Bool) : Turn :=
  ⟨timelines, steps, [], phase⟩

theorem stepByCallId_of_new {turn : Turn} {id : String}
    (hnew : ∀ s ∈ turn.steps, s.toolCallId ≠ id) : turn.stepByCallId id = none := by
  rw [Turn.stepByCallId, find?_eq_none]
  intro s hs
  simpa using hnew s hs

theorem updateStep_of_new {turn : Turn} {id : String} (f : ToolStep → ToolStep)
    (hnew : ∀ s ∈ turn.steps, s.toolCallId ≠ id) : turn.updateStep id f = turn := by
  rw [Turn.updateStep, First.replaceF_of_none (stepByCallId_of_new hnew)]

/-- The commentary of a batch waits for the first tool of the batch. -/
theorem run_commentaryEvents {text : String} {first : ToolCall} (hblank : isBlank text = false)
    (hnew : ∀ s ∈ steps, s.toolCallId ≠ first.id) :
    Run.run reduceEvent (steady timelines steps phase) (commentaryEvents text first) =
      ⟨timelines, steps, [⟨pendingBefore first.id, .commentary, some first.id, text, false⟩],
        phase⟩ := by
  have hstart : reduceEvent (steady timelines steps phase)
      (.segmentStart (segBefore first.id) .commentary (some first.id)) =
        ⟨timelines, steps, [⟨segBefore first.id, .commentary, some first.id, "", true⟩],
          phase⟩ := by
    have hnone : (steady timelines steps phase).stepByCallId first.id = none :=
      stepByCallId_of_new hnew
    have hsame : ∀ f, (steady timelines steps phase).updateStep first.id f =
        steady timelines steps phase := fun f => updateStep_of_new f hnew
    simp only [reduceEvent, reduceSegmentStart, closeOpenCommentaryExcept, takeStepCommentary]
    simp [steady, Turn.segmentById] at hnone hsame ⊢
    simp [hnone, hsame, takePendingStreamCommentary, Turn.pushSegment]
  have hne : text ≠ "" := by
    rintro rfl
    exact absurd hblank (by decide)
  have hdelta : reduceEvent
      ⟨timelines, steps, [⟨segBefore first.id, .commentary, some first.id, "", true⟩], phase⟩
      (.segmentDelta (segBefore first.id) text) =
        ⟨timelines, steps, [⟨segBefore first.id, .commentary, some first.id, text, true⟩],
          phase⟩ := by
    simp [reduceEvent, reduceSegmentDelta, hne, Turn.segmentById, Turn.updateSegment]
  have hend : reduceEvent
      ⟨timelines, steps, [⟨segBefore first.id, .commentary, some first.id, text, true⟩], phase⟩
      (.segmentEnd (segBefore first.id)) =
        ⟨timelines, steps, [⟨pendingBefore first.id, .commentary, some first.id, text, false⟩],
          phase⟩ := by
    have hnone : Turn.stepByCallId ⟨timelines, steps, [], phase⟩ first.id = none :=
      stepByCallId_of_new hnew
    simp [reduceEvent, reduceSegmentEnd, Turn.segmentById, segBefore_ne_pendingStream,
      attachClosedCommentaryToStep, hblank, hnone, Turn.pushSegment]
  rw [commentaryEvents, Run.run_cons, hstart, Run.run_cons, hdelta, Run.run_cons, hend,
    Run.run_nil]

/-- The first tool of the batch takes it. -/
theorem toolCall_pending {id name summary text : String} (hblank : isBlank text = false)
    (hnew : ∀ s ∈ steps, s.toolCallId ≠ id) :
    reduceEvent ⟨timelines, steps, [⟨pendingBefore id, .commentary, some id, text, false⟩], phase⟩
        (.toolCall id name summary) =
      steady timelines (steps ++ [⟨id, name, summary, some text⟩]) true := by
  have hnone : Turn.stepByCallId ⟨timelines, steps, [], true⟩ id = none :=
    stepByCallId_of_new hnew
  simp [reduceEvent, reduceToolCall, closeOpenSegmentIfPresent, flushSegmentsOntoSteps,
    TurnSegment.flushable, hblank, attachSegment, attachClosedCommentaryToStep, hnone,
    Turn.pushSegment, takePendingStreamCommentary, TurnSegment.isPendingStream,
    pendingBefore_ne_pendingStream, TurnSegment.goesTo, appendText, steady]

theorem toolCall_steady (id name summary : String) :
    reduceEvent (steady timelines steps phase) (.toolCall id name summary) =
      steady timelines (steps ++ [⟨id, name, summary, none⟩]) true := by
  simp [reduceEvent, reduceToolCall, closeOpenSegmentIfPresent, flushSegmentsOntoSteps,
    takePendingStreamCommentary, steady]

theorem toolCalls_steady (tools : List ToolCall) (phase : Bool) :
    ∃ phase', Run.run reduceEvent (steady timelines steps phase)
        (tools.map fun tc => .toolCall tc.id tc.function.name tc.function.name) =
      steady timelines
        (steps ++ tools.map fun tc => ⟨tc.id, tc.function.name, tc.function.name, none⟩)
        phase' := by
  induction tools generalizing steps phase with
  | nil => exact ⟨phase, by simp⟩
  | cons tc tools ih =>
    rw [map_cons, Run.run_cons, toolCall_steady]
    obtain ⟨phase', h⟩ := @ih (steps ++ [⟨tc.id, tc.function.name, tc.function.name, none⟩]) true
    exact ⟨phase', by rw [h, map_cons, append_assoc]; rfl⟩

theorem phaseEnd_steady : reduceEvent (steady timelines steps phase) .toolPhaseEnd =
    steady timelines steps false := by
  simp [reduceEvent, steady, closeOpenCommentaryExcept, flushSegmentsOntoSteps]

theorem close_steady : closeOpenCommentarySegments (steady timelines steps phase) =
    steady timelines steps phase := by
  simp [closeOpenCommentarySegments, steady, closeOpenCommentaryExcept, flushSegmentsOntoSteps]

end Replay

section Scan

/-- The steps of a message. -/
def messageSteps (m : Message) : List ToolStep :=
  if m.role ≠ "assistant" then []
  else
    match m.toolCalls.getD [] with
    | [] => []
    | first :: rest =>
      ⟨first.id, first.function.name, first.function.name, shown (plainText m)⟩ ::
        rest.map fun tc => ⟨tc.id, tc.function.name, tc.function.name, none⟩

/-- The answer a message is. -/
def answer? (m : Message) : Option String :=
  if m.role = "assistant" ∧ (m.toolCalls.getD []).isEmpty then shown (plainText m) else none

/-- The answers, with the number of steps in front of each. -/
def answersFrom (before : ℕ) : List Message → List (ℕ × String)
  | [] => []
  | m :: ms =>
    (answer? m).toList.map (fun text => (before, text)) ++
      answersFrom (before + (messageSteps m).length) ms

theorem messageSteps_ids (m : Message) : (messageSteps m).map ToolStep.toolCallId =
    if m.role == "assistant" then (m.toolCalls.getD []).map ToolCall.id else [] := by
  by_cases hrole : m.role = "assistant"
  · rw [messageSteps, if_neg (by simp [hrole]), if_pos (by simp [hrole])]
    cases m.toolCalls.getD [] with
    | nil => rfl
    | cons first rest => simp
  · rw [messageSteps, if_pos hrole, if_neg (by simpa using hrole)]
    rfl

/-- One batch adds its steps. -/
theorem applyToolBatch_steady {timelines : List String} {steps : List ToolStep} {phase : Bool}
    {m : Message} (hrole : m.role = "assistant") (hcalls : (m.toolCalls.getD []).isEmpty = false)
    (hnew : ∀ s ∈ steps, ∀ t ∈ messageSteps m, s.toolCallId ≠ t.toolCallId) :
    ∃ phase', applyToolBatch (steady timelines steps phase) m (m.toolCalls.getD []) =
      steady timelines (steps ++ messageSteps m) phase' := by
  cases htools : m.toolCalls.getD [] with
  | nil => simp [htools] at hcalls
  | cons first rest =>
    have hsteps : messageSteps m =
        ⟨first.id, first.function.name, first.function.name, shown (plainText m)⟩ ::
          rest.map fun tc => ⟨tc.id, tc.function.name, tc.function.name, none⟩ := by
      rw [messageSteps, if_neg (by simp [hrole]), htools]
    have hfirst : ∀ s ∈ steps, s.toolCallId ≠ first.id := by
      intro s hs
      exact hnew s hs _ (hsteps ▸ mem_cons_self)
    rw [hsteps]
    simp only [applyToolBatch, map_cons, Run.run_cons]
    cases hblank : isBlank (plainText m) with
    | true =>
      rw [if_pos rfl, toolCall_steady]
      obtain ⟨phase', h⟩ := toolCalls_steady rest true
      exact ⟨phase', by rw [h, shown, hblank, if_pos rfl, append_assoc]; rfl⟩
    | false =>
      rw [if_neg (by simp), head?_cons, elim_some,
        run_commentaryEvents hblank hfirst, toolCall_pending hblank hfirst]
      obtain ⟨phase', h⟩ := toolCalls_steady rest true
      exact ⟨phase', by rw [h, shown, hblank, if_neg (by simp), append_assoc]; rfl⟩

/-- One message adds its timeline, its steps and its answer. -/
theorem scanMessage_steady {timelines : List String} {steps : List ToolStep} {phase saw : Bool}
    {answers : List (ℕ × String)} {m : Message}
    (hnew : ∀ s ∈ steps, ∀ t ∈ messageSteps m, s.toolCallId ≠ t.toolCallId) :
    ∃ phase' saw', scanMessage ⟨steady timelines steps phase, answers, saw⟩ m =
      ⟨steady (timelines ++ timelineTexts [m]) (steps ++ messageSteps m) phase',
        answers ++ (answer? m).toList.map (fun text => (steps.length, text)), saw'⟩ := by
  cases hmarker : m.isChatTimelineMarker with
  | true =>
    have hrole : m.role = "system" := Message.role_of_timeline hmarker
    have hsteps : messageSteps m = [] := if_pos (by simp [hrole])
    have hanswer : answer? m = none := if_neg (by simp [hrole])
    refine ⟨phase, saw, ?_⟩
    rw [hsteps, hanswer]
    simp only [scanMessage, hmarker, if_true, applyTimeline, timelineTexts]
    cases hblank : isBlank (plainText m) <;>
      simp [hmarker, hblank, reduceEvent, steady]
  | false =>
    have htimelines : timelineTexts [m] = [] := by simp [timelineTexts, hmarker]
    rw [htimelines, append_nil]
    by_cases hrole : m.role = "assistant"
    · cases hcalls : (m.toolCalls.getD []).isEmpty with
      | true =>
        have hsteps : messageSteps m = [] := by
          rw [messageSteps, if_neg (by simp [hrole]), List.isEmpty_iff.mp hcalls]
        have hanswer : answer? m = shown (plainText m) := if_pos ⟨hrole, hcalls⟩
        have hturn : ∃ phase', (if saw then reduceEvent (steady timelines steps phase) .toolPhaseEnd
            else steady timelines steps phase) = steady timelines steps phase' := by
          cases saw with
          | true => exact ⟨false, phaseEnd_steady⟩
          | false => exact ⟨phase, rfl⟩
        obtain ⟨phase', hturn⟩ := hturn
        refine ⟨phase', false, ?_⟩
        rw [hsteps, hanswer, append_nil]
        simp only [scanMessage, hmarker, hrole, hcalls, if_true, hturn, pushAnswerCheckpoint, shown]
        cases hblank : isBlank (plainText m) <;> simp [steady]
      | false =>
        have hanswer : answer? m = none := if_neg (by simp [hcalls])
        obtain ⟨phase', hbatch⟩ := @applyToolBatch_steady timelines steps phase m hrole hcalls hnew
        refine ⟨phase', true, ?_⟩
        simp [scanMessage, hmarker, hrole, hcalls, hbatch, hanswer]
    · have hsteps : messageSteps m = [] := if_pos hrole
      have hanswer : answer? m = none := if_neg fun h => hrole h.1
      exact ⟨phase, saw, by simp [scanMessage, hmarker, hrole, hsteps, hanswer]⟩

/-- The scan of a turn whose tool calls have ids of their own. -/
theorem scan_steady (slice : List Message) {timelines : List String} {steps : List ToolStep}
    {phase saw : Bool} {answers : List (ℕ × String)}
    (hids : (steps.map ToolStep.toolCallId ++ callIds slice).Nodup) :
    ∃ phase' saw', slice.foldl scanMessage ⟨steady timelines steps phase, answers, saw⟩ =
      ⟨steady (timelines ++ timelineTexts slice) (steps ++ slice.flatMap messageSteps) phase',
        answers ++ answersFrom steps.length slice, saw'⟩ := by
  induction slice generalizing timelines steps phase saw answers with
  | nil => exact ⟨phase, saw, by simp [timelineTexts, answersFrom]⟩
  | cons m slice ih =>
    have hcons : callIds (m :: slice) = (messageSteps m).map ToolStep.toolCallId ++
        callIds slice := by
      rw [messageSteps_ids, callIds, filter_cons]
      split
      · rw [flatMap_cons, callIds]
      · rfl
    rw [hcons, ← append_assoc, ← map_append] at hids
    have hnew : ∀ s ∈ steps, ∀ t ∈ messageSteps m, s.toolCallId ≠ t.toolCallId := by
      intro s hs t ht heq
      have hnodup := List.Nodup.of_append_left hids
      rw [map_append] at hnodup
      exact (nodup_append.mp hnodup).2.2 _ (List.mem_map_of_mem hs) _
        (List.mem_map_of_mem ht) heq
    obtain ⟨phase₁, saw₁, hstep⟩ :=
      @scanMessage_steady timelines steps phase saw answers m hnew
    obtain ⟨phase₂, saw₂, hrest⟩ := @ih (timelines ++ timelineTexts [m]) (steps ++ messageSteps m)
      phase₁ saw₁ (answers ++ (answer? m).toList.map fun text => (steps.length, text)) hids
    have htimelines : timelineTexts (m :: slice) = timelineTexts [m] ++ timelineTexts slice := by
      rw [timelineTexts, ← singleton_append, filter_append, map_append]
      rfl
    refine ⟨phase₂, saw₂, ?_⟩
    rw [foldl_cons, hstep, hrest, htimelines, answersFrom, flatMap_cons,
      length_append, append_assoc, append_assoc, append_assoc]

end Scan

section Merge

/-- The rows from a place between two tools on, where the answers of the place come first. -/
def mergedFrom (answers : List (ℕ × String)) (emitted : ℕ) (rows : List ProjectedRow) :
    List ProjectedRow :=
  (drainAnswersAt answers emitted).1 ++ mergeRows (drainAnswersAt answers emitted).2 emitted rows

theorem mergeRows_stepRows (answers : List (ℕ × String)) (emitted : ℕ) (step : ToolStep)
    (rows : List ProjectedRow) :
    mergeRows answers emitted (stepRows step ++ rows) =
      stepRows step ++ mergedFrom answers (emitted + 1) rows := by
  have htool : ∀ rest, mergeRows answers emitted (toolRow step :: rest) =
      toolRow step :: mergedFrom answers (emitted + 1) rest := fun rest => by
    rw [mergeRows, toolRow, if_pos rfl]
    rfl
  rw [stepRows]
  cases step.beforeCommentary.filter fun text => !isBlank text with
  | none => exact htool rows
  | some text =>
    simp only [map_some, toList_some, cons_append, nil_append]
    rw [mergeRows, if_neg (by simp [commentaryRow, assistantCommentary, toolKind]), htool]

theorem mergedFrom_of_later {answers : List (ℕ × String)} {emitted : ℕ}
    (h : ∀ a ∈ answers, emitted < a.1) (rows : List ProjectedRow) :
    mergedFrom answers emitted rows = mergeRows answers emitted rows := by
  cases answers with
  | nil => rfl
  | cons a answers =>
    have hne : (a.1 == emitted) = false := by simpa using (h a mem_cons_self).ne'
    simp [mergedFrom, drainAnswersAt, hne]

theorem mergedFrom_steps (steps : List ToolStep) {answers : List (ℕ × String)} {emitted : ℕ}
    (h : ∀ a ∈ answers, emitted + steps.length ≤ a.1) (rows : List ProjectedRow) :
    mergedFrom answers emitted (steps.flatMap stepRows ++ rows) =
      steps.flatMap stepRows ++ mergedFrom answers (emitted + steps.length) rows := by
  induction steps generalizing emitted with
  | nil => rfl
  | cons step steps ih =>
    rw [length_cons] at h
    rw [mergedFrom_of_later fun a ha => by have := h a ha; omega, flatMap_cons,
      append_assoc, mergeRows_stepRows, ih fun a ha => by have := h a ha; omega,
      append_assoc, length_cons, Nat.add_right_comm emitted 1, Nat.add_assoc]

theorem le_of_mem_answersFrom (slice : List Message) {before : ℕ} {a : ℕ × String}
    (h : a ∈ answersFrom before slice) : before ≤ a.1 := by
  induction slice generalizing before with
  | nil => cases h
  | cons m slice ih =>
    rw [answersFrom, mem_append] at h
    rcases h with h | h
    · obtain ⟨text, -, rfl⟩ := List.mem_map.mp h
      exact Nat.le_refl _
    · exact (Nat.le_add_right _ _).trans (ih h)

theorem mergedFrom_cons_now (answers : List (ℕ × String)) (emitted : ℕ) (text : String)
    (rows : List ProjectedRow) : mergedFrom ((emitted, text) :: answers) emitted rows =
      answerRow text :: mergedFrom answers emitted rows := by
  simp [mergedFrom, drainAnswersAt]

theorem flatMap_stepRows_messageSteps (m : Message) :
    (answer? m).toList.map answerRow ++ (messageSteps m).flatMap stepRows = messageRows m := by
  by_cases hrole : m.role = "assistant"
  · rw [answer?, messageSteps, messageRows, if_neg (not_not_intro hrole),
      if_neg (not_not_intro hrole)]
    generalize m.toolCalls.getD [] = tools
    cases tools with
    | nil => cases hblank : isBlank (plainText m) <;> simp [hrole, shown, hblank]
    | cons first rest =>
      have hplain : (rest.map fun tc : ToolCall => (⟨tc.id, tc.function.name, tc.function.name,
          none⟩ : ToolStep)).flatMap stepRows =
          rest.map fun tc => toolRow ⟨tc.id, tc.function.name, tc.function.name, none⟩ := by
        rw [flatMap_map, map_eq_flatMap]
        rfl
      cases hblank : isBlank (plainText m) <;>
        simp [shown, hblank, hplain, stepRows, toolRow, Option.filter]
  · rw [answer?, messageSteps, messageRows, if_pos hrole, if_pos hrole,
      if_neg fun h => hrole h.1]
    rfl

theorem mergedFrom_slice (slice : List Message) (emitted : ℕ) :
    mergedFrom (answersFrom emitted slice) emitted
        ((slice.flatMap messageSteps).flatMap stepRows) = slice.flatMap messageRows := by
  induction slice generalizing emitted with
  | nil => rfl
  | cons m slice ih =>
    rw [flatMap_cons, flatMap_append, flatMap_cons,
      ← flatMap_stepRows_messageSteps, answersFrom]
    have hsteps : mergedFrom (answersFrom (emitted + (messageSteps m).length) slice) emitted
        ((messageSteps m).flatMap stepRows ++ (slice.flatMap messageSteps).flatMap stepRows) =
          (messageSteps m).flatMap stepRows ++ slice.flatMap messageRows := by
      rw [mergedFrom_steps _ fun a ha => le_of_mem_answersFrom slice ha, ih]
    cases answer? m with
    | none => rwa [toList_none, map_nil, map_nil, nil_append, nil_append]
    | some text =>
      simp only [toList_some, map_cons, map_nil, singleton_append]
      rw [mergedFrom_cons_now, hsteps]
      rfl

end Merge

section Turns

theorem kind_of_mem_stepRows {step : ToolStep} {row : ProjectedRow} (h : row ∈ stepRows step) :
    row.kind ≠ assistantTimeline := by
  rw [stepRows, mem_append, mem_toList, map_eq_some_iff] at h
  rcases h with ⟨text, -, rfl⟩ | h
  · simp [commentaryRow, assistantCommentary, assistantTimeline]
  · rw [mem_singleton.mp h]
    simp [toolRow, toolKind, assistantTimeline]

theorem split_timelines (texts : List String) (steps : List ToolStep) :
    let rows := texts.map timelineRow ++ steps.flatMap stepRows
    rows.takeWhile (fun row => row.kind == assistantTimeline) = texts.map timelineRow ∧
      rows.dropWhile (fun row => row.kind == assistantTimeline) = steps.flatMap stepRows := by
  have htimelines : ∀ row ∈ texts.map timelineRow, (row.kind == assistantTimeline) = true := by
    intro row hrow
    obtain ⟨text, -, rfl⟩ := List.mem_map.mp hrow
    exact beq_self_eq_true _
  have hsteps : ∀ row ∈ steps.flatMap stepRows, ¬ (row.kind == assistantTimeline) = true := by
    intro row hrow
    obtain ⟨step, -, hmem⟩ := mem_flatMap.mp hrow
    simpa using kind_of_mem_stepRows hmem
  dsimp only
  rw [takeWhile_append_of_pos htimelines, dropWhile_append_of_pos htimelines]
  cases hrows : steps.flatMap stepRows with
  | nil => simp
  | cons row rows =>
    have hrow := hsteps row (hrows ▸ mem_cons_self)
    constructor
    · rw [takeWhile_cons, if_neg hrow, append_nil]
    · rw [dropWhile_cons, if_neg hrow]

theorem rowsForTurnSlice_eq {slice : List Message} (hids : (callIds slice).Nodup) :
    rowsForTurnSlice slice = layoutOfTurn slice := by
  obtain ⟨phase, saw, hscan⟩ := @scan_steady slice [] [] false false [] (by simpa using hids)
  have hempty : Turn.empty = steady [] [] false := rfl
  have hturn : ∃ phase', (if saw then
      reduceEvent (steady (timelineTexts slice) (slice.flatMap messageSteps) phase) .toolPhaseEnd
        else steady (timelineTexts slice) (slice.flatMap messageSteps) phase) =
      steady (timelineTexts slice) (slice.flatMap messageSteps) phase' := by
    cases saw with
    | true => exact ⟨false, phaseEnd_steady⟩
    | false => exact ⟨phase, rfl⟩
  obtain ⟨phase', hturn⟩ := hturn
  obtain ⟨htake, hdrop⟩ := split_timelines (timelineTexts slice) (slice.flatMap messageSteps)
  rw [rowsForTurnSlice, hempty, hscan]
  simp only [nil_append, hturn, close_steady, projectTurnWebV2, mergeV2WithAnswers]
  rw [steady, htake, hdrop, append_assoc, layoutOfTurn, ← mergedFrom_slice]
  rfl

theorem nodup_turnIds (messages : List Message) :
    ((iterTurnSlices messages).map Prod.fst).Nodup := by
  have husers : ∀ slices : List (List Message), ((slices.zipIdx.map fun slice =>
      (userTurnId slice.2, slice.1)).map Prod.fst).Nodup := by
    intro slices
    have hids : (slices.zipIdx.map fun slice => (userTurnId slice.2, slice.1)).map Prod.fst =
        (List.range' 0 slices.length).map userTurnId := by
      rw [← zipIdx_map_snd 0 slices, List.map_map, List.map_map]
      rfl
    rw [hids]
    refine List.Nodup.map (fun n k h => ?_) nodup_range'
    exact Nat.repr_inj.mp ((String.append_right_inj "u").mp h)
  simp only [iterTurnSlices]
  by_cases hempty : (splitTurns messages).1.isEmpty = true
  · rw [if_pos hempty, nil_append]
    exact husers _
  · rw [if_neg hempty, singleton_append, map_cons, nodup_cons]
    refine ⟨fun hmem => ?_, husers _⟩
    obtain ⟨turn, hturn, hlead⟩ := List.mem_map.mp hmem
    obtain ⟨slice, -, rfl⟩ := List.mem_map.mp hturn
    have hne : userTurnId slice.2 ≠ leadTurnId := ne_of_head (by decide)
    exact hne hlead

end Turns

section Keys

/-- Two rows do not stand for one tool call in one way. -/
def Apart (a b : ProjectedRow) : Prop :=
  a.toolCallId.isSome = true → a.kind = b.kind → a.toolCallId ≠ b.toolCallId

/-- Tools and commentaries belong to a tool call. -/
def Anchored (row : ProjectedRow) : Prop :=
  row.kind = toolKind ∨ row.kind = assistantCommentary → row.toolCallId.isSome = true

theorem toolCallId_of_mem_stepRows {step : ToolStep} {row : ProjectedRow}
    (h : row ∈ stepRows step) : row.toolCallId = some step.toolCallId := by
  rw [stepRows, mem_append, mem_toList, map_eq_some_iff] at h
  rcases h with ⟨text, -, rfl⟩ | h
  · rfl
  · rw [mem_singleton.mp h]
    rfl

theorem mem_messageRows {m : Message} {row : ProjectedRow} (h : row ∈ messageRows m) :
    Anchored row ∧ ∀ id, row.toolCallId = some id →
      id ∈ (messageSteps m).map ToolStep.toolCallId := by
  rw [← flatMap_stepRows_messageSteps, mem_append] at h
  rcases h with h | h
  · obtain ⟨text, -, rfl⟩ := List.mem_map.mp h
    refine ⟨fun hkind => ?_, fun id hid => by cases hid⟩
    simp [answerRow, assistantAnswer, toolKind, assistantCommentary] at hkind
  · obtain ⟨step, hstep, hrow⟩ := mem_flatMap.mp h
    have hid := toolCallId_of_mem_stepRows hrow
    refine ⟨fun _ => by rw [hid]; rfl, fun id h => ?_⟩
    rw [hid, Option.some.injEq] at h
    exact h ▸ List.mem_map_of_mem hstep

theorem apart_stepRows {steps : List ToolStep} (h : (steps.map ToolStep.toolCallId).Nodup) :
    (steps.flatMap stepRows).Pairwise Apart := by
  rw [pairwise_flatMap]
  constructor
  · intro step _
    rw [stepRows]
    cases step.beforeCommentary.filter fun text => !isBlank text with
    | none => exact pairwise_singleton _ _
    | some text =>
      refine pairwise_pair.mpr fun _ hkind => ?_
      simp [commentaryRow, toolRow, assistantCommentary, toolKind] at hkind
  · refine List.Pairwise.imp (fun {a b} hab x hx y hy _ _ heq => ?_) (pairwise_map.mp h)
    rw [toolCallId_of_mem_stepRows hx, toolCallId_of_mem_stepRows hy, Option.some.injEq] at heq
    exact hab heq

theorem apart_of_none {a b : ProjectedRow} (h : a.toolCallId = none) : Apart a b := by
  intro hsome
  rw [h] at hsome
  cases hsome

theorem apart_messageRows {m : Message}
    (h : ((messageSteps m).map ToolStep.toolCallId).Nodup) : (messageRows m).Pairwise Apart := by
  have hnone : ∀ row ∈ (answer? m).toList.map answerRow, row.toolCallId = none := by
    intro row hrow
    obtain ⟨text, -, rfl⟩ := List.mem_map.mp hrow
    rfl
  rw [← flatMap_stepRows_messageSteps, pairwise_append]
  refine ⟨?_, apart_stepRows h, fun a ha b _ => apart_of_none (hnone a ha)⟩
  exact List.Pairwise.imp_of_mem (fun ha _ _ => apart_of_none (hnone _ ha))
    (pairwise_of_forall fun _ _ => trivial)

theorem callIds_eq (slice : List Message) :
    callIds slice = slice.flatMap fun m => (messageSteps m).map ToolStep.toolCallId := by
  induction slice with
  | nil => rfl
  | cons m slice ih =>
    rw [flatMap_cons, ← ih, messageSteps_ids, callIds, filter_cons]
    split
    · rw [flatMap_cons, callIds]
    · rfl

theorem apart_layoutOfTurn {slice : List Message} (h : (callIds slice).Nodup) :
    (layoutOfTurn slice).Pairwise Apart := by
  have hnone : ∀ row ∈ (timelineTexts slice).map timelineRow, row.toolCallId = none := by
    intro row hrow
    obtain ⟨text, -, rfl⟩ := List.mem_map.mp hrow
    rfl
  rw [callIds_eq, nodup_flatMap] at h
  rw [layoutOfTurn, pairwise_append, pairwise_flatMap]
  refine ⟨?_, ⟨fun m hm => apart_messageRows (h.1 m hm), ?_⟩,
    fun a ha b _ => apart_of_none (hnone a ha)⟩
  · exact List.Pairwise.imp_of_mem (fun ha _ _ => apart_of_none (hnone _ ha))
      (pairwise_of_forall fun _ _ => trivial)
  · refine h.2.imp fun {m n} hdisjoint a ha b hb hsome _ heq => ?_
    obtain ⟨id, hid⟩ := isSome_iff_exists.mp hsome
    exact hdisjoint ((mem_messageRows ha).2 id hid) ((mem_messageRows hb).2 id (heq ▸ hid))

theorem anchored_layoutOfTurn {slice : List Message} :
    ∀ row ∈ layoutOfTurn slice, Anchored row := by
  intro row hrow
  rcases mem_append.mp hrow with hrow | hrow
  · obtain ⟨text, -, rfl⟩ := List.mem_map.mp hrow
    intro hkind
    simp [timelineRow, assistantTimeline, toolKind, assistantCommentary] at hkind
  · obtain ⟨m, -, hm⟩ := mem_flatMap.mp hrow
    exact (mem_messageRows hm).1

/-- The rows of one kind have the ids of their tool calls, or numbers of their own. -/
theorem eq_of_segmentKeys {a b : ProjectedRow} {i j : ℕ} (ha : Anchored a) (hb : Anchored b)
    (hkind : a.kind = b.kind) (h : (segmentKeys a i).1 = (segmentKeys b j).1) :
    i = j ∨ (a.toolCallId.isSome = true ∧ a.toolCallId = b.toolCallId) := by
  by_cases htool : a.kind = toolKind
  · obtain ⟨x, hx⟩ := isSome_iff_exists.mp (ha (.inl htool))
    obtain ⟨y, hy⟩ := isSome_iff_exists.mp (hb (.inl (hkind ▸ htool)))
    simp only [segmentKeys, if_pos htool, if_pos (hkind ▸ htool), hx, hy, getD_some] at h
    exact .inr ⟨by rw [hx]; rfl, by rw [hx, hy, h]⟩
  · have htool' : b.kind ≠ toolKind := hkind ▸ htool
    by_cases hcomment : a.kind = assistantCommentary
    · have hcomment' : b.kind = assistantCommentary := hkind ▸ hcomment
      obtain ⟨x, hx⟩ := isSome_iff_exists.mp (ha (.inr hcomment))
      obtain ⟨y, hy⟩ := isSome_iff_exists.mp (hb (.inr hcomment'))
      simp only [segmentKeys, if_neg htool, if_neg htool', if_pos hcomment, if_pos hcomment', hx,
        hy, elim_some, segBefore] at h
      rw [String.append_right_inj] at h
      exact .inr ⟨by rw [hx]; rfl, by rw [hx, hy, h]⟩
    · have hcomment' : b.kind ≠ assistantCommentary := hkind ▸ hcomment
      simp only [segmentKeys, hkind, if_neg htool', if_neg hcomment'] at h
      rw [String.append_right_inj] at h
      exact .inl (Nat.repr_inj.mp h)

def ConversationLayoutSegment.key (s : ConversationLayoutSegment) :
    Option String × String × String :=
  (s.turnId, s.segmentKind, s.segmentId)

theorem nodup_keys {rows : List (String × ProjectedRow)}
    (hanchored : ∀ row ∈ rows, Anchored row.2)
    (hapart : rows.Pairwise fun a b => a.1 = b.1 → Apart a.2 b.2) :
    ((numberRows rows).map ConversationLayoutSegment.key).Nodup := by
  rw [List.Nodup, numberRows, List.map_map, pairwise_map, pairwise_iff_getElem]
  intro i j hi hj hij heq
  rw [length_zipIdx] at hi hj
  simp only [Function.comp, getElem_zipIdx, Nat.zero_add, ConversationLayoutSegment.key,
    segment, Prod.mk.injEq, Option.some.injEq] at heq
  obtain ⟨hturn, hkind, hid⟩ := heq
  rcases eq_of_segmentKeys (hanchored _ (getElem_mem hi)) (hanchored _ (getElem_mem hj))
    hkind hid with hindex | ⟨hsome, hcall⟩
  · omega
  · exact pairwise_iff_getElem.mp hapart i j hi hj hij hturn hsome hkind hcall

theorem apart_turnRows {messages : List Message}
    (h : ∀ turn ∈ iterTurnSlices messages, (callIds turn.2).Nodup) :
    (turnRows layoutOfTurn messages).Pairwise fun a b => a.1 = b.1 → Apart a.2 b.2 := by
  rw [turnRows, pairwise_flatMap]
  constructor
  · intro turn hturn
    rw [pairwise_map]
    refine (apart_layoutOfTurn (h turn hturn)).imp ?_
    intro a b hab _
    exact hab
  · refine (pairwise_map.mp (nodup_turnIds messages)).imp fun {s t} hne a ha b hb heq => ?_
    obtain ⟨x, -, rfl⟩ := List.mem_map.mp ha
    obtain ⟨y, -, rfl⟩ := List.mem_map.mp hb
    exact absurd heq hne

end Keys

section Main

/-- No turn calls two tools by one id. -/
def DistinctCallIds (messages : List Message) : Prop :=
  ∀ turn ∈ iterTurnSlices messages, (callIds turn.2).Nodup

/-- The stored layout is what the messages say, turn by turn, numbered from 0; no two rows of one
turn and one kind have one id. -/
structure PersistedAs (messages : List Message) (toVec : List ProjectedRow → List UInt8)
    (layout : ConversationLayoutMeta) : Prop where
  segments : layout.segments = numberRows (turnRows layoutOfTurn messages)
  hash : layout.projectionHash =
    some (hex16 (fnv1a64 (toVec ((turnRows layoutOfTurn messages).map Prod.snd))))
  sequence : ∀ (i : ℕ) (s : ConversationLayoutSegment),
    layout.segments[i]? = some s → s.sequence = i
  keys : (layout.segments.map ConversationLayoutSegment.key).Nodup

theorem turnRows_eq {messages : List Message} (h : DistinctCallIds messages) :
    turnRows rowsForTurnSlice messages = turnRows layoutOfTurn messages := by
  rw [turnRows, turnRows]
  refine flatMap_congr fun turn hturn => ?_
  rw [rowsForTurnSlice_eq (h turn hturn)]

theorem layout_persisted_as_messages (toVec : List ProjectedRow → List UInt8)
    (messages : List Message) (h : DistinctCallIds messages) :
    PersistedAs messages toVec (layoutMetaFromMessages toVec messages) := by
  have hrows := turnRows_eq h
  refine ⟨?_, ?_, fun i s hs => ?_, ?_⟩
  · rw [layoutMetaFromMessages, hrows]
  · rw [layoutMetaFromMessages, hrows]
  · rw [layoutMetaFromMessages, numberRows, getElem?_map, map_eq_some_iff] at hs
    obtain ⟨⟨row, k⟩, hrow, rfl⟩ := hs
    rw [getElem?_zipIdx, map_eq_some_iff] at hrow
    obtain ⟨_, _, hpair⟩ := hrow
    rw [← (Prod.mk.inj hpair).2, Nat.zero_add]
    rfl
  · rw [layoutMetaFromMessages, hrows]
    refine nodup_keys (fun row hrow => ?_) (apart_turnRows h)
    obtain ⟨turn, -, hmem⟩ := mem_flatMap.mp hrow
    obtain ⟨x, hx, rfl⟩ := List.mem_map.mp hmem
    exact anchored_layoutOfTurn x hx

def batch (text : String) (ids : List String) : Message :=
  ⟨"assistant", some (.text text), none, none,
    some (ids.map fun id => ⟨id, "function", ⟨"read_file", ""⟩⟩), none, none⟩

/-- Two turns whose tools the provider numbers afresh. -/
def repeatedIds : List Message :=
  [.userOnly "go", batch "" ["call_1"], .userOnly "on", batch "" ["call_1"]]

/-- A tool call with the id of the commentary in front of another. -/
def lookalikeId : List Message := [.userOnly "go", batch "Look." ["tc1", "seg-before-tc1"]]

theorem layout_persisted_as_repeatedIds :
    PersistedAs repeatedIds (fun _ => []) (layoutMetaFromMessages (fun _ => []) repeatedIds) :=
  layout_persisted_as_messages (fun _ => []) repeatedIds (by
    unfold DistinctCallIds
    decide +kernel)

theorem segment_ids_repeat :
    (DistinctCallIds repeatedIds ∧
      ¬ ((layoutMetaFromMessages (fun _ => []) repeatedIds).segments.map
        ConversationLayoutSegment.segmentId).Nodup) ∧
    DistinctCallIds lookalikeId ∧
      ¬ ((layoutMetaFromMessages (fun _ => []) lookalikeId).segments.map
        fun s => (s.turnId, s.segmentId)).Nodup := by
  unfold DistinctCallIds
  decide +kernel

end Main
end CrabMate.Layout
