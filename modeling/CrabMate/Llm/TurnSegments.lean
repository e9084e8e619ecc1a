import CrabMate.Llm.SseParser
import CrabMate.Llm.VendorBody

/-! Tool calls that arrive in deltas, and the turn segments announced while they do. The texts of
the arguments are prepared for the tools at the end. -/
namespace CrabMate
open RustStr (Str)
open List Option
open SseConsumeScratch (mergeToolCallDelta)

variable {U : Type}

section Emit

inductive SegmentEvent where
  | parsingToolCalls
  | turnSegmentStart (toolCallId : Str)
  | turnSegmentEnd (segmentId : Str)
  deriving DecidableEq

/-- What the deltas of tool calls work on, and what has been sent so far. -/
structure ToolCallsFrame where
  toolCallsAcc : List ToolCallAcc
  parsingToolCallsNotified : Bool
  turnSegmentOpen : Option Str
  turnSegmentEmittedIds : List Str
  sent : List SegmentEvent

namespace ToolCallsFrame

def new : ToolCallsFrame := ⟨[], false, none, [], []⟩

def send (f : ToolCallsFrame) (e : SegmentEvent) : ToolCallsFrame :=
  { f with sent := f.sent ++ [e] }

def segBefore (toolCallId : Str) : Str := "seg-before-".toList ++ toolCallId

/-- `out` says whether anybody receives the events. -/
def emitTurnSegmentEndIfOpen (out : Bool) (f : ToolCallsFrame) : ToolCallsFrame :=
  match f.turnSegmentOpen with
  | none => f
  | some segmentId =>
    let taken := { f with turnSegmentOpen := none }
    if out then taken.send (.turnSegmentEnd segmentId) else taken

def emitTurnSegmentStartForToolCall (out : Bool) (f : ToolCallsFrame) (toolCallId : Str) :
    ToolCallsFrame :=
  if toolCallId.isEmpty || f.turnSegmentEmittedIds.contains toolCallId then f
  else
    let emitted := f.turnSegmentEmittedIds ++ [toolCallId]
    if out then
      { (f.emitTurnSegmentEndIfOpen out).send (.turnSegmentStart toolCallId) with
        turnSegmentEmittedIds := emitted, turnSegmentOpen := some (segBefore toolCallId) }
    else { f with turnSegmentEmittedIds := emitted }

def notifyParsing (out : Bool) (f : ToolCallsFrame) (tcs : List StreamToolCallDelta) :
    ToolCallsFrame :=
  if !f.parsingToolCallsNotified && !tcs.isEmpty then
    let notified := { f with parsingToolCallsNotified := true }
    if out then notified.send .parsingToolCalls else notified
  else f

/-- The ids that are known, in the order of the calls. -/
def ids (acc : List ToolCallAcc) : List Str := (acc.map Prod.fst).filter fun id => !id.isEmpty

def ingestSseToolCallsFromDelta (out : Bool) (f : ToolCallsFrame) (delta : StreamDelta) :
    ToolCallsFrame :=
  match delta.toolCalls with
  | none => f
  | some tcs =>
    let f := f.notifyParsing out tcs
    let knownIds := ids f.toolCallsAcc
    let merged := tcs.foldl mergeToolCallDelta f.toolCallsAcc
    ((ids merged).filter fun id => !knownIds.contains id).foldl
      (emitTurnSegmentStartForToolCall out) { f with toolCallsAcc := merged }

end ToolCallsFrame

/-- The tool-call part of a chunk. -/
def StreamChunk.delta? (c : StreamChunk U) : Option StreamDelta :=
  (c.choices.getD []).head?.map StreamChoice.delta

def StreamChunk.toolCallDeltas (c : StreamChunk U) : List StreamToolCallDelta :=
  (c.delta?.bind StreamDelta.toolCalls).getD []

/-- How reading the stream ends: with its end, or with an error of the connection. -/
inductive StreamEnd where
  | ended
  | transportError
  deriving DecidableEq

/-- The stream from its beginning to its end. An error is returned at once. -/
def consumeToolCalls (out : Bool) (chunks : List (StreamChunk U)) (streamEnd : StreamEnd) :
    ToolCallsFrame :=
  let f := (chunks.filterMap StreamChunk.delta?).foldl
    (ToolCallsFrame.ingestSseToolCallsFromDelta out) .new
  match streamEnd with
  | .ended => f.emitTurnSegmentEndIfOpen out
  | .transportError => f

variable (serde : ToolJson)

def ToolCallAcc.toolCall (call : ToolCallAcc) : ToolCall :=
  ⟨String.ofList call.1, String.ofList call.2.1, ⟨String.ofList call.2.2.1,
    String.ofList (prepareToolCallArgumentsForLocalExecution serde call.2.2.2)⟩⟩

/-- The calls of the finished message. -/
def toolCallsFromSseAccum (toolCallsAcc : List ToolCallAcc) : Option (List ToolCall) :=
  if toolCallsAcc.isEmpty then none else some (toolCallsAcc.map (ToolCallAcc.toolCall serde))

end Emit

section Merge

variable {tcs : List StreamToolCallDelta} {tc : StreamToolCallDelta} {i : ℕ}

def freshCall : ToolCallAcc := ([], "function".toList, [], [])

/-- What one delta changes of its call. -/
def ToolCallAcc.update (call : ToolCallAcc) (tc : StreamToolCallDelta) : ToolCallAcc :=
  (tc.id.getD call.1, tc.typ.getD call.2.1,
    (tc.function.bind StreamFunctionDelta.name).getD call.2.2.1,
    call.2.2.2 ++ (tc.function.bind StreamFunctionDelta.arguments).getD [])

/-- The last value sent. -/
def lastSent (own : List StreamToolCallDelta) (field : StreamToolCallDelta → Option Str)
    (default : Str) : Str :=
  ((own.filterMap field).getLast?).getD default

/-- The call that the deltas of one index make up. -/
def sentCall (tcs : List StreamToolCallDelta) (i : ℕ) : ToolCallAcc :=
  let own := tcs.filter fun tc => tc.index = i
  (lastSent own StreamToolCallDelta.id [], lastSent own StreamToolCallDelta.typ "function".toList,
    lastSent own (fun tc => tc.function.bind StreamFunctionDelta.name) [],
    (own.map fun tc => (tc.function.bind StreamFunctionDelta.arguments).getD []).flatten)

theorem lastSent_concat (own : List StreamToolCallDelta) (tc : StreamToolCallDelta)
    (field : StreamToolCallDelta → Option Str) (default : Str) :
    lastSent (own ++ [tc]) field default = (field tc).getD (lastSent own field default) := by
  unfold lastSent
  rw [filterMap_append]
  cases h : field tc <;> simp [h]

theorem sentCall_concat (tcs : List StreamToolCallDelta) (tc : StreamToolCallDelta) (i : ℕ) :
    sentCall (tcs ++ [tc]) i =
      if tc.index = i then (sentCall tcs i).update tc else sentCall tcs i := by
  unfold sentCall
  rw [filter_append]
  by_cases h : tc.index = i
  · simp [h, lastSent_concat, ToolCallAcc.update]
  · simp [h]

theorem sentCall_of_none (h : ∀ tc ∈ tcs, tc.index < i) : sentCall tcs i = freshCall := by
  have hnone : (tcs.filter fun tc => tc.index = i) = [] := by
    refine filter_eq_nil_iff.mpr fun tc htc => ?_
    have hlt := h tc htc
    simp only [decide_eq_true_eq]
    omega
  rw [sentCall, hnone]
  rfl

theorem getElem?_extended (acc : List ToolCallAcc) (n i : ℕ) :
    (acc ++ List.replicate (n - acc.length) freshCall)[i]? =
      if i < acc.length ∨ i < n then some (acc[i]?.getD freshCall) else none := by
  by_cases hi : i < acc.length
  · rw [getElem?_append_left hi, if_pos (.inl hi), getElem?_eq_getElem hi]
    rfl
  · have hle : acc.length ≤ i := by omega
    rw [getElem?_append_right hle, getElem?_eq_none hle, getElem?_replicate]
    by_cases hn : i < n
    · rw [if_pos (by omega), if_pos (.inr hn)]
      rfl
    · rw [if_neg (by omega), if_neg (by omega)]

theorem getElem?_mergeToolCallDelta (acc : List ToolCallAcc) (tc : StreamToolCallDelta) (i : ℕ) :
    (mergeToolCallDelta acc tc)[i]? =
      if tc.index = i then some (ToolCallAcc.update (acc[i]?.getD freshCall) tc)
      else if i < acc.length ∨ i < tc.index + 1 then some (acc[i]?.getD freshCall) else none := by
  have hmodify : (mergeToolCallDelta acc tc)[i]? =
      ((acc ++ List.replicate (tc.index + 1 - acc.length) freshCall)[i]?).map fun call =>
        if tc.index = i then ToolCallAcc.update call tc else call := by
    rw [mergeToolCallDelta, getElem?_modify]
    rfl
  rw [hmodify, getElem?_extended]
  by_cases hi : tc.index = i
  · rw [if_pos (.inr (by omega)), if_pos hi, map_some, if_pos hi]
  · rw [if_neg hi]
    simp only [if_neg hi, Option.map_id']

/-- The calls so far are those that the deltas so far make up, whatever the order of the deltas of
different calls. -/
theorem getElem?_mergeAll (tcs : List StreamToolCallDelta) (i : ℕ) :
    (tcs.foldl mergeToolCallDelta [])[i]? =
      if ∃ tc ∈ tcs, i ≤ tc.index then some (sentCall tcs i) else none := by
  induction tcs using List.reverseRecOn with
  | nil => simp
  | append_singleton tcs tc ih =>
    have hdefault : ((tcs.foldl mergeToolCallDelta [])[i]?).getD freshCall = sentCall tcs i := by
      rw [ih]
      split
      · rfl
      · next h =>
        rw [sentCall_of_none fun tc htc => ?_]
        · rfl
        · exact Nat.lt_of_not_le fun hle => h ⟨tc, htc, hle⟩
    have hlen : i < (tcs.foldl mergeToolCallDelta []).length ↔ ∃ tc ∈ tcs, i ≤ tc.index := by
      rw [← not_iff_not, Nat.not_lt, ← List.getElem?_eq_none_iff, ih]
      split <;> simp [*]
    rw [foldl_append, foldl_cons, foldl_nil, getElem?_mergeToolCallDelta, hdefault,
      sentCall_concat]
    simp only [hlen]
    have hexists : (∃ t ∈ tcs ++ [tc], i ≤ t.index) ↔
        (∃ t ∈ tcs, i ≤ t.index) ∨ i < tc.index + 1 := by
      rw [Nat.lt_succ_iff]
      simp [mem_append, or_and_right, exists_or]
    by_cases hi : tc.index = i
    · rw [if_pos hi, if_pos hi, if_pos (hexists.mpr (.inr (by omega)))]
    · rw [if_neg hi, if_neg hi]
      simp only [hexists]

end Merge

section Segments

variable {out : Bool} {f : ToolCallsFrame} {closed : List Str} {opened : Option Str} {id : Str}

namespace SegmentEvent

def isSegment : SegmentEvent → Bool
  | parsingToolCalls => false
  | _ => true

/-- One segment, from its start to its end. -/
def segment (toolCallId : Str) : List SegmentEvent :=
  [turnSegmentStart toolCallId, turnSegmentEnd (ToolCallsFrame.segBefore toolCallId)]

end SegmentEvent

namespace ToolCallsFrame

/-- The segment events are whole segments, then the start of the open one; only a receiver has
any. -/
structure Segmented (out : Bool) (closed : List Str) (opened : Option Str) (f : ToolCallsFrame) :
    Prop where
  isOpen : f.turnSegmentOpen = opened.map segBefore
  events : f.sent.filter SegmentEvent.isSegment =
    closed.flatMap SegmentEvent.segment ++ opened.toList.map .turnSegmentStart
  nodup : (closed ++ opened.toList).Nodup
  emitted : closed ++ opened.toList ⊆ f.turnSegmentEmittedIds
  received : opened ≠ none → out = true

theorem segmented_new (out : Bool) : Segmented out [] none new :=
  ⟨rfl, rfl, nodup_nil, nil_subset _, fun h => absurd rfl h⟩

theorem emittedIds_end (out : Bool) (f : ToolCallsFrame) :
    (f.emitTurnSegmentEndIfOpen out).turnSegmentEmittedIds = f.turnSegmentEmittedIds := by
  unfold emitTurnSegmentEndIfOpen
  cases f.turnSegmentOpen with
  | none => rfl
  | some segmentId => cases out <;> rfl

theorem Segmented.emitEnd (h : Segmented out closed opened f) :
    Segmented out (closed ++ opened.toList) none (f.emitTurnSegmentEndIfOpen out) := by
  have hids := emittedIds_end out f
  cases opened with
  | none =>
    have hsame : f.emitTurnSegmentEndIfOpen out = f := by
      rw [emitTurnSegmentEndIfOpen, h.isOpen]
      rfl
    rw [hsame, toList_none, append_nil]
    exact h
  | some id =>
    obtain rfl := h.received (some_ne_none id)
    have hend : f.emitTurnSegmentEndIfOpen true =
        { f with turnSegmentOpen := none, sent := f.sent ++ [.turnSegmentEnd (segBefore id)] } := by
      rw [emitTurnSegmentEndIfOpen, h.isOpen]
      rfl
    constructor
    · rw [hend]
      rfl
    · rw [hend, filter_append, h.events]
      simp [SegmentEvent.segment, SegmentEvent.isSegment]
    · simpa using h.nodup
    · rw [hids]
      simpa using h.emitted
    · exact fun hne => absurd rfl hne

theorem Segmented.emitStart (h : Segmented out closed opened f) (id : Str) :
    ∃ closed' opened', Segmented out closed' opened'
      (f.emitTurnSegmentStartForToolCall out id) := by
  unfold emitTurnSegmentStartForToolCall
  split
  · exact ⟨closed, opened, h⟩
  · next hnew =>
    simp only [Bool.or_eq_true, not_or, contains_iff_mem] at hnew
    cases out with
    | false =>
      refine ⟨closed, opened, h.isOpen, h.events, h.nodup, ?_, h.received⟩
      exact subset_append_of_subset_left _ h.emitted
    | true =>
      have hend := h.emitEnd
      have hfresh : id ∉ closed ++ opened.toList := fun hid => hnew.2 (h.emitted hid)
      refine ⟨closed ++ opened.toList, some id, rfl, ?_, ?_, ?_, fun _ => rfl⟩
      · have hevents := hend.events
        simp only [toList_none, map_nil, append_nil] at hevents
        simp [send, filter_append, hevents, SegmentEvent.isSegment]
      · rw [toList_some]
        exact nodup_append.mpr ⟨h.nodup, nodup_singleton _, fun a ha b hb => by
          rintro rfl
          exact hfresh (mem_singleton.mp hb ▸ ha)⟩
      · intro a ha
        obtain ha | ha := mem_append.mp ha
        · exact mem_append_left _ (h.emitted ha)
        · exact mem_append_right _ ha

theorem Segmented.emitStarts (ids : List Str) (h : Segmented out closed opened f) :
    ∃ closed' opened', Segmented out closed' opened'
      (ids.foldl (emitTurnSegmentStartForToolCall out) f) := by
  induction ids generalizing f closed opened with
  | nil => exact ⟨closed, opened, h⟩
  | cons id ids ih =>
    obtain ⟨closed', opened', h'⟩ := h.emitStart id
    exact ih h'

theorem Segmented.notify (tcs : List StreamToolCallDelta) (h : Segmented out closed opened f) :
    Segmented out closed opened (f.notifyParsing out tcs) := by
  unfold notifyParsing
  split
  · cases out with
    | false => exact ⟨h.isOpen, h.events, h.nodup, h.emitted, h.received⟩
    | true =>
      refine ⟨h.isOpen, ?_, h.nodup, h.emitted, h.received⟩
      simp [send, filter_append, h.events, SegmentEvent.isSegment]
  · exact h

theorem Segmented.ingest (delta : StreamDelta) (h : Segmented out closed opened f) :
    ∃ closed' opened', Segmented out closed' opened' (f.ingestSseToolCallsFromDelta out delta) := by
  unfold ingestSseToolCallsFromDelta
  cases delta.toolCalls with
  | none => exact ⟨closed, opened, h⟩
  | some tcs =>
    have hn := h.notify tcs
    exact Segmented.emitStarts _ ⟨hn.isOpen, hn.events, hn.nodup, hn.emitted, hn.received⟩

theorem segmented_run (out : Bool) (deltas : List StreamDelta) (h : Segmented out closed opened f) :
    ∃ closed' opened', Segmented out closed' opened'
      (deltas.foldl (ingestSseToolCallsFromDelta out) f) := by
  induction deltas generalizing f closed opened with
  | nil => exact ⟨closed, opened, h⟩
  | cons delta deltas ih =>
    obtain ⟨closed', opened', h'⟩ := h.ingest delta
    exact ih h'

end ToolCallsFrame

end Segments

section Stream

variable {out : Bool} {f : ToolCallsFrame}

namespace ToolCallsFrame

theorem toolCallsAcc_end (out : Bool) (f : ToolCallsFrame) :
    (f.emitTurnSegmentEndIfOpen out).toolCallsAcc = f.toolCallsAcc := by
  unfold emitTurnSegmentEndIfOpen
  cases f.turnSegmentOpen with
  | none => rfl
  | some segmentId => cases out <;> rfl

theorem toolCallsAcc_start (out : Bool) (f : ToolCallsFrame) (id : Str) :
    (f.emitTurnSegmentStartForToolCall out id).toolCallsAcc = f.toolCallsAcc := by
  unfold emitTurnSegmentStartForToolCall
  split
  · rfl
  · cases out with
    | false => rfl
    | true => exact toolCallsAcc_end true f

theorem toolCallsAcc_starts (out : Bool) (ids : List Str) (f : ToolCallsFrame) :
    (ids.foldl (emitTurnSegmentStartForToolCall out) f).toolCallsAcc = f.toolCallsAcc := by
  induction ids generalizing f with
  | nil => rfl
  | cons id ids ih => rw [foldl_cons, ih, toolCallsAcc_start]

theorem toolCallsAcc_notify (out : Bool) (f : ToolCallsFrame) (tcs : List StreamToolCallDelta) :
    (f.notifyParsing out tcs).toolCallsAcc = f.toolCallsAcc := by
  unfold notifyParsing
  split
  · cases out <;> rfl
  · rfl

/-- The events leave the calls to the merge. -/
theorem toolCallsAcc_ingest (out : Bool) (f : ToolCallsFrame) (delta : StreamDelta) :
    (f.ingestSseToolCallsFromDelta out delta).toolCallsAcc =
      (delta.toolCalls.getD []).foldl mergeToolCallDelta f.toolCallsAcc := by
  unfold ingestSseToolCallsFromDelta
  cases delta.toolCalls with
  | none => rfl
  | some tcs =>
    rw [toolCallsAcc_starts, getD_some]
    change tcs.foldl mergeToolCallDelta (f.notifyParsing out tcs).toolCallsAcc = _
    rw [toolCallsAcc_notify]

theorem toolCallsAcc_run (out : Bool) (chunks : List (StreamChunk U)) (f : ToolCallsFrame) :
    ((chunks.filterMap StreamChunk.delta?).foldl (ingestSseToolCallsFromDelta out)
        f).toolCallsAcc =
      (chunks.flatMap StreamChunk.toolCallDeltas).foldl mergeToolCallDelta f.toolCallsAcc := by
  induction chunks generalizing f with
  | nil => rfl
  | cons c chunks ih =>
    rw [filterMap_cons, flatMap_cons, foldl_append, StreamChunk.toolCallDeltas]
    cases c.delta? with
    | none => exact ih f
    | some delta =>
      rw [foldl_cons, ih, toolCallsAcc_ingest]
      rfl

end ToolCallsFrame

theorem toolCallsAcc_details (es : List (ℕ × JsonValue)) (s : SseConsumeScratch U) :
    (es.foldl SseConsumeScratch.accumulateDetail s).accum.toolCallsAcc = s.accum.toolCallsAcc := by
  induction es generalizing s with
  | nil => rfl
  | cons e es ih =>
    rw [foldl_cons, ih, SseConsumeScratch.accumulateDetail]
    split <;> rfl

theorem toolCallsAcc_ingestReasoning (s : SseConsumeScratch U) (d : StreamDelta) :
    (s.ingestReasoning d).accum.toolCallsAcc = s.accum.toolCallsAcc := by
  unfold SseConsumeScratch.ingestReasoning
  cases hdetails : (d.reasoningDetails.getD []).isEmpty with
  | true => cases d.reasoningContent <;> simp [hdetails, SseConsumeScratch.pushReasoning]
  | false =>
    have hkept := fun snaps : List Str => toolCallsAcc_details
      ((List.range (d.reasoningDetails.getD []).length).zip (d.reasoningDetails.getD []))
      { s with minimaxReasoningSnaps := snaps }
    cases d.reasoningContent <;> simp [hdetails,
      SseConsumeScratch.accumulateMinimaxReasoningDetails, hkept]

/-- The parser of the whole reply merges the same deltas. -/
theorem toolCallsAcc_ingestChunk (s : SseConsumeScratch U) (c : StreamChunk U) :
    (s.ingestChunk c).accum.toolCallsAcc =
      c.toolCallDeltas.foldl mergeToolCallDelta s.accum.toolCallsAcc := by
  unfold SseConsumeScratch.ingestChunk StreamChunk.toolCallDeltas StreamChunk.delta?
  cases (c.choices.getD []).head? with
  | none => cases c.usage <;> rfl
  | some choice =>
    have hfinish : (s.applyFinishReason choice).accum.toolCallsAcc = s.accum.toolCallsAcc := by
      unfold SseConsumeScratch.applyFinishReason
      split <;> rfl
    have hkept := toolCallsAcc_ingestReasoning (s.applyFinishReason choice) choice.delta
    rw [hfinish] at hkept
    rw [← hkept]
    cases c.usage <;> rfl

theorem toolCallsAcc_chunks (chunks : List (StreamChunk U)) (s : SseConsumeScratch U) :
    (chunks.foldl SseConsumeScratch.ingestChunk s).accum.toolCallsAcc =
      (chunks.flatMap StreamChunk.toolCallDeltas).foldl mergeToolCallDelta
        s.accum.toolCallsAcc := by
  induction chunks generalizing s with
  | nil => rfl
  | cons c chunks ih =>
    rw [foldl_cons, ih, toolCallsAcc_ingestChunk, flatMap_cons, foldl_append]

theorem getElem?_toolCalls (serde : ToolJson) (acc : List ToolCallAcc) (i : ℕ) :
    ((toolCallsFromSseAccum serde acc).getD [])[i]? =
      acc[i]?.map (ToolCallAcc.toolCall serde) := by
  cases acc with
  | nil => rfl
  | cons call acc => exact getElem?_map ..

/-- The calls of the message are those that the deltas of each index make up, their arguments
prepared for the tools. The segment events are whole segments, at most one for each id; only an
error of the connection can leave the last one open. -/
theorem tool_calls_and_segments (serde : ToolJson) (out : Bool) (chunks : List (StreamChunk U))
    (streamEnd : StreamEnd) :
    let deltas := chunks.flatMap StreamChunk.toolCallDeltas
    let reply := (chunks.foldl SseConsumeScratch.ingestChunk .new).accum
    (∀ i, ((toolCallsFromSseAccum serde reply.toolCallsAcc).getD [])[i]? =
      if ∃ tc ∈ deltas, i ≤ tc.index then some (ToolCallAcc.toolCall serde (sentCall deltas i))
      else none) ∧
      (consumeToolCalls out chunks streamEnd).toolCallsAcc = reply.toolCallsAcc ∧
      ∃ (ids : List Str) (opened : Option Str), (ids ++ opened.toList).Nodup ∧
        (consumeToolCalls out chunks streamEnd).sent.filter SegmentEvent.isSegment =
          ids.flatMap SegmentEvent.segment ++
            opened.toList.map SegmentEvent.turnSegmentStart ∧
        (opened = none ∨ streamEnd = .transportError) := by
  intro deltas reply
  have hacc : (consumeToolCalls out chunks .transportError).toolCallsAcc = reply.toolCallsAcc :=
    (ToolCallsFrame.toolCallsAcc_run out chunks .new).trans (toolCallsAcc_chunks chunks .new).symm
  obtain ⟨closed, opened, h⟩ := ToolCallsFrame.segmented_run out
    (chunks.filterMap StreamChunk.delta?) (ToolCallsFrame.segmented_new out)
  refine ⟨fun i => ?_, ?_, ?_⟩
  · rw [getElem?_toolCalls, toolCallsAcc_chunks]
    change ((deltas.foldl mergeToolCallDelta [])[i]?).map _ = _
    rw [getElem?_mergeAll]
    split <;> rfl
  · cases streamEnd with
    | ended => exact (ToolCallsFrame.toolCallsAcc_end out _).trans hacc
    | transportError => exact hacc
  · cases streamEnd with
    | ended =>
      have hend := h.emitEnd
      exact ⟨_, none, hend.nodup, hend.events, Or.inl rfl⟩
    | transportError => exact ⟨closed, opened, h.nodup, h.events, Or.inr rfl⟩

/-- A chunk with one delta of a call. -/
def callChunk (index : ℕ) (id : Option Str) (arguments : Str) : StreamChunk Unit :=
  ⟨some [⟨⟨none, none, none, some [⟨index, id, none, some ⟨none, some arguments⟩⟩]⟩, none⟩], none⟩

-- Two calls whose arguments arrive in turns.
example : (consumeToolCalls true [callChunk 1 (some ['b']) ['1'], callChunk 0 (some ['a']) ['2'],
      callChunk 1 (some ['b']) ['3']] .ended).sent =
    .parsingToolCalls :: [['b'], ['a']].flatMap SegmentEvent.segment := by decide

/-- A JSON reader for one object and its printed form. -/
def oneObjectJson : ToolJson where
  fromStr s := if s = "\x7b\"n\": 1\x7d".toList then some (.obj [("n", .num "1")]) else none
  toStr _ := "\x7b\"n\":1\x7d".toList

/-- The arguments sent in two pieces come out in the printed form of their value. -/
theorem arguments_printed_anew :
    let chunks := [callChunk 0 (some ['a']) "\x7b\"n\":".toList, callChunk 0 none " 1\x7d".toList]
    (sentCall (chunks.flatMap StreamChunk.toolCallDeltas) 0).2.2.2 =
        "\x7b\"n\": 1\x7d".toList ∧
      toolCallsFromSseAccum oneObjectJson
          (chunks.foldl SseConsumeScratch.ingestChunk .new).accum.toolCallsAcc =
        some [⟨"a", "function", ⟨"", "\x7b\"n\":1\x7d"⟩⟩] := by
  decide +kernel

end Stream
end CrabMate
