import CrabMate.Lib.Json
import CrabMate.Lib.Utf8

/-! Consuming the event stream of the model endpoint: bytes are buffered, complete lines are read
as they appear, and their `data` payloads are accumulated into the reply. Sending the pieces on
and cancelling are left out. -/
namespace CrabMate

open RustStr (Str)

/-! The parsed chunk of a payload. -/

structure StreamFunctionDelta where
  name : Option Str
  arguments : Option Str

structure StreamToolCallDelta where
  index : ℕ
  id : Option Str
  typ : Option Str
  function : Option StreamFunctionDelta

structure StreamDelta where
  content : Option Str
  reasoningContent : Option Str
  reasoningDetails : Option (List JsonValue)
  toolCalls : Option (List StreamToolCallDelta)

structure StreamChoice where
  delta : StreamDelta
  finishReason : Option Str

structure StreamChunk (U : Type) where
  choices : Option (List StreamChoice)
  usage : Option U

/-! The reply so far. -/

/-- A tool call: id, type, name and arguments. -/
abbrev ToolCallAcc := Str × Str × Str × Str

structure SseStreamAccum (U : Type) where
  reasoningAcc : Str
  contentAcc : Str
  toolCallsAcc : List ToolCallAcc
  finishReason : Str
  usage : Option U
  streamDone : Bool
  deriving DecidableEq

structure SseConsumeScratch (U : Type) where
  accum : SseStreamAccum U
  minimaxReasoningSnaps : List Str

variable {U : Type}

def SseConsumeScratch.new : SseConsumeScratch U := ⟨⟨[], [], [], [], none, false⟩, []⟩

namespace SseConsumeScratch

/-- A piece that repeats what there is already adds only what follows it. -/
def newFragment (acc s : Str) : Str := if RustStr.startsWith acc s then s.drop acc.length else s

def pushReasoning (s : SseConsumeScratch U) (fragment : Str) : SseConsumeScratch U :=
  { s with accum := { s.accum with reasoningAcc := s.accum.reasoningAcc ++ fragment } }

/-- One entry of `reasoning_details`, with its position. -/
def accumulateDetail (s : SseConsumeScratch U) (detail : ℕ × JsonValue) : SseConsumeScratch U :=
  match (detail.2.get? "text").bind JsonValue.asStr? with
  | none => s
  | some text =>
    let fragment := newFragment (s.minimaxReasoningSnaps.getD detail.1 []) text.toList
    let pushed := s.pushReasoning fragment
    { pushed with minimaxReasoningSnaps := s.minimaxReasoningSnaps.set detail.1 text.toList }

def accumulateMinimaxReasoningDetails (s : SseConsumeScratch U) (details : List JsonValue) :
    SseConsumeScratch U :=
  let snaps := s.minimaxReasoningSnaps ++
    List.replicate (details.length - s.minimaxReasoningSnaps.length) []
  ((List.range details.length).zip details).foldl accumulateDetail
    { s with minimaxReasoningSnaps := snaps }

def ingestReasoning (s : SseConsumeScratch U) (delta : StreamDelta) : SseConsumeScratch U :=
  let details := delta.reasoningDetails.getD []
  let s :=
    match delta.reasoningContent with
    | some text =>
      if details.isEmpty then s.pushReasoning (newFragment s.accum.reasoningAcc text) else s
    | none => s
  if details.isEmpty then s else s.accumulateMinimaxReasoningDetails details

def ingestContent (s : SseConsumeScratch U) (delta : StreamDelta) : SseConsumeScratch U :=
  { s with accum := { s.accum with contentAcc := s.accum.contentAcc ++ delta.content.getD [] } }

def mergeToolCallDelta (acc : List ToolCallAcc) (tc : StreamToolCallDelta) : List ToolCallAcc :=
  let acc := acc ++ List.replicate (tc.index + 1 - acc.length) ([], "function".toList, [], [])
  acc.modify tc.index fun call =>
    (tc.id.getD call.1, tc.typ.getD call.2.1,
      (tc.function.bind StreamFunctionDelta.name).getD call.2.2.1,
      call.2.2.2 ++ (tc.function.bind StreamFunctionDelta.arguments).getD [])

def ingestToolCalls (s : SseConsumeScratch U) (delta : StreamDelta) : SseConsumeScratch U :=
  { s with accum := { s.accum with
      toolCallsAcc := (delta.toolCalls.getD []).foldl mergeToolCallDelta s.accum.toolCallsAcc } }

def applyFinishReason (s : SseConsumeScratch U) (choice : StreamChoice) : SseConsumeScratch U :=
  match choice.finishReason.filter fun r => !r.isEmpty with
  | some reason => { s with accum := { s.accum with finishReason := reason } }
  | none => s

def ingestChunk (s : SseConsumeScratch U) (chunk : StreamChunk U) : SseConsumeScratch U :=
  let s :=
    match (chunk.choices.getD []).head? with
    | some choice =>
      (((s.applyFinishReason choice).ingestReasoning choice.delta).ingestContent
        choice.delta).ingestToolCalls choice.delta
    | none => s
  match chunk.usage with
  | some u => { s with accum := { s.accum with usage := some u } }
  | none => s

variable (parse : Str → Option (StreamChunk U))

/-- `parse` is the JSON reader; a payload it does not read is passed over. -/
def ingestSseDataPayload (s : SseConsumeScratch U) (payload : Str) : SseConsumeScratch U :=
  if payload.isEmpty then s
  else
    match parse payload with
    | none => s
    | some chunk => s.ingestChunk chunk

end SseConsumeScratch

/-! Lines. -/

def dataPrefix : Str := "data: ".toList

def doneSentinel : Str := "[DONE]".toList

variable (parse : Str → Option (StreamChunk U))

/-- The result says whether the line was the end of the stream. -/
def ingestOpenaiSseTrimmedLine (line : Str) (s : SseConsumeScratch U) :
    Bool × SseConsumeScratch U :=
  match (RustStr.stripPrefix? dataPrefix line).map RustStr.trim with
  | none => (false, s)
  | some payload =>
    if payload = doneSentinel then (true, s) else (false, s.ingestSseDataPayload parse payload)

/-- The bytes up to the first line feed and those after it. -/
def splitLine : List UInt8 → Option (List UInt8 × List UInt8)
  | [] => none
  | b :: rest =>
    if b = 10 then some ([], rest) else (splitLine rest).map fun p => (b :: p.1, p.2)

/-- A complete line that is not UTF-8 reads as empty. -/
def completeLineText (line : List UInt8) : Str := RustStr.trim ((Utf8.fromUtf8 line).getD [])

/-- Reads the complete lines of the buffer and keeps the rest; the length of the buffer bounds the
rounds. -/
def drainSseNewlinesFromBuf : ℕ → List UInt8 → SseConsumeScratch U →
    List UInt8 × SseConsumeScratch U
  | 0, buf, s => (buf, s)
  | rounds + 1, buf, s =>
    match splitLine buf with
    | none => (buf, s)
    | some (line, rest) =>
      let ingested := ingestOpenaiSseTrimmedLine parse (completeLineText line) s
      if ingested.1 then
        (rest, { ingested.2 with accum := { ingested.2.accum with streamDone := true } })
      else drainSseNewlinesFromBuf rounds rest ingested.2

/-- The chunks in order, until the end of the stream has been read. -/
def consumeChunks : List (List UInt8) → List UInt8 → SseConsumeScratch U →
    List UInt8 × SseConsumeScratch U
  | [], buf, s => (buf, s)
  | chunk :: chunks, buf, s =>
    let buf := buf ++ chunk
    let drained := drainSseNewlinesFromBuf parse buf.length buf s
    if drained.2.accum.streamDone then drained else consumeChunks chunks drained.1 drained.2

/-- The bytes after the last line feed. An end marker here does not count as the end. -/
def ingestSseResidualBufferIfNeeded (buf : List UInt8) (s : SseConsumeScratch U) :
    SseConsumeScratch U :=
  if s.accum.streamDone || buf.isEmpty then s
  else
    match RustStr.stripPrefix? dataPrefix (RustStr.trim (Utf8.fromUtf8Lossy buf)) with
    | none => s
    | some payload =>
      let payload := RustStr.trim payload
      if payload = doneSentinel then s else s.ingestSseDataPayload parse payload

def consumeOpenaiSseByteStream (chunks : List (List UInt8)) : SseStreamAccum U :=
  let consumed := consumeChunks parse chunks [] .new
  (ingestSseResidualBufferIfNeeded parse consumed.1 consumed.2).accum

def streamTruncatedFinishReason : Str := "stream_truncated".toList

/-- The finish reason of the reply: a stream cut off before its end counts as truncated. -/
def streamingFinishReason (acc : SseStreamAccum U) : Str :=
  if acc.finishReason.isEmpty && !acc.streamDone then streamTruncatedFinishReason
  else acc.finishReason

end CrabMate
