import CrabMate.Lib.Run
import CrabMate.Lib.Str

/-! The canonical layout of a turn and its reducer: commentary streams into segments, and a tool
call takes the commentary that is anchored at it onto its step. Events may arrive in another order
than they are shown in. -/
namespace CrabMate.Layout
open RustStr

section Model

inductive SegmentKind where
  | commentary
  | answer
  deriving DecidableEq

structure TurnSegment where
  segmentId : String
  kind : SegmentKind
  beforeToolCallId : Option String
  text : String
  isOpen : Bool
  deriving DecidableEq

structure ToolStep where
  toolCallId : String
  name : String
  summary : String
  beforeCommentary : Option String
  deriving DecidableEq

structure Turn where
  preToolTimeline : List String
  steps : List ToolStep
  segments : List TurnSegment
  toolPhaseOpen : Bool
  deriving DecidableEq

def Turn.empty : Turn := ⟨[], [], [], false⟩

inductive TurnEvent where
  | timelineAssistant (text : String)
  | segmentStart (segmentId : String) (kind : SegmentKind) (beforeToolCallId : Option String)
  | segmentDelta (segmentId delta : String)
  | segmentEnd (segmentId : String)
  | toolCall (toolCallId name summary : String)
  | toolPhaseEnd

def pendingStreamCommentarySegmentId : String := "pending-stream-commentary"

def segBeforeLead : String := "seg-before-"

/-- The id of the segment that keeps commentary for a tool call without a step. -/
def pendingBefore (toolCallId : String) : String := "pending-before-" ++ toolCallId

/-- The tool call a `seg-before-` segment id names. -/
def anchorOfId (segmentId : String) : Option String :=
  (stripPrefix? segBeforeLead.toList segmentId.toList).map String.ofList

def isBlank (s : String) : Bool := (trim s.toList).isEmpty

namespace Turn

def segmentById (turn : Turn) (id : String) : Option TurnSegment :=
  turn.segments.find? fun s => s.segmentId == id

def stepByCallId (turn : Turn) (id : String) : Option ToolStep :=
  turn.steps.find? fun s => s.toolCallId == id

/-- Writes to the segment `segment_by_id_mut` finds. -/
def updateSegment (turn : Turn) (id : String) (f : TurnSegment → TurnSegment) : Turn :=
  { turn with segments := turn.segments.replaceF fun s =>
      if s.segmentId = id then some (f s) else none }

/-- Writes to the step `step_by_call_id_mut` finds. -/
def updateStep (turn : Turn) (id : String) (f : ToolStep → ToolStep) : Turn :=
  { turn with steps := turn.steps.replaceF fun s => if s.toolCallId = id then some (f s) else none }

def pushSegment (turn : Turn) (seg : TurnSegment) : Turn :=
  { turn with segments := turn.segments ++ [seg] }

end Turn

end Model

section Reduce

/-- Adds the text to the commentary of the step. -/
def ToolStep.addCommentary (text : String) (step : ToolStep) : ToolStep :=
  { step with beforeCommentary := some (step.beforeCommentary.elim text (· ++ text)) }

def attachClosedCommentaryToStep (turn : Turn) (toolCallId text : String) : Turn :=
  if isBlank text then turn
  else if (turn.stepByCallId toolCallId).isSome then
    turn.updateStep toolCallId (.addCommentary text)
  else turn.pushSegment ⟨pendingBefore toolCallId, .commentary, some toolCallId, text, false⟩

/-- Closed commentary with an anchor and something to show. -/
def TurnSegment.flushable (s : TurnSegment) : Bool :=
  !s.isOpen && s.kind = .commentary && s.beforeToolCallId.isSome && !isBlank s.text

def attachSegment (turn : Turn) (seg : TurnSegment) : Turn :=
  match seg.beforeToolCallId with
  | some toolCallId => attachClosedCommentaryToStep turn toolCallId seg.text
  | none => turn

def flushSegmentsOntoSteps (turn : Turn) : Turn :=
  (turn.segments.filter TurnSegment.flushable).foldl attachSegment
    { turn with segments := turn.segments.filter fun s => !s.flushable }

/-- The pending stream segment, when it has something to show. -/
def TurnSegment.isPendingStream (s : TurnSegment) : Bool :=
  s.segmentId = pendingStreamCommentarySegmentId && !isBlank s.text

def takePendingStreamCommentary (turn : Turn) : Turn × Option String :=
  ({ turn with segments := turn.segments.eraseP TurnSegment.isPendingStream },
    (turn.segments.find? TurnSegment.isPendingStream).map TurnSegment.text)

def reduceSegmentEnd (turn : Turn) (segmentId : String) : Turn :=
  match turn.segmentById segmentId with
  | none => turn
  | some found =>
    let rest := { turn with segments := turn.segments.eraseP fun s => s.segmentId == segmentId }
    let seg := { found with isOpen := false }
    match seg.kind with
    | .answer => rest
    | .commentary =>
      if seg.segmentId = pendingStreamCommentarySegmentId then rest.pushSegment seg
      else
        match seg.beforeToolCallId with
        | some toolCallId => attachClosedCommentaryToStep rest toolCallId seg.text
        | none => rest.pushSegment seg

def TurnSegment.openCommentary (s : TurnSegment) : Bool := s.isOpen && s.kind = .commentary

def closeOpenCommentaryExcept (turn : Turn) (exceptId : Option String) : Turn :=
  ((turn.segments.filter fun s => s.openCommentary && exceptId != some s.segmentId).map
    TurnSegment.segmentId).foldl reduceSegmentEnd turn

def reduceSegmentDelta (turn : Turn) (segmentId delta : String) : Turn :=
  if delta = "" then turn
  else if (turn.segmentById segmentId).isSome then
    turn.updateSegment segmentId fun s => { s with text := s.text ++ delta }
  else
    match anchorOfId segmentId with
    | some toolCallId => attachClosedCommentaryToStep turn toolCallId delta
    | none => turn

/-- The commentary an earlier delta left on the step of the anchor moves into the new segment. -/
def takeStepCommentary (turn : Turn) (beforeToolCallId : Option String) : Turn × String :=
  match beforeToolCallId with
  | none => (turn, "")
  | some toolCallId =>
    (turn.updateStep toolCallId fun s => { s with beforeCommentary := none },
      ((turn.stepByCallId toolCallId).bind ToolStep.beforeCommentary).getD "")

def reduceSegmentStart (turn : Turn) (segmentId : String) (kind : SegmentKind)
    (beforeToolCallId : Option String) : Turn :=
  match turn.segmentById segmentId with
  | some _ =>
    closeOpenCommentaryExcept (turn.updateSegment segmentId fun s => { s with isOpen := true })
      (some segmentId)
  | none =>
    let turn := closeOpenCommentaryExcept turn none
    let (turn, initialText) := takeStepCommentary turn beforeToolCallId
    let (turn, pending) :=
      if beforeToolCallId.isSome then takePendingStreamCommentary turn else (turn, none)
    turn.pushSegment ⟨segmentId, kind, beforeToolCallId, pending.getD "" ++ initialText, true⟩

def closeOpenSegmentIfPresent (turn : Turn) (segmentId : String) : Turn :=
  if turn.segments.any fun s => s.segmentId == segmentId && s.isOpen then
    reduceSegmentEnd turn segmentId
  else turn

/-- A segment the tool call takes onto its step. -/
def TurnSegment.goesTo (toolCallId : String) (s : TurnSegment) : Bool :=
  s.kind = .commentary && s.beforeToolCallId = some toolCallId && !isBlank s.text

def appendText (commentary : Option String) (text : String) : Option String :=
  some (commentary.elim text (· ++ text))

def reduceToolCall (turn : Turn) (toolCallId name summary : String) : Turn :=
  let turn := { turn with toolPhaseOpen := true }
  let turn := closeOpenSegmentIfPresent turn pendingStreamCommentarySegmentId
  let turn := flushSegmentsOntoSteps turn
  let (turn, pendingStream) := takePendingStreamCommentary turn
  let beforeCommentary := pendingStream.filter fun t => !isBlank t
  { turn with
    segments := turn.segments.filter fun s => !s.goesTo toolCallId
    steps := turn.steps ++ [⟨toolCallId, name, summary,
      ((turn.segments.filter (·.goesTo toolCallId)).map TurnSegment.text).foldl appendText
        beforeCommentary⟩] }

def reduceEvent (turn : Turn) : TurnEvent → Turn
  | .timelineAssistant text =>
    if isBlank text then turn else { turn with preToolTimeline := turn.preToolTimeline ++ [text] }
  | .segmentStart segmentId kind beforeToolCallId =>
    reduceSegmentStart turn segmentId kind beforeToolCallId
  | .segmentDelta segmentId delta => reduceSegmentDelta turn segmentId delta
  | .segmentEnd segmentId => reduceSegmentEnd turn segmentId
  | .toolCall toolCallId name summary => reduceToolCall turn toolCallId name summary
  | .toolPhaseEnd =>
    flushSegmentsOntoSteps { closeOpenCommentaryExcept turn none with toolPhaseOpen := false }

/-- The turn after the events, from an empty one. -/
def reduceAll (events : List TurnEvent) : Turn := Run.run reduceEvent .empty events

end Reduce
end CrabMate.Layout
