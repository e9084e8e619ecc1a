import CrabMate.Lib.Run

/-! One web approval session: requests taken in turn under the request guard, the client's
decisions on the network, in the handlers and in the channel, and the steps of
`run_web_tool_approval` between two suspension points. -/
namespace CrabMate

inductive CommandApprovalDecision where
  | deny
  | allowOnce
  | allowAlways
  deriving DecidableEq

inductive WebApprovalChannelMode where
  | strict
  | lenient
  deriving DecidableEq

inductive ToolApprovalWebError where
  | channelUnavailable
  | cancelled
  | timedOut
  deriving DecidableEq

/-- A decision of the client. Only `decision` travels; `answers` is the request it was meant for,
`seen` the requests that had been sent out when it was posted. -/
structure Post where
  decision : CommandApprovalDecision
  answers : ℕ
  seen : List ℕ
  deriving DecidableEq

/-- Where the request inside the guard stands: sent, in the `select!`, or about to drain the
channel and fail. -/
inductive Stage where
  | sent
  | waiting
  | failing (error : ToolApprovalWebError)
  deriving DecidableEq

structure Outstanding where
  request : ℕ
  cancelHandle : Bool
  stage : Stage
  deriving DecidableEq

/-- What `run_web_tool_approval` returned; a decision comes with the post it was received as. -/
structure Returned where
  request : ℕ
  result : Except ToolApprovalWebError (CommandApprovalDecision × Option Post)
  deriving DecidableEq

/-- `sending` are the handlers that hold a sender; `registered` says that the session's own
sender is still in the table. -/
structure ApprovalSession where
  requests : ℕ
  sentOut : List ℕ
  outstanding : Option Outstanding
  network : List Post
  sending : List Post
  channel : List Post
  registered : Bool
  cancelled : Bool
  outClosed : Bool
  returned : List Returned
  deriving DecidableEq

namespace ApprovalSession

def opened : ApprovalSession := ⟨0, [], none, [], [], [], true, false, false, []⟩

/-- The bound of the channel made by `chat_stream_open_approval_session_if_requested`. -/
def channelCapacity : ℕ := 8

def isCancelled (s : ApprovalSession) (o : Outstanding) : Bool := o.cancelHandle && s.cancelled

def drainLateDecisions : List Post → List Post
  | [] => []
  | _ :: rest => drainLateDecisions rest

/-- Every sender is gone. -/
def closed (s : ApprovalSession) : Bool := !s.registered && s.sending.isEmpty

/-- One poll of the biased `select!`: the channel, then the cancel flag when its interval has
passed, then the timer. -/
def select (s : ApprovalSession) (o : Outstanding) (flagRead elapsed : Bool) :
    Option (Except ToolApprovalWebError (CommandApprovalDecision × Option Post)) :=
  match s.channel with
  | p :: _ => some (.ok (p.decision, some p))
  | [] =>
    if s.closed then some (.ok (.deny, none))
    else if flagRead && s.isCancelled o then some (.error .cancelled)
    else if elapsed then some (.error .timedOut)
    else none

def finish (s : ApprovalSession) (request : ℕ)
    (result : Except ToolApprovalWebError (CommandApprovalDecision × Option Post)) :
    ApprovalSession :=
  { s with outstanding := none, returned := s.returned ++ [⟨request, result⟩] }

/-- The guard is free: send the request out. Only the strict mode gives up when that fails. -/
def sendRequest (s : ApprovalSession) (mode : WebApprovalChannelMode) (cancelHandle : Bool) :
    ApprovalSession :=
  let request := s.requests
  let started := { s with requests := request + 1 }
  if s.outClosed then
    if mode = .strict then started.finish request (.error .channelUnavailable)
    else { started with outstanding := some ⟨request, cancelHandle, .sent⟩ }
  else
    { started with
      sentOut := s.sentOut ++ [request]
      outstanding := some ⟨request, cancelHandle, .sent⟩ }

/-- The check for a cancelled turn that precedes the `select!`. -/
def enterWait (s : ApprovalSession) (o : Outstanding) : ApprovalSession :=
  if s.isCancelled o then { s with outstanding := some { o with stage := .failing .cancelled } }
  else { s with outstanding := some { o with stage := .waiting } }

def pollWait (s : ApprovalSession) (o : Outstanding) (flagRead elapsed : Bool) : ApprovalSession :=
  match s.select o flagRead elapsed with
  | none => s
  | some (.ok decision) => { s with channel := s.channel.tail }.finish o.request (.ok decision)
  | some (.error e) => { s with outstanding := some { o with stage := .failing e } }

end ApprovalSession

/-- `abandon` drops the future of the request, as an outer timeout does. -/
inductive ApprovalOp where
  | request (mode : WebApprovalChannelMode) (cancelHandle : Bool)
  | enter
  | poll (flagRead elapsed : Bool)
  | drain
  | abandon
  | post (decision : CommandApprovalDecision) (answers : ℕ)
  | arrive (i : ℕ)
  | deliver (i : ℕ)
  | cancel
  | unregister
  | closeOut
  deriving DecidableEq

namespace ApprovalSession

/-- A step that is not possible in a state leaves it as it is. -/
def step (s : ApprovalSession) : ApprovalOp → ApprovalSession
  | .request mode cancelHandle =>
    match s.outstanding with
    | none => s.sendRequest mode cancelHandle
    | some _ => s
  | .enter =>
    match s.outstanding with
    | some o => if o.stage = .sent then s.enterWait o else s
    | none => s
  | .poll flagRead elapsed =>
    match s.outstanding with
    | some o => if o.stage = .waiting then s.pollWait o flagRead elapsed else s
    | none => s
  | .drain =>
    match s.outstanding with
    | some ⟨request, _, .failing e⟩ =>
      { s with channel := drainLateDecisions s.channel }.finish request (.error e)
    | _ => s
  | .abandon => { s with outstanding := none }
  | .post decision answers =>
    { s with network := s.network ++ [⟨decision, answers, s.sentOut⟩] }
  | .arrive i =>
    match s.network[i]? with
    | none => s
    | some p =>
      -- a handler that does not find the session answers with an error
      { s with
        network := s.network.eraseIdx i
        sending := if s.registered then s.sending ++ [p] else s.sending }
  | .deliver i =>
    match s.sending[i]? with
    | none => s
    | some p =>
      if s.channel.length < channelCapacity then
        { s with sending := s.sending.eraseIdx i, channel := s.channel ++ [p] }
      else s
  | .cancel => { s with cancelled := true }
  | .unregister => { s with registered := false }
  | .closeOut => { s with outClosed := true }

end ApprovalSession
end CrabMate
