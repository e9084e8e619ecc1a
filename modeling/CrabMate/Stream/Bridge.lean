import CrabMate.Lib.Run
import CrabMate.Stream.Hub

/-! The end of a streaming job. The job task sends lines, drops its sender and removes the job
from the hub; the bridge task publishes each line and forwards the numbered event to the HTTP
channel. Publishing a line of a removed job discards it. -/
namespace CrabMate
open Run List

/-- Where the bridge stands: waiting for a line, about to look the job up, holding its entry, or
waiting for room in the HTTP channel. -/
inductive BridgeStage where
  | idle
  | received (line : String)
  | found (line : String)
  | forwarding (event : SseEvent)
  deriving DecidableEq

/-- `sent` and `published` record what the job sent and what the hub numbered. -/
structure StreamJob where
  registered : Bool
  entry : StreamEntry
  ended : Bool
  sseQueue : List String
  bridge : BridgeStage
  connected : Bool
  httpQueue : List SseEvent
  client : List SseEvent
  sent : List String
  published : List SseEvent
  deriving DecidableEq

inductive JobOp where
  | send (line : String)
  | drop
  | remove
  | recv
  | lookup
  | publish
  | forward
  | clientRecv
  | disconnect
  deriving DecidableEq

namespace StreamJob

/-- The bound of `sse_tx` and of the HTTP channel. -/
def channelCapacity : ℕ := 1024

/-- The state after `register_job` and the start of the bridge. -/
def started : StreamJob := ⟨true, .new, false, [], .idle, true, [], [], [], []⟩

/-- One step of one task; a step that is not possible leaves the state as it is. -/
def step (s : StreamJob) : JobOp → StreamJob
  | .send line =>
    if !s.ended && s.sseQueue.length < channelCapacity then
      { s with sseQueue := s.sseQueue ++ [line], sent := s.sent ++ [line] }
    else s
  | .drop => { s with ended := true }
  | .remove => if s.ended then { s with registered := false } else s
  | .recv =>
    match s.bridge, s.sseQueue with
    | .idle, line :: rest => { s with bridge := .received line, sseQueue := rest }
    | _, _ => s
  | .lookup =>
    match s.bridge with
    | .received line => { s with bridge := if s.registered then .found line else .idle }
    | _ => s
  | .publish =>
    match s.bridge with
    | .found line =>
      let (seq, entry) := s.entry.takeSeq
      { s with
        entry := entry.pushRing (seq, line)
        published := s.published ++ [(seq, line)]
        bridge := .forwarding (seq, line) }
    | _ => s
  | .forward =>
    match s.bridge with
    | .forwarding event =>
      if !s.connected then { s with bridge := .idle }
      else if s.httpQueue.length < channelCapacity then
        { s with bridge := .idle, httpQueue := s.httpQueue ++ [event] }
      else s
    | _ => s
  | .clientRecv =>
    match s.httpQueue with
    | event :: rest =>
      if s.connected then { s with httpQueue := rest, client := s.client ++ [event] } else s
    | [] => s
  | .disconnect => { s with connected := false }

/-- The lines the bridge has not published yet. -/
def pending (s : StreamJob) : List String :=
  (match s.bridge with
    | .received line | .found line => [line]
    | _ => []) ++ s.sseQueue

/-- The event the bridge is forwarding. -/
def inHand (s : StreamJob) : List SseEvent :=
  match s.bridge with
  | .forwarding event => [event]
  | _ => []

/-- Nothing the job sent is lost: it is published under consecutive numbers or still pending, and
a connected client gets every published event once and in order. -/
structure Delivers (s : StreamJob) : Prop where
  lines : s.published.map Prod.snd ++ s.pending = s.sent
  numbers : Consecutive s.published
  forwarded : s.connected → s.client ++ s.httpQueue ++ s.inHand = s.published

/-- The lines that the bridge has not looked the job up for. -/
def unresolved (s : StreamJob) : List String :=
  (match s.bridge with
    | .received line => [line]
    | _ => []) ++ s.sseQueue

/-- The job is removed when the bridge has looked it up for every line. -/
def RemovesLate (s : StreamJob) : JobOp → Prop
  | .remove => s.ended → s.unresolved = []
  | _ => True

instance (s : StreamJob) (op : JobOp) : Decidable (s.RemovesLate op) := by
  unfold RemovesLate
  split <;> infer_instance

/-- What holds along the runs that remove late. -/
structure Good (s : StreamJob) : Prop where
  delivers : s.Delivers
  seq : s.entry.nextSeq = s.published.length
  resolved : s.registered = false → s.ended ∧ s.unresolved = []

theorem started_good : started.Good := ⟨⟨rfl, rfl, fun _ => rfl⟩, rfl, fun h => by cases h⟩

variable {s : StreamJob}

theorem recv_good (h : s.Good) : (s.step .recv).Good := by
  obtain ⟨⟨hlines, hnum, hfwd⟩, hseq, hres⟩ := h
  simp only [step]
  split
  · next line rest hb hq =>
    simp only [pending, inHand, unresolved, hb, hq, nil_append] at hlines hfwd hres
    exact ⟨⟨hlines, hnum, hfwd⟩, hseq, hres⟩
  · exact ⟨⟨hlines, hnum, hfwd⟩, hseq, hres⟩

/-- The lookup finds the job, since nothing was left to look up when it was removed. -/
theorem lookup_good (h : s.Good) : (s.step .lookup).Good := by
  obtain ⟨⟨hlines, hnum, hfwd⟩, hseq, hres⟩ := h
  simp only [step]
  split
  · next line hb =>
    have hreg : s.registered = true := by
      by_contra hgone
      have hnil := (hres (by simpa using hgone)).2
      simp [unresolved, hb] at hnil
    simp only [hreg, if_true]
    simp only [pending, inHand, hb] at hlines hfwd
    exact ⟨⟨hlines, hnum, hfwd⟩, hseq, fun hgone => nomatch hgone⟩
  · exact ⟨⟨hlines, hnum, hfwd⟩, hseq, hres⟩

theorem publish_good (h : s.Good) : (s.step .publish).Good := by
  obtain ⟨⟨hlines, hnum, hfwd⟩, hseq, hres⟩ := h
  simp only [step]
  split
  · next line hb =>
    simp only [pending, inHand, unresolved, hb, append_nil, nil_append] at hlines hfwd hres
    simp only [StreamEntry.takeSeq, hseq]
    refine ⟨⟨?_, hnum.snoc line, fun hc => ?_⟩, ?_, hres⟩
    · simpa [pending] using hlines
    · show s.client ++ s.httpQueue ++ _ = _
      rw [hfwd hc]
      rfl
    · simp [StreamEntry.pushRing]
  · exact ⟨⟨hlines, hnum, hfwd⟩, hseq, hres⟩

theorem forward_good (h : s.Good) : (s.step .forward).Good := by
  obtain ⟨⟨hlines, hnum, hfwd⟩, hseq, hres⟩ := h
  simp only [step]
  split
  · next event hb =>
    simp only [pending, inHand, unresolved, hb] at hlines hfwd hres
    split
    · next hgone =>
      refine ⟨⟨hlines, hnum, fun hc => ?_⟩, hseq, hres⟩
      rw [hc] at hgone
      cases hgone
    · split
      · refine ⟨⟨hlines, hnum, fun hc => ?_⟩, hseq, hres⟩
        show s.client ++ (s.httpQueue ++ [event]) ++ [] = _
        rw [append_nil, ← append_assoc, hfwd hc]
      · exact ⟨⟨by simpa [pending, hb] using hlines, hnum, by simpa [inHand, hb] using hfwd⟩, hseq,
          by simpa [unresolved, hb] using hres⟩
  · exact ⟨⟨hlines, hnum, hfwd⟩, hseq, hres⟩

theorem step_good (h : s.Good) (op : JobOp) (hop : s.RemovesLate op) : (s.step op).Good := by
  cases op with
  | recv => exact recv_good h
  | lookup => exact lookup_good h
  | publish => exact publish_good h
  | forward => exact forward_good h
  | send line =>
    obtain ⟨⟨hlines, hnum, hfwd⟩, hseq, hres⟩ := h
    simp only [step]
    split
    · next hopen =>
      refine ⟨⟨?_, hnum, hfwd⟩, hseq, fun hgone => ?_⟩
      · show _ ++ (_ ++ (s.sseQueue ++ [line])) = s.sent ++ [line]
        rw [← hlines, pending]
        simp only [append_assoc]
      · have hended := (hres hgone).1
        simp [hended] at hopen
    · exact ⟨⟨hlines, hnum, hfwd⟩, hseq, hres⟩
  | drop =>
    obtain ⟨⟨hlines, hnum, hfwd⟩, hseq, hres⟩ := h
    exact ⟨⟨hlines, hnum, hfwd⟩, hseq, fun hgone => ⟨rfl, (hres hgone).2⟩⟩
  | remove =>
    obtain ⟨⟨hlines, hnum, hfwd⟩, hseq, hres⟩ := h
    simp only [step]
    split
    · next hended => exact ⟨⟨hlines, hnum, hfwd⟩, hseq, fun _ => ⟨hended, hop hended⟩⟩
    · exact ⟨⟨hlines, hnum, hfwd⟩, hseq, hres⟩
  | clientRecv =>
    obtain ⟨⟨hlines, hnum, hfwd⟩, hseq, hres⟩ := h
    simp only [step]
    split
    · next event rest hq =>
      split
      · refine ⟨⟨hlines, hnum, fun hc => ?_⟩, hseq, hres⟩
        rw [← hfwd hc, hq]
        simp [inHand]
      · exact ⟨⟨hlines, hnum, hfwd⟩, hseq, hres⟩
    · exact ⟨⟨hlines, hnum, hfwd⟩, hseq, hres⟩
  | disconnect =>
    obtain ⟨⟨hlines, hnum, -⟩, hseq, hres⟩ := h
    exact ⟨⟨hlines, hnum, fun hc => nomatch hc⟩, hseq, hres⟩

theorem run_good {ops : List JobOp} (h : AllOk step RemovesLate started ops) :
    (run step started ops).Good := by
  have hstep : ∀ s op, Good s → RemovesLate s op → Good (step s op) :=
    fun _ op hs hop => step_good hs op hop
  exact invariant hstep started_good h

section Loss

/-- The line whose entry the bridge holds; it will be published. -/
def resolvedLines (s : StreamJob) : List String :=
  match s.bridge with
  | .found line => [line]
  | _ => []

theorem pending_eq (s : StreamJob) : s.pending = s.resolvedLines ++ s.unresolved := by
  unfold pending resolvedLines unresolved
  cases s.bridge <;> rfl

/-- The job is gone and a line can no longer be published. -/
structure Behind (s : StreamJob) : Prop where
  gone : s.registered = false
  missing : s.published.length + s.resolvedLines.length < s.sent.length

theorem step_behind (h : s.Behind) (op : JobOp) : (s.step op).Behind := by
  obtain ⟨hgone, hmissing⟩ := h
  cases op with
  | send line =>
    simp only [step]
    split
    · refine ⟨hgone, ?_⟩
      show _ < (s.sent ++ [line]).length
      rw [length_append]
      exact Nat.lt_add_right _ hmissing
    · exact ⟨hgone, hmissing⟩
  | drop => exact ⟨hgone, hmissing⟩
  | remove =>
    simp only [step]
    split
    · exact ⟨rfl, hmissing⟩
    · exact ⟨hgone, hmissing⟩
  | recv =>
    simp only [step]
    split
    · next hb _ =>
      simp only [resolvedLines, hb] at hmissing
      exact ⟨hgone, hmissing⟩
    · exact ⟨hgone, hmissing⟩
  | lookup =>
    simp only [step]
    split
    · next hb =>
      simp only [resolvedLines, hb] at hmissing
      simp only [hgone, Bool.false_eq_true, if_false]
      exact ⟨rfl, hmissing⟩
    · exact ⟨hgone, hmissing⟩
  | publish =>
    simp only [step]
    split
    · next line hb =>
      refine ⟨hgone, ?_⟩
      simp only [resolvedLines, hb, length_append, length_singleton, length_nil,
        Nat.add_zero] at hmissing ⊢
      exact hmissing
    · exact ⟨hgone, hmissing⟩
  | forward =>
    simp only [step]
    split
    · next hb =>
      simp only [resolvedLines, hb] at hmissing
      split
      · exact ⟨hgone, hmissing⟩
      · split
        · exact ⟨hgone, hmissing⟩
        · exact ⟨hgone, by simpa [resolvedLines, hb] using hmissing⟩
    · exact ⟨hgone, hmissing⟩
  | clientRecv =>
    simp only [step]
    split
    · split
      · exact ⟨hgone, hmissing⟩
      · exact ⟨hgone, hmissing⟩
    · exact ⟨hgone, hmissing⟩
  | disconnect => exact ⟨hgone, hmissing⟩

/-- Removing the job before the bridge has looked it up for every line leaves a line behind. -/
theorem remove_behind (h : s.Good) (hearly : ¬ s.RemovesLate .remove) :
    (s.step .remove).Behind := by
  obtain ⟨hended, hne⟩ := Classical.not_imp.mp hearly
  have hlen := congrArg List.length h.delivers.lines
  rw [length_append, List.length_map, pending_eq, length_append] at hlen
  have hpos : 0 < s.unresolved.length := length_pos_iff.mpr hne
  simp only [step, hended, if_true]
  refine ⟨rfl, ?_⟩
  show s.published.length + s.resolvedLines.length < s.sent.length
  omega

end Loss

/-- The job has ended and the bridge has nothing left to do. -/
def Drained (s : StreamJob) : Prop := s.ended ∧ s.pending = []

instance (s : StreamJob) : Decidable s.Drained := by
  unfold Drained
  infer_instance

/-- Along a run that removes the job late, every line is published or pending in every state, and
a connected client gets the published events once each and in order. When the bridge of a run has
finished, this is the only way nothing was lost. -/
theorem lines_are_delivered (ops : List JobOp) :
    (AllOk step RemovesLate started ops → ∀ k, (run step started (ops.take k)).Delivers) ∧
      ((run step started ops).Drained → (run step started ops).Delivers →
        AllOk step RemovesLate started ops) := by
  constructor
  · intro h k
    rw [← take_append_drop k ops, allOk_append] at h
    exact (run_good h.1).delivers
  · intro hdrained hdelivers
    by_contra hbad
    obtain ⟨before, op, after, rfl, hbefore, hop⟩ := exists_first_bad step RemovesLate hbad
    have hremove : op = .remove := by
      cases op with
      | remove => rfl
      | _ => exact absurd trivial hop
    subst hremove
    have hstep : ∀ s op, Behind s → Behind (step s op) := fun _ op hs => step_behind hs op
    have hbehind : (run step started (before ++ .remove :: after)).Behind := by
      rw [run_append, run_cons]
      exact invariant' hstep (remove_behind (run_good hbefore) hop) after
    have hlen := congrArg List.length hdelivers.lines
    rw [hdrained.2, append_nil, List.length_map] at hlen
    have hmissing := hbehind.missing
    omega

/-- The bridge drains the channel before the job is removed; the client reads both events. -/
def lateRemoval : List JobOp :=
  [.send "delta", .recv, .lookup, .publish, .send "stream_ended", .drop, .forward, .recv, .lookup,
    .publish, .forward, .remove, .clientRecv, .clientRecv]

theorem lines_are_delivered_lateRemoval :
    AllOk step RemovesLate started lateRemoval ∧
      (run step started lateRemoval).client = [(1, "delta"), (2, "stream_ended")] ∧
      ∀ k, (run step started (lateRemoval.take k)).Delivers :=
  ⟨by decide +kernel, by decide +kernel, (lines_are_delivered lateRemoval).1 (by decide +kernel)⟩

/-- The job removes itself while its last frame is still in the channel. -/
theorem early_removal_drops_last_frame :
    ¬ ∀ ops : List JobOp, ∀ k, (run step started (ops.take k)).Delivers := by
  intro h
  have hlines := (h [.send "stream_ended", .drop, .remove, .recv, .lookup] 5).lines
  revert hlines
  decide +kernel

end StreamJob
end CrabMate
