import CrabMate.Lib.Run
import CrabMate.Stream.Hub

/-! Resuming a stream: one publisher and one reconnecting client. The client subscribes, takes the
replay of the ring, and then reads live events above the last replayed number. -/
namespace CrabMate
open Run List

/-- Where the publisher stands inside `publish`. -/
inductive PublishStage where
  | idle
  | found (payload : String)
  | numbered (event : SseEvent)
  | stored (event : SseEvent)
  deriving DecidableEq

/-- The reconnecting client: refused because the job is gone, subscribed, or reading the replay
and then the live events. `atReplay` is the number of events stored when the replay was taken. -/
inductive ResumeClient where
  | waiting
  | gone
  | subscribed (live : LiveReceiver)
  | reading (found : Bool) (atReplay : ℕ) (replay : List SseEvent) (maxReplayed : ℕ)
      (live : LiveReceiver) (received : List SseEvent)
  deriving DecidableEq

/-- `published` records every event stored in the ring. -/
structure ResumeState where
  registered : Bool
  entry : StreamEntry
  publisher : PublishStage
  client : ResumeClient
  published : List SseEvent
  deriving DecidableEq

inductive ResumeOp where
  | publish (payload : String)
  | takeSeq
  | store
  | broadcast
  | subscribe
  | replay
  | readReplay
  | readLive
  | remove
  deriving DecidableEq

namespace ResumeClient

/-- What a broadcast does to the client's receiver. -/
def send (c : ResumeClient) (e : SseEvent) : ResumeClient :=
  match c with
  | .subscribed live => .subscribed (live.send e)
  | .reading found atReplay replay maxReplayed live received =>
    .reading found atReplay replay maxReplayed (live.send e) received
  | c => c

end ResumeClient

namespace ResumeState

/-- The replay of a registered job, with the bound for the live events behind it. A job that was
removed since the subscription replays nothing. -/
def takeReplay (s : ResumeState) (afterSeq : ℕ) (live : LiveReceiver) : ResumeClient :=
  let replay := if s.registered then s.entry.replayAfter afterSeq else []
  let maxReplayed := (replay.getLast?.map Prod.fst).getD afterSeq
  .reading s.registered s.published.length replay maxReplayed live []

/-- One step of the publisher or of the client that resumes behind `afterSeq`. -/
def step (afterSeq : ℕ) (s : ResumeState) : ResumeOp → ResumeState
  | .publish payload =>
    match s.publisher with
    | .idle => if s.registered then { s with publisher := .found payload } else s
    | _ => s
  | .takeSeq =>
    match s.publisher with
    | .found payload =>
      let (seq, entry) := s.entry.takeSeq
      { s with entry := entry, publisher := .numbered (seq, payload) }
    | _ => s
  | .store =>
    match s.publisher with
    | .numbered e =>
      { s with
        entry := s.entry.pushRing e
        publisher := .stored e
        published := s.published ++ [e] }
    | _ => s
  | .broadcast =>
    match s.publisher with
    | .stored e => { s with publisher := .idle, client := s.client.send e }
    | _ => s
  | .subscribe =>
    match s.client with
    | .waiting => { s with client := if s.registered then .subscribed .new else .gone }
    | _ => s
  | .replay =>
    match s.client with
    | .subscribed live => { s with client := s.takeReplay afterSeq live }
    | _ => s
  | .readReplay =>
    match s.client with
    | .reading found atReplay (e :: replay) maxReplayed live received =>
      { s with client := .reading found atReplay replay maxReplayed live (received ++ [e]) }
    | _ => s
  | .readLive =>
    match s.client with
    | .reading found atReplay [] maxReplayed ⟨e :: queue, lost⟩ received =>
      let received := if maxReplayed < e.1 then received ++ [e] else received
      { s with client := .reading found atReplay [] maxReplayed ⟨queue, lost⟩ received }
    | _ => s
  | .remove => { s with registered := false }

def started : ResumeState := ⟨true, .new, .idle, .waiting, []⟩

/-- The event that is in the ring and not yet broadcast. -/
def inFlight (s : ResumeState) : List SseEvent :=
  match s.publisher with
  | .stored e => [e]
  | _ => []

/-- The number handed out and not yet stored. -/
def numbered (s : ResumeState) : List ℕ :=
  match s.publisher with
  | .numbered e => [e.1]
  | _ => []

/-- What the publisher keeps: consecutive numbers, and the newest events in the ring. -/
structure Numbers (s : ResumeState) : Prop where
  consecutive : Consecutive s.published
  ring : s.entry.ring = s.published.drop (s.published.length - sseResumeRingCap)
  seq : s.entry.nextSeq = s.published.length + s.numbered.length
  next : ∀ n ∈ s.numbered, n = s.published.length + 1
  flight : ∀ e ∈ s.inFlight, e ∈ s.published

/-- What the client has, what it will read of the replay and what it will let through of the live
events make up the events behind `afterSeq`. -/
def Follows (afterSeq : ℕ) (s : ResumeState) : Prop :=
  match s.client with
  | .waiting | .gone => True
  | .subscribed live => ∀ e ∈ live.queue, e ∈ s.published
  | .reading found atReplay replay maxReplayed live received =>
    found → atReplay - afterSeq ≤ sseResumeRingCap → live.lost = 0 →
      atReplay ≤ s.published.length ∧ maxReplayed = max afterSeq atReplay ∧
      received ++ replay ++ eventsAfter maxReplayed (live.queue ++ s.inFlight) =
        eventsAfter afterSeq s.published

variable {s : ResumeState} {afterSeq : ℕ}

theorem started_numbers : started.Numbers :=
  ⟨Consecutive.nil, rfl, rfl, (fun _ h => nomatch h), (fun _ h => nomatch h)⟩

/-- The steps of `publish` keep the numbers and the ring. -/
theorem step_numbers (h : s.Numbers) (op : ResumeOp) : (s.step afterSeq op).Numbers := by
  obtain ⟨hcons, hring, hseq, hnext, hflight⟩ := h
  cases op with
  | publish payload =>
    simp only [step]
    split
    · next hp =>
      split
      · simp only [numbered, inFlight, hp] at hseq hnext hflight
        exact ⟨hcons, hring, hseq, hnext, hflight⟩
      · exact ⟨hcons, hring, hseq, hnext, hflight⟩
    · exact ⟨hcons, hring, hseq, hnext, hflight⟩
  | takeSeq =>
    simp only [step]
    split
    · next payload hp =>
      simp only [numbered, inFlight, hp] at hseq hnext hflight
      have hlen : s.entry.nextSeq = s.published.length := hseq
      refine ⟨hcons, hring, ?_, ?_, hflight⟩
      · simp [StreamEntry.takeSeq, numbered, hlen]
      · simp [StreamEntry.takeSeq, numbered, hlen]
    · exact ⟨hcons, hring, hseq, hnext, hflight⟩
  | store =>
    simp only [step]
    split
    · next e hp =>
      obtain ⟨n, payload⟩ := e
      simp only [numbered, hp, mem_singleton, forall_eq] at hseq hnext
      subst hnext
      refine ⟨hcons.snoc payload, ?_, ?_, (fun _ h => nomatch h), ?_⟩
      · show trimRing (s.entry.ring ++ _) = _
        rw [trimRing_eq_drop, hring]
        exact drop_snoc_drop s.published _ sseResumeRingCap
      · simp [StreamEntry.pushRing, numbered, hseq]
      · simp [inFlight]
    · exact ⟨hcons, hring, hseq, hnext, hflight⟩
  | broadcast =>
    simp only [step]
    split
    · next e hp =>
      simp only [numbered, hp] at hseq hnext
      exact ⟨hcons, hring, hseq, hnext, fun _ h => nomatch h⟩
    · exact ⟨hcons, hring, hseq, hnext, hflight⟩
  | subscribe | replay | readReplay | readLive =>
    simp only [step]
    split
    · exact ⟨hcons, hring, hseq, hnext, hflight⟩
    · exact ⟨hcons, hring, hseq, hnext, hflight⟩
  | remove => exact ⟨hcons, hring, hseq, hnext, hflight⟩

/-- Storing the next event extends both sides by it, or neither. -/
theorem store_follows (hs : s.Numbers) (h : s.Follows afterSeq) :
    (s.step afterSeq .store).Follows afterSeq := by
  simp only [step]
  split
  · next e hp =>
    have hnext : e.1 = s.published.length + 1 := hs.next e.1 (by simp [numbered, hp])
    simp only [Follows, inFlight, hp, append_nil] at h ⊢
    cases hc : s.client with
    | waiting | gone => trivial
    | subscribed live =>
      rw [hc] at h
      exact fun x hx => mem_append_left _ (h x hx)
    | reading found atReplay replay maxReplayed live received =>
      rw [hc] at h
      intro hfound hwindow hlost
      obtain ⟨hat, hmax, hall⟩ := h hfound hwindow hlost
      refine ⟨by simp; omega, hmax, ?_⟩
      have hone : eventsAfter maxReplayed [e] = eventsAfter afterSeq [e] := by
        have hmaxlt : maxReplayed < e.1 ↔ afterSeq < e.1 := by omega
        simp only [eventsAfter, filter_singleton, hmaxlt]
      rw [eventsAfter_append, eventsAfter_append, ← hall, hone]
      simp only [append_assoc]
  · exact h

/-- A receiver that does not lag gets the event that was in flight. -/
theorem broadcast_follows (hs : s.Numbers) (h : s.Follows afterSeq) :
    (s.step afterSeq .broadcast).Follows afterSeq := by
  simp only [step]
  split
  · next e hp =>
    have hmem : e ∈ s.published := hs.flight e (by simp [inFlight, hp])
    simp only [Follows, inFlight, hp] at h ⊢
    cases hc : s.client with
    | waiting | gone => trivial
    | subscribed live =>
      rw [hc] at h
      exact fun x hx => (LiveReceiver.mem_send hx).elim (h x) fun hxe => hxe ▸ hmem
    | reading found atReplay replay maxReplayed live received =>
      rw [hc] at h
      intro hfound hwindow hlost
      obtain ⟨hkept, hqueue⟩ := LiveReceiver.send_of_not_lost hlost
      obtain ⟨hat, hmax, hall⟩ := h hfound hwindow hkept
      refine ⟨hat, hmax, ?_⟩
      rw [hqueue, append_nil]
      exact hall
  · exact h

/-- The replay has everything stored so far, and the filter drops what the receiver got before. -/
theorem replay_follows (hs : s.Numbers) (h : s.Follows afterSeq) :
    (s.step afterSeq .replay).Follows afterSeq := by
  simp only [step]
  split
  · next live hc =>
    simp only [Follows, hc] at h
    simp only [Follows, takeReplay]
    intro hfound hwindow hlost
    have hold : s.published.length - sseResumeRingCap ≤ afterSeq := by omega
    have hreplay : s.entry.replayAfter afterSeq = eventsAfter afterSeq s.published := by
      rw [StreamEntry.replayAfter, hs.ring, ← hs.consecutive.eventsAfter_drop hold, eventsAfter]
    have hmax := hs.consecutive.eventsAfter_last afterSeq
    simp only [hfound, if_true, hreplay, hmax]
    refine ⟨le_rfl, trivial, ?_⟩
    have hold : eventsAfter (max afterSeq s.published.length) (live.queue ++ s.inFlight) = [] := by
      rw [eventsAfter, filter_eq_nil_iff]
      intro e he
      have hmem : e ∈ s.published := (mem_append.mp he).elim (h e) (hs.flight e)
      have hle := (hs.consecutive.seq_le hmem).2
      simp only [decide_eq_true_eq, not_lt]
      omega
    rw [inFlight] at hold
    rw [inFlight, hold, nil_append, append_nil]
  · exact h

theorem readReplay_follows (h : s.Follows afterSeq) :
    (s.step afterSeq .readReplay).Follows afterSeq := by
  simp only [step]
  split
  · next found atReplay e replay maxReplayed live received hc =>
    simp only [Follows, hc] at h ⊢
    intro hfound hwindow hlost
    obtain ⟨hat, hmax, hall⟩ := h hfound hwindow hlost
    refine ⟨hat, hmax, ?_⟩
    rw [← hall, inFlight, append_assoc received [e] replay]
    rfl
  · exact h

theorem readLive_follows (h : s.Follows afterSeq) :
    (s.step afterSeq .readLive).Follows afterSeq := by
  simp only [step]
  split
  · next found atReplay maxReplayed e queue lost received hc =>
    simp only [Follows, hc] at h ⊢
    intro hfound hwindow hlost
    obtain ⟨hat, hmax, hall⟩ := h hfound hwindow hlost
    refine ⟨hat, hmax, ?_⟩
    rw [← hall, inFlight, cons_append, eventsAfter_cons]
    split
    · simp only [inFlight, append_nil, append_assoc, singleton_append]
    · rfl
  · exact h

theorem step_follows (hs : s.Numbers) (h : s.Follows afterSeq) (op : ResumeOp) :
    (s.step afterSeq op).Follows afterSeq := by
  cases op with
  | store => exact store_follows hs h
  | broadcast => exact broadcast_follows hs h
  | replay => exact replay_follows hs h
  | readReplay => exact readReplay_follows h
  | readLive => exact readLive_follows h
  | publish payload =>
    simp only [step]
    split
    · next hp =>
      split
      · simp only [Follows, inFlight, hp] at h ⊢
        exact h
      · exact h
    · exact h
  | takeSeq =>
    simp only [step]
    split
    · next hp =>
      simp only [Follows, inFlight, hp] at h ⊢
      exact h
    · exact h
  | subscribe =>
    simp only [step]
    split
    · simp only [Follows]
      cases s.registered with
      | true => exact fun _ he => nomatch he
      | false => trivial
    · exact h
  | remove => exact h

theorem run_follows (afterSeq : ℕ) (ops : List ResumeOp) :
    (run (step afterSeq) started ops).Numbers ∧
      (run (step afterSeq) started ops).Follows afterSeq := by
  have hstep : ∀ (s : ResumeState) (op : ResumeOp), s.Numbers ∧ s.Follows afterSeq →
      (s.step afterSeq op).Numbers ∧ (s.step afterSeq op).Follows afterSeq :=
    fun _ op h => ⟨step_numbers h.1 op, step_follows h.1 h.2 op⟩
  exact invariant' hstep ⟨started_numbers, trivial⟩ ops

/-- The job is registered, and the client's replay, if it took one, found it. -/
structure Kept (s : ResumeState) : Prop where
  registered : s.registered = true
  found : ∀ found atReplay replay maxReplayed live received,
    s.client = .reading found atReplay replay maxReplayed live received → found = true

theorem step_kept (h : s.Kept) (op : ResumeOp) (hop : op ≠ .remove) :
    (s.step afterSeq op).Kept := by
  obtain ⟨hreg, hfound⟩ := h
  cases op with
  | publish payload =>
    simp only [step, hreg, if_true]
    split
    · exact ⟨rfl, hfound⟩
    · exact ⟨hreg, hfound⟩
  | takeSeq | store =>
    simp only [step]
    split
    · exact ⟨hreg, hfound⟩
    · exact ⟨hreg, hfound⟩
  | broadcast =>
    simp only [step]
    split
    · refine ⟨hreg, ?_⟩
      cases hc : s.client with
      | reading found atReplay replay maxReplayed live received =>
        rintro _ _ _ _ _ _ ⟨⟩
        exact hfound _ _ _ _ _ _ hc
      | _ => rintro _ _ _ _ _ _ ⟨⟩
    · exact ⟨hreg, hfound⟩
  | subscribe =>
    simp only [step, hreg, if_true]
    split
    · exact ⟨rfl, by rintro _ _ _ _ _ _ ⟨⟩⟩
    · exact ⟨hreg, hfound⟩
  | replay =>
    simp only [step, takeReplay, hreg, if_true]
    split
    · exact ⟨rfl, by rintro _ _ _ _ _ _ ⟨⟩; rfl⟩
    · exact ⟨hreg, hfound⟩
  | readReplay | readLive =>
    simp only [step]
    split
    · next hc =>
      refine ⟨hreg, ?_⟩
      rintro _ _ _ _ _ _ ⟨⟩
      exact hfound _ _ _ _ _ _ hc
    · exact ⟨hreg, hfound⟩
  | remove => exact absurd rfl hop

theorem run_kept (afterSeq : ℕ) {ops : List ResumeOp} (h : .remove ∉ ops) :
    (run (step afterSeq) started ops).Kept := by
  have hstep : ∀ (s : ResumeState) (op : ResumeOp), s.Kept → op ≠ .remove →
      (s.step afterSeq op).Kept := fun _ op hs hop => step_kept hs op hop
  refine invariant hstep ⟨rfl, by rintro _ _ _ _ _ _ ⟨⟩⟩ ?_
  exact allOk_of_forall_mem _ _ _ fun op hop => ne_of_mem_of_not_mem hop h

/-- Reading everything that is there. -/
theorem run_readReplay {found : Bool} {atReplay : ℕ} {replay : List SseEvent} {maxReplayed : ℕ}
    {live : LiveReceiver} {received : List SseEvent}
    (h : s.client = .reading found atReplay replay maxReplayed live received) :
    run (step afterSeq) s (List.replicate replay.length .readReplay) =
      { s with client := .reading found atReplay [] maxReplayed live (received ++ replay) } := by
  induction replay generalizing s received with
  | nil => simp [← h]
  | cons e replay ih =>
    rw [length_cons, replicate_succ, run_cons]
    simp only [step, h]
    rw [ih rfl, append_assoc, singleton_append]

theorem run_readLive {found : Bool} {atReplay maxReplayed : ℕ} {queue : List SseEvent} {lost : ℕ}
    {received : List SseEvent}
    (h : s.client = .reading found atReplay [] maxReplayed ⟨queue, lost⟩ received) :
    run (step afterSeq) s (List.replicate queue.length .readLive) =
      { s with
        client := .reading found atReplay [] maxReplayed ⟨[], lost⟩
          (received ++ eventsAfter maxReplayed queue) } := by
  induction queue generalizing s received with
  | nil => simp [← h, eventsAfter]
  | cons e queue ih =>
    rw [length_cons, replicate_succ, run_cons]
    simp only [step, h]
    rw [ih rfl, eventsAfter_cons]
    split
    · rw [append_assoc, singleton_append]
    · rfl

/-- In every run, a client that took its replay within the ring's window and whose receiver never
lagged has received a beginning of the events behind `afterSeq`, in increasing order and once
each; and when no event is in flight it has all of them as soon as it has read what is there.
A removed job matters only where it leaves the replay without an entry. -/
theorem resume_exactly_once (afterSeq : ℕ) (ops : List ResumeOp) (found : Bool) (atReplay : ℕ)
    (replay : List SseEvent) (maxReplayed : ℕ) (live : LiveReceiver) (received : List SseEvent)
    (hclient : (run (step afterSeq) started ops).client =
      .reading found atReplay replay maxReplayed live received)
    (hfound : .remove ∈ ops → found = true) (hwindow : atReplay - afterSeq ≤ sseResumeRingCap)
    (hlive : live.lost = 0) :
    let s := run (step afterSeq) started ops
    Consecutive s.published ∧
      (eventsAfter afterSeq s.published).Pairwise (fun a b => a.1 < b.1) ∧
      received <+: eventsAfter afterSeq s.published ∧
      (s.inFlight = [] →
        (run (step afterSeq) s (List.replicate replay.length .readReplay ++
            List.replicate live.queue.length .readLive)).client =
          .reading found atReplay [] maxReplayed .new (eventsAfter afterSeq s.published)) := by
  intro s
  obtain ⟨hnumbers, hfollows⟩ := run_follows afterSeq ops
  have hreplayed : found = true := by
    by_cases hremove : .remove ∈ ops
    · exact hfound hremove
    · exact (run_kept afterSeq hremove).found _ _ _ _ _ _ hclient
  simp only [Follows, hclient] at hfollows
  obtain ⟨-, -, hall⟩ := hfollows hreplayed hwindow hlive
  refine ⟨hnumbers.consecutive, hnumbers.consecutive.eventsAfter_increasing afterSeq, ?_, ?_⟩
  · rw [← hall, append_assoc]
    exact prefix_append _ _
  · intro hidle
    obtain ⟨queue, lost⟩ := live
    rw [hidle, append_nil] at hall
    rw [run_append, run_readReplay hclient, run_readLive rfl, hall, show lost = 0 from hlive]
    rfl

/-- One event before the subscription, one in the ring but not yet broadcast when the replay is
taken, and one after it. -/
def straddlingRun : List ResumeOp :=
  [.publish "a", .takeSeq, .store, .broadcast, .subscribe, .publish "b", .takeSeq, .store, .replay,
    .readReplay, .broadcast, .publish "c", .takeSeq, .store, .broadcast, .readReplay, .readLive,
    .readLive]

theorem resume_exactly_once_straddlingRun :
    let s := run (step 0) started straddlingRun
    s.client = .reading true 2 [] 2 .new [(1, "a"), (2, "b"), (3, "c")] ∧
      [(1, "a"), (2, "b"), (3, "c")] <+: eventsAfter 0 s.published :=
  ⟨by decide +kernel,
    (resume_exactly_once 0 straddlingRun true 2 [] 2 .new [(1, "a"), (2, "b"), (3, "c")]
      (by decide +kernel) (fun _ => rfl) (by decide) rfl).2.2.1⟩

end ResumeState
end CrabMate
