import CrabMate.Approval.Session

/-! Which decisions a request may be answered with. The channel carries no request number and is
emptied only when a wait fails, so a decision answers its own request in the runs where none is
left over when the next request is sent out. -/
namespace CrabMate
open Run List

/-- Posted after the request was sent out, and not for an earlier one. -/
def Post.FitFor (p : Post) (request : ℕ) : Prop := request ∈ p.seen ∧ ¬ p.answers < request

instance (p : Post) (request : ℕ) : Decidable (p.FitFor request) := by
  unfold Post.FitFor
  infer_instance

/-- A returned decision is one the client posted for this request. -/
def Returned.Answered (r : Returned) : Prop :=
  match r.result with
  | .error _ => True
  | .ok (_, none) => False
  | .ok (decision, some p) => p.decision = decision ∧ p.FitFor r.request

instance (r : Returned) : Decidable r.Answered := by
  unfold Returned.Answered
  split <;> infer_instance

namespace ApprovalSession

/-- Every decision that can still be received. -/
def posts (s : ApprovalSession) : List Post := s.network ++ s.sending ++ s.channel

/-- The steps of a client and a server that do not run past each other: a request is sent out
when no decision is left over, a decision is posted for the pending request or a later one, once
that has been sent out, and the pending request never finds all senders gone. -/
def Orderly (s : ApprovalSession) : ApprovalOp → Prop
  | .request _ _ => s.outstanding = none → s.posts = []
  | .post _ answers =>
    match s.outstanding with
    | none => True
    | some o => o.request ∈ s.sentOut ∧ o.request ≤ answers
  | .poll _ _ => s.closed → s.channel ≠ []
  | _ => True

instance (s : ApprovalSession) (op : ApprovalOp) : Decidable (s.Orderly op) := by
  unfold Orderly
  cases op <;> try infer_instance
  cases s.outstanding <;> infer_instance

structure Sound (s : ApprovalSession) : Prop where
  pending : ∀ o, s.outstanding = some o → ∀ p ∈ s.posts, p.FitFor o.request
  returned : ∀ r ∈ s.returned, r.Answered

theorem opened_sound : opened.Sound := ⟨by simp [opened], by simp [opened]⟩

variable {s t : ApprovalSession}

/-- Steps that return nothing and neither post nor start a request. -/
theorem Sound.of_subset (h : s.Sound) (hret : t.returned = s.returned)
    (hposts : ∀ p ∈ t.posts, p ∈ s.posts)
    (hout : ∀ o, t.outstanding = some o → ∃ o', s.outstanding = some o' ∧ o'.request = o.request) :
    t.Sound where
  pending o ho p hp := by
    obtain ⟨o', ho', hreq⟩ := hout o ho
    exact hreq ▸ h.pending o' ho' p (hposts p hp)
  returned := hret ▸ h.returned

theorem Sound.finish (h : s.Sound) {request : ℕ}
    {result : Except ToolApprovalWebError (CommandApprovalDecision × Option Post)}
    (hnew : Returned.Answered ⟨request, result⟩) (hret : t.returned = s.returned) :
    (t.finish request result).Sound where
  pending o ho := by cases ho
  returned r hr := by
    rcases mem_append.mp hr with hold | hnew'
    · exact h.returned r (hret ▸ hold)
    · rw [mem_singleton.mp hnew']
      exact hnew

theorem sendRequest_sound (h : s.Sound) (hquiet : s.posts = []) (mode : WebApprovalChannelMode)
    (cancelHandle : Bool) : (s.sendRequest mode cancelHandle).Sound := by
  have hnone : ∀ p ∈ s.posts, False := fun p hp => by simp [hquiet] at hp
  unfold sendRequest
  simp only
  split
  · split
    · exact h.finish trivial rfl
    · exact ⟨fun _ _ p hp => (hnone p hp).elim, h.returned⟩
  · exact ⟨fun _ _ p hp => (hnone p hp).elim, h.returned⟩

theorem enterWait_sound (h : s.Sound) {o : Outstanding} (ho : s.outstanding = some o) :
    (s.enterWait o).Sound := by
  unfold enterWait
  split
  all_goals
    refine h.of_subset rfl (fun p hp => hp) fun o' ho' => ⟨o, ho, ?_⟩
    cases ho'
    rfl

theorem select_ok {o : Outstanding} {flagRead elapsed : Bool} {decision : CommandApprovalDecision}
    {origin : Option Post} (h : s.select o flagRead elapsed = some (.ok (decision, origin))) :
    (∃ p ∈ s.channel, decision = p.decision ∧ origin = some p) ∨
      (s.channel = [] ∧ s.closed ∧ decision = .deny ∧ origin = none) := by
  unfold select at h
  split at h
  · next p rest hchan =>
    cases h
    exact .inl ⟨p, by simp [hchan], rfl, rfl⟩
  · next hchan =>
    split at h
    · next hclosed =>
      cases h
      exact .inr ⟨hchan, hclosed, rfl, rfl⟩
    · split at h
      · cases h
      · split at h <;> cases h

theorem pollWait_sound (h : s.Sound) {o : Outstanding} (ho : s.outstanding = some o)
    (hopen : s.closed → s.channel ≠ []) (flagRead elapsed : Bool) :
    (s.pollWait o flagRead elapsed).Sound := by
  unfold pollWait
  split
  · exact h
  · next decision hsel =>
    obtain ⟨decision, origin⟩ := decision
    refine h.finish ?_ rfl
    obtain ⟨p, hp, rfl, rfl⟩ | ⟨hchan, hclosed, -⟩ := select_ok hsel
    · exact ⟨rfl, h.pending o ho p (mem_append_right _ hp)⟩
    · exact absurd hchan (hopen hclosed)
  · refine h.of_subset rfl (fun p hp => hp) fun o' ho' => ⟨o, ho, ?_⟩
    cases ho'
    rfl

/-- A decision moved from one list to the next is no new decision. -/
theorem mem_or_mem_of_moved {l m : List Post} {i : ℕ} {p q : Post} (hp : l[i]? = some p)
    (hq : q ∈ l.eraseIdx i ∨ q ∈ m ++ [p]) : q ∈ l ∨ q ∈ m := by
  rcases hq with hleft | hmoved
  · exact .inl (mem_of_mem_eraseIdx hleft)
  · rcases mem_append.mp hmoved with hold | hnew
    · exact .inr hold
    · exact .inl (mem_singleton.mp hnew ▸ mem_of_getElem? hp)

theorem step_sound (h : s.Sound) (op : ApprovalOp) (hop : s.Orderly op) : (s.step op).Sound := by
  cases op with
  | request mode cancelHandle =>
    simp only [step]
    split
    · next hfree => exact sendRequest_sound h (hop hfree) mode cancelHandle
    · exact h
  | enter =>
    simp only [step]
    split
    · next o ho =>
      split
      · exact enterWait_sound h ho
      · exact h
    · exact h
  | poll flagRead elapsed =>
    simp only [step]
    split
    · next o ho =>
      split
      · exact pollWait_sound h ho hop flagRead elapsed
      · exact h
    · exact h
  | drain =>
    simp only [step]
    split
    · exact h.finish trivial rfl
    · exact h
  | abandon => exact ⟨fun o ho => (nomatch ho), h.returned⟩
  | post decision answers =>
    refine ⟨fun o ho p hp => ?_, h.returned⟩
    simp only [step, posts, mem_append, mem_singleton] at ho hp
    simp only [Orderly, ho] at hop
    obtain ((hold | rfl) | hold) | hold := hp
    · exact h.pending o ho p (by simp [posts, hold])
    · exact ⟨hop.1, Nat.not_lt.mpr hop.2⟩
    · exact h.pending o ho p (by simp [posts, hold])
    · exact h.pending o ho p (by simp [posts, hold])
  | arrive i =>
    simp only [step]
    split
    · exact h
    · next p hp =>
      refine h.of_subset rfl (fun q hq => ?_) fun o ho => ⟨o, ho, rfl⟩
      simp only [posts, mem_append] at hq ⊢
      refine hq.imp_left fun hq => ?_
      split at hq
      · exact mem_or_mem_of_moved hp hq
      · exact hq.imp_left mem_of_mem_eraseIdx
  | deliver i =>
    simp only [step]
    split
    · exact h
    · next p hp =>
      split
      · refine h.of_subset rfl (fun q hq => ?_) fun o ho => ⟨o, ho, rfl⟩
        simp only [posts, append_assoc, mem_append] at hq ⊢
        exact hq.imp_right fun hq => mem_or_mem_of_moved hp (hq.imp_right mem_append.mpr)
      · exact h
  | cancel | unregister | closeOut =>
    exact h.of_subset rfl (fun p hp => hp) fun o ho => ⟨o, ho, rfl⟩

/-- In every state of an orderly run, each decision returned for a request was posted by the
client after that request was sent out, and not for an earlier one. -/
theorem decisions_answer_their_request (ops : List ApprovalOp)
    (h : AllOk step Orderly opened ops) :
    ∀ k, ∀ r ∈ (run step opened (ops.take k)).returned, r.Answered := by
  intro k
  rw [← take_append_drop k ops, allOk_append] at h
  have hstep : ∀ s op, Sound s → Orderly s op → Sound (step s op) :=
    fun _ op hs hop => step_sound hs op hop
  exact (invariant hstep opened_sound h.1).returned

/-- A request answered in time, one that times out, and a third one answered by `allow_always`. -/
def promptRun : List ApprovalOp :=
  [.request .strict true, .enter, .post .allowOnce 0, .arrive 0, .deliver 0, .poll true false,
    .request .lenient true, .enter, .poll true true, .drain,
    .request .strict true, .post .allowAlways 2, .arrive 0, .deliver 0, .enter, .poll false false]

theorem decisions_answer_promptRun : AllOk step Orderly opened promptRun ∧
    (run step opened promptRun).returned.map Returned.request = [0, 1, 2] ∧
    ∀ k, ∀ r ∈ (run step opened (promptRun.take k)).returned, r.Answered :=
  ⟨by decide +kernel, by decide +kernel,
    decisions_answer_their_request promptRun (by decide +kernel)⟩

/-- The client allows request 0 only after it has timed out; the decision lets request 1 run. -/
theorem late_allow_answers_next_request :
    ¬ ∀ ops : List ApprovalOp, ∀ k, ∀ r ∈ (run step opened (ops.take k)).returned, r.Answered := by
  intro h
  have hbad := h [.request .strict true, .enter, .poll false true, .drain, .post .allowOnce 0,
    .arrive 0, .deliver 0, .request .strict true, .enter, .poll false false] 10
    ⟨1, .ok (.allowOnce, some ⟨.allowOnce, 0, [0]⟩)⟩ (by decide +kernel)
  revert hbad
  decide +kernel

end ApprovalSession
end CrabMate
