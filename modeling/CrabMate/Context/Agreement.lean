import CrabMate.Context.Rows
import CrabMate.Context.Folding

/-! A commit and the view it commits. The commit never sees what was done to the view: it finds
the boundary again by counting real users, and must arrive at the same conversation. -/
namespace CrabMate
open Positions List

/-- What a turn does to its view: rows appended behind it, oldest groups removed, the rows in
front of a tail folded into a summary. -/
inductive ViewOp where
  | say (m : Message) (hreal : realUser m = false)
  | removeOldest (minGroupsToKeep : ℕ) (hkeep : 0 < minGroupsToKeep)
  | fold (tail : ℕ) (summaryText : String)

/-- A fold needs a leading system row and a tail that starts at a real user. -/
def foldable (messages : List Message) (tail : ℕ) : Bool :=
  (messages.head?.any fun m => m.role == "system") &&
    (messages[messages.length - tail]?).any realUser

def ViewOp.apply (messages : List Message) : ViewOp → List Message
  | .say m _ => messages ++ [m]
  | .removeOldest minGroupsToKeep _ => (removeOldestTurnGroup messages minGroupsToKeep).1
  | .fold tail summaryText =>
    if foldable messages tail then applyLlmSummaryToMessages messages tail summaryText
    else messages

/-- A view together with the place where the rows appended in the turn begin. -/
structure TrackedView where
  old : List Message
  new : List Message
  fresh : ∀ m ∈ new, realUser m = false

namespace TrackedView

def start (canonical : List Message) : TrackedView := ⟨canonical, [], by simp⟩

def messages (v : TrackedView) : List Message := v.old ++ v.new

theorem fresh_dropOrphans (v : TrackedView) (prev : Option Message) :
    ∀ m ∈ dropOrphansAfter prev v.new, realUser m = false :=
  fun m hm => v.fresh m ((dropOrphansAfter_sublist prev v.new).subset hm)

/-- A fold drops the orphaned results of both parts. -/
def folded (v : TrackedView) (tail : ℕ) (summaryText : String) : TrackedView :=
  let front := dropOrphanToolMessages (v.old.take 1 ++ [.userContextSummaryInjection summaryText] ++
    v.old.drop (v.messages.length - tail))
  ⟨front, dropOrphansAfter front.getLast? v.new, v.fresh_dropOrphans _⟩

def step (v : TrackedView) : ViewOp → TrackedView
  | .say m hreal => ⟨v.old, v.new ++ [m], by
      intro x hx
      rcases mem_append.mp hx with hx | hx
      · exact v.fresh x hx
      · rwa [mem_singleton.mp hx]⟩
  | .removeOldest minGroupsToKeep _ =>
    let range := (removeOldestTurnGroup v.messages minGroupsToKeep).2
    ⟨v.old.take range.start ++ v.old.drop (range.start + range.removed), v.new, v.fresh⟩
  | .fold tail summaryText => if foldable v.messages tail then v.folded tail summaryText else v

end TrackedView

section Tracking

theorem TrackedView.lt_of_realUser (v : TrackedView) {i : ℕ}
    (h : (v.messages[i]?).any realUser = true) : i < v.old.length := by
  by_contra hlt
  rw [TrackedView.messages, getElem?_append_right (by omega)] at h
  cases hget : v.new[i - v.old.length]? with
  | none => simp [hget] at h
  | some m => simp [hget, v.fresh m (mem_of_getElem? hget)] at h

theorem TrackedView.messages_step (v : TrackedView) (op : ViewOp) :
    (v.step op).messages = op.apply v.messages := by
  cases op with
  | say m hreal => simp [TrackedView.step, TrackedView.messages, ViewOp.apply]
  | removeOldest k hk =>
    simp only [TrackedView.step, ViewOp.apply]
    rcases removeOldestTurnGroup_cases v.messages k with ⟨-, heq⟩ | ⟨hlt, head, group, rest, ho, heq⟩
    · rw [heq]
      simp [TrackedView.messages]
    · -- the next group starts in front of the appended rows
      have hcount := ho.countRealUsers
      obtain ⟨x, xs, rfl⟩ : ∃ x xs, rest = x :: xs := by
        cases rest with
        | nil => simp [countRealUsers] at hcount; unfold countRealUsers at hlt; omega
        | cons x xs => exact ⟨x, xs, rfl⟩
      have hsplit := ho.split
      rw [← append_assoc] at hsplit
      have hget : (v.messages[(head ++ group).length]?).any realUser = true := by
        rw [hsplit, getElem?_append_right (Nat.le_refl _)]
        simp [ho.rest x rfl]
      have hlen := v.lt_of_realUser hget
      rw [heq]
      have htake : v.old.take head.length = head := by
        have hfront : v.messages.take head.length = v.old.take head.length :=
          take_append_of_le_length (by simp at hlen; omega)
        rw [← hfront, hsplit, append_assoc, take_left]
      have hdrop : v.old.drop (head.length + group.length) ++ v.new = x :: xs := by
        have hback : v.messages.drop (head.length + group.length) =
            v.old.drop (head.length + group.length) ++ v.new :=
          drop_append_of_le_length (by simp at hlen; omega)
        rw [← hback, hsplit, ← length_append, drop_left]
      simp only [TrackedView.messages, htake, append_assoc, hdrop]
  | fold tail summaryText =>
    simp only [TrackedView.step, ViewOp.apply]
    split
    · next hfold =>
      have hi := v.lt_of_realUser (Bool.and_eq_true_iff.mp hfold).2
      have hone : v.messages.take 1 = v.old.take 1 := take_append_of_le_length (by omega)
      have hdrop : v.messages.drop (v.messages.length - tail) =
          v.old.drop (v.messages.length - tail) ++ v.new := drop_append_of_le_length hi.le
      rw [applyLlmSummaryToMessages, hone, hdrop, ← append_assoc]
      simp only [dropOrphanToolMessages]
      rw [getLast?_dropOrphansAfter_append, Option.or_none]
      rfl
    · rfl

theorem TrackedView.messages_run (v : TrackedView) (ops : List ViewOp) :
    (ops.foldl TrackedView.step v).messages = ops.foldl ViewOp.apply v.messages := by
  induction ops generalizing v with
  | nil => rfl
  | cons op ops ih => rw [foldl_cons, foldl_cons, ih, v.messages_step]

end Tracking

section Follows

/-- The tracked view still holds the last user of the history with the side rows behind it, and
before it no users but the last ones of the history. -/
structure Follows (pre : List Message) (u : Message) (side : List Message) (v : TrackedView) :
    Prop where
  split : ∃ rest, v.old = rest ++ u :: side ∧ rest.filter realUser <:+ pre.filter realUser

variable {pre side : List Message} {u : Message} {v : TrackedView}

theorem follows_start : Follows pre u side (TrackedView.start (pre ++ u :: side)) :=
  ⟨pre, rfl, suffix_refl _⟩

theorem filter_dropOrphansAfter (prev : Option Message) (messages : List Message) :
    (dropOrphansAfter prev messages).filter realUser = messages.filter realUser := by
  induction messages generalizing prev with
  | nil => rfl
  | cons m messages ih =>
    unfold dropOrphansAfter
    split
    · next horphan =>
      have hm : realUser m = false := by
        simp [realUser, Message.userMessageCountsForBranchTruncation, horphan.1]
      rw [ih, filter_cons_of_neg (by simp [hm])]
    · cases hm : realUser m with
      | true => rw [filter_cons_of_pos hm, filter_cons_of_pos hm, ih]
      | false =>
        rw [filter_cons_of_neg (by simp [hm]), filter_cons_of_neg (by simp [hm]), ih]

theorem suffix_filter_drop (n : ℕ) (messages : List Message) :
    (messages.drop n).filter realUser <:+ messages.filter realUser :=
  (drop_suffix n messages).filter realUser

theorem Follows.removeOldest (h : Follows pre u side v)
    (hside : ∀ m ∈ side, realUser m = false) {k : ℕ} (hk : 0 < k) :
    Follows pre u side (v.step (.removeOldest k hk)) := by
  obtain ⟨rest, hold, hsuffix⟩ := h.split
  rcases removeOldestTurnGroup_cases v.messages k with ⟨-, heq⟩ | ⟨hlt, head, group, others, ho, heq⟩
  · refine ⟨rest, ?_, hsuffix⟩
    simp only [TrackedView.step, heq]
    simpa using hold
  · have hcount := ho.countRealUsers
    have hsplit : v.messages = (head ++ group) ++ others := by rw [ho.split, append_assoc]
    -- the next group starts at the last user of the history or before it
    have hle : (head ++ group).length ≤ rest.length := by
      by_contra hlt'
      have hmem : ∀ m ∈ others, realUser m = false := by
        intro m hm
        have hdrop : others = v.messages.drop (head ++ group).length := by
          rw [hsplit, drop_left]
        rw [hdrop, TrackedView.messages, hold, append_assoc, cons_append] at hm
        have hin : m ∈ (rest ++ u :: (side ++ v.new)).drop (rest.length + 1) :=
          (drop_sublist_drop_left _ (by omega)).subset hm
        rw [← singleton_append, ← append_assoc, drop_left' (by simp)] at hin
        rcases mem_append.mp hin with hin | hin
        · exact hside m hin
        · exact v.fresh m hin
      have hzero : countRealUsers others = 0 :=
        countP_eq_zero.mpr fun m hm => by simp [hmem m hm]
      omega
    rw [length_append] at hle
    refine ⟨rest.take head.length ++ rest.drop (head.length + group.length), ?_, ?_⟩
    · simp only [TrackedView.step, heq]
      rw [hold, take_append_of_le_length (by omega), drop_append_of_le_length (by omega),
        append_assoc]
    · have htake : rest.take head.length = head := by
        have hfront : v.messages.take head.length = rest.take head.length := by
          rw [TrackedView.messages, hold, append_assoc]
          exact take_append_of_le_length (by omega)
        rw [← hfront, ho.split, take_left]
      rw [filter_append, htake, filter_realUser_eq_nil ho.head, nil_append]
      exact (suffix_filter_drop _ _).trans hsuffix

theorem Follows.fold (h : Follows pre u side v) (hu : realUser u = true)
    (hside : ∀ m ∈ side, sideRow m = true) (tail : ℕ) (summaryText : String) :
    Follows pre u side (v.step (.fold tail summaryText)) := by
  simp only [TrackedView.step]
  split
  · next hfold =>
    obtain ⟨rest, hold, hsuffix⟩ := h.split
    obtain ⟨hsys, huser⟩ := Bool.and_eq_true_iff.mp hfold
    set i := v.messages.length - tail
    have hlt := v.lt_of_realUser huser
    have hle : i ≤ rest.length := by
      by_contra hgt
      rw [TrackedView.messages, getElem?_append_left hlt] at huser
      rw [hold, getElem?_append_right (by omega)] at huser
      obtain ⟨j, hj⟩ : ∃ j, i - rest.length = j + 1 := ⟨i - rest.length - 1, by omega⟩
      rw [hj, getElem?_cons_succ] at huser
      cases hget : side[j]? with
      | none => simp [hget] at huser
      | some m =>
        have hm := not_realUser_of_sideRow (hside m (mem_of_getElem? hget))
        simp [hget, hm] at huser
    have hdrop : v.old.drop i = rest.drop i ++ u :: side := by
      rw [hold, drop_append_of_le_length hle]
    refine ⟨dropOrphansAfter none (v.old.take 1 ++ [.userContextSummaryInjection summaryText] ++
      rest.drop i), ?_, ?_⟩
    · have hkeep : dropOrphansAfter (some u) side = side := by
        apply dropOrphansAfter_no_tools
        intro m hm
        rw [sideRow_role (hside m hm)]
        decide
      simp only [TrackedView.folded, dropOrphanToolMessages]
      rw [hdrop, ← append_assoc, dropOrphansAfter_split (role_ne_tool_of_realUser hu), hkeep]
    · have hone : (v.old.take 1).filter realUser = [] := by
        apply filter_realUser_eq_nil
        intro m hm
        have hhead : v.messages.head? = some m := by
          rw [TrackedView.messages]
          cases hcase : v.old with
          | nil => simp [hcase] at hm
          | cons x xs => simpa [hcase, eq_comm] using hm
        have hrole : m.role = "system" := by simpa [hhead] using hsys
        exact Message.not_realUser_of_system hrole
      have hsum : realUser (.userContextSummaryInjection summaryText) = false :=
        Message.not_realUser_of_summary (by
          simp [Message.isContextSummaryInjection, Message.userContextSummaryInjection,
            Message.userServerInjection])
      rw [filter_dropOrphansAfter, filter_append, filter_append, hone,
        filter_cons_of_neg (by simp [hsum]), filter_nil, nil_append, nil_append]
      exact (suffix_filter_drop _ _).trans hsuffix
  · exact h

theorem Follows.step (h : Follows pre u side v) (hu : realUser u = true)
    (hside : ∀ m ∈ side, sideRow m = true) (op : ViewOp) : Follows pre u side (v.step op) := by
  cases op with
  | say m hreal =>
    obtain ⟨rest, hold, hsuffix⟩ := h.split
    exact ⟨rest, hold, hsuffix⟩
  | removeOldest k hk =>
    exact h.removeOldest (fun m hm => not_realUser_of_sideRow (hside m hm)) hk
  | fold tail summaryText => exact h.fold hu hside tail summaryText

theorem Follows.run (h : Follows pre u side v) (hu : realUser u = true)
    (hside : ∀ m ∈ side, sideRow m = true) (ops : List ViewOp) :
    Follows pre u side (ops.foldl TrackedView.step v) := by
  induction ops generalizing v with
  | nil => exact h
  | cons op ops ih => exact ih (h.step hu hside op)

end Follows

namespace ViewOp

variable (parseJson : String → Option JsonValue) (canonical : List Message)

/-- The condition on an appended row: only a context-window marker may repeat a side row of the
history. -/
def Fresh : ViewOp → Prop
  | .say m _ => sideRow m = true → m ∈ canonical → isContextWindowTimelineMarker parseJson m = true
  | _ => True

end ViewOp

theorem TrackedView.mem_new_run {v : TrackedView} {ops : List ViewOp} {m : Message}
    (h : m ∈ (ops.foldl TrackedView.step v).new) : m ∈ v.new ∨ ∃ hreal, .say m hreal ∈ ops := by
  induction ops generalizing v with
  | nil => exact Or.inl h
  | cons op ops ih =>
    rcases ih h with hnew | ⟨hreal, hmem⟩
    · cases op with
      | say x hx =>
        rcases mem_append.mp hnew with hold | hone
        · exact Or.inl hold
        · obtain rfl := mem_singleton.mp hone
          exact Or.inr ⟨hx, mem_cons_self⟩
      | removeOldest k hk => exact Or.inl hnew
      | fold tail summaryText =>
        simp only [TrackedView.step] at hnew
        split at hnew
        · exact Or.inl ((dropOrphansAfter_sublist _ _).subset hnew)
        · exact Or.inl hnew
    · exact Or.inr ⟨hreal, mem_cons_of_mem _ hmem⟩

theorem ViewOp.no_users_run {messages : List Message} (h : ∀ m ∈ messages, realUser m = false)
    (ops : List ViewOp) : ∀ m ∈ ops.foldl ViewOp.apply messages, realUser m = false := by
  induction ops generalizing messages with
  | nil => exact h
  | cons op ops ih =>
    apply ih
    cases op with
    | say x hx =>
      intro m hm
      rcases mem_append.mp hm with hm | hm
      · exact h m hm
      · rwa [mem_singleton.mp hm]
    | removeOldest k hk =>
      have hzero : countRealUsers messages = 0 :=
        countP_eq_zero.mpr fun m hm => by simp [h m hm]
      rcases removeOldestTurnGroup_cases messages k with ⟨-, heq⟩ | ⟨hlt, -⟩
      · simpa only [ViewOp.apply, heq] using h
      · omega
    | fold tail summaryText =>
      have hnot : foldable messages tail = false := by
        cases hget : messages[messages.length - tail]? with
        | none => simp [foldable, hget]
        | some m => simp [foldable, hget, h m (mem_of_getElem? hget)]
      simpa only [ViewOp.apply, hnot, Bool.false_eq_true, ↓reduceIte] using h

/-- Recycling takes nothing but artifacts, from either part of a list. -/
theorem enforceSingleArtifact_parts (ms₁ ms₂ : List Message) :
    ∃ kept₁ kept₂, (enforceSingleArtifact (ms₁ ++ ms₂)).1 = kept₁ ++ kept₂ ∧
      kept₁.filter (fun m => !m.isModelContextArtifactMarker) =
        ms₁.filter (fun m => !m.isModelContextArtifactMarker) ∧
      kept₂.Sublist ms₂ ∧ kept₂.filter (fun m => !m.isModelContextArtifactMarker) =
        ms₂.filter fun m => !m.isModelContextArtifactMarker := by
  rcases artifact_split ms₂ with hnone | ⟨pre, a, post, rfl, ha, hpost⟩
  · have hzero : ms₂.countP Message.isModelContextArtifactMarker = 0 :=
      countP_eq_zero.mpr fun m hm => by simp [hnone m hm]
    obtain ⟨kept, he, -, hfilter⟩ :=
      ModelContextView.enforceSingleArtifact_append (hzero.trans_le (Nat.zero_le 1)) ms₁
    exact ⟨kept, ms₂, he, hfilter, List.Sublist.refl _, rfl⟩
  · refine ⟨ms₁.filter fun m => !m.isModelContextArtifactMarker,
      pre.filter (fun m => !m.isModelContextArtifactMarker) ++ a :: post, ?_, by simp,
      filter_sublist.append (List.Sublist.refl _), by simp⟩
    rw [← append_assoc, enforceSingleArtifact_split ha hpost, filter_append,
      append_assoc]

/-- The committed history and the view it came from: the same real users, and from the first of
them on the old history, side rows recycled, followed by the rows appended in the turn. -/
def AgreesWithView (parseJson : String → Option JsonValue) (canonical : List Message)
    (ops : List ViewOp) : Prop :=
  let view : ModelContextView :=
    { ModelContextView.derive canonical with messages := ops.foldl ViewOp.apply canonical }
  let new := (ops.foldl TrackedView.step (.start canonical)).new
  let next := (view.commitCurrentTurnTo parseJson canonical).1
  next.filter realUser = view.messages.filter realUser ∧
  (view.messages.any realUser = true →
    ∃ before suffix kept added, canonical = before ++ suffix ∧
      suffix.filter realUser = view.messages.filter realUser ∧
      fromFirstUser next = kept ++ added ∧ kept.head? = suffix.head? ∧
      kept.filter (ModelContextView.staysInPlace parseJson) =
        suffix.filter (ModelContextView.staysInPlace parseJson) ∧
      added.Sublist new ∧ added.filter (fun m => !m.isModelContextArtifactMarker) =
        new.filter fun m => !m.isModelContextArtifactMarker)

section Commit

variable {parseJson : String → Option JsonValue} {pre side : List Message} {u : Message}
  {v : TrackedView}

/-- The rows taken for new: the context-window markers behind the last user and the rows
appended in the turn. -/
theorem additions_of_follows {rest : List Message} (hold : v.old = rest ++ u :: side)
    (hside : ∀ m ∈ side, sideRow m = true)
    (hnew : ∀ m ∈ v.new, sideRow m = true → m ∈ pre ++ u :: side →
      isContextWindowTimelineMarker parseJson m = true) :
    ModelContextView.additions parseJson
        { ModelContextView.derive (pre ++ u :: side) with messages := v.messages } rest.length =
      side.filter (isContextWindowTimelineMarker parseJson) ++ v.new := by
  have hdrop : v.messages.drop (rest.length + 1) = side ++ v.new := by
    rw [TrackedView.messages, hold, ← singleton_append, ← append_assoc,
      append_assoc]
    exact drop_left' (by simp)
  simp only [ModelContextView.additions, hdrop, filter_append]
  congr 1
  · apply filter_congr
    intro m hm
    have hany : ((pre ++ u :: side).filter sideRow).any (· == m) = true :=
      any_parked_iff.mpr ⟨hside m hm, by simp [hm]⟩
    change (_ || !((pre ++ u :: side).filter sideRow).any (· == m)) = _
    rw [hany, Bool.not_true, Bool.or_false]
  · apply filter_eq_self.mpr
    intro m hm
    change (_ || !((pre ++ u :: side).filter sideRow).any (· == m)) = true
    cases hany : ((pre ++ u :: side).filter sideRow).any (· == m) with
    | false => simp
    | true =>
      obtain ⟨hs, hmem⟩ := any_parked_iff.mp hany
      simp [hnew m hm hs hmem]

/-- The splice of a commit: nothing but rows without a real user before the kept tail. -/
theorem reconciled_split (view : ModelContextView) {canonical before rest : List Message}
    {viewAnchor : ℕ} (hc : canonical = before ++ rest)
    (hlen : before.length = view.tailStart canonical viewAnchor) :
    ∃ front, view.reconciled canonical viewAnchor = front ++ rest ∧
      ∀ m ∈ front, realUser m = false := by
  have hdrop : canonical.drop (view.tailStart canonical viewAnchor) = rest := by
    rw [← hlen, hc]
    exact drop_left
  refine ⟨_, by rw [ModelContextView.reconciled, hdrop], ?_⟩
  intro m hm
  rcases mem_append.mp hm with hm | hm
  · exact not_realUser_of_mem_take_firstRemoval view _ m hm
  · split at hm
    · exact Message.not_realUser_of_summary
        (lastSummaryMessage_isSummary (Option.mem_toList.mp hm))
    · cases hm

theorem Follows.after (hbehind : ∀ m ∈ side, realUser m = false) :
    ∀ m ∈ side ++ v.new, realUser m = false := by
  intro m hm
  rcases mem_append.mp hm with hm | hm
  · exact hbehind m hm
  · exact v.fresh m hm

/-- The kept tail of the commit has the users of the view. -/
theorem tail_of_follows {rest : List Message} (hold : v.old = rest ++ u :: side)
    (hsuffix : rest.filter realUser <:+ pre.filter realUser) (hu : realUser u = true)
    (hbehind : ∀ m ∈ side, realUser m = false) (view : ModelContextView)
    (hview : view.messages = v.messages) :
    ∃ before x post, pre ++ u :: side = before ++ x :: post ∧
      before.length = view.tailStart (pre ++ u :: side) rest.length ∧ realUser x = true ∧
      (x :: post).filter realUser = v.messages.filter realUser := by
  obtain ⟨gone, hgone⟩ := hsuffix
  have hmsgs : v.messages = rest ++ u :: (side ++ v.new) := by
    rw [TrackedView.messages, hold, append_assoc, cons_append]
  have husers : v.messages.filter realUser = rest.filter realUser ++ [u] := by
    rw [hmsgs, filter_append, filter_cons_of_pos hu,
      filter_realUser_eq_nil (Follows.after hbehind)]
  have hcusers : (pre ++ u :: side).filter realUser = gone ++ (rest.filter realUser ++ [u]) := by
    rw [filter_append, filter_cons_of_pos hu, ← hgone, filter_realUser_eq_nil hbehind,
      append_assoc]
  have htake : view.messages.take (rest.length + 1) = rest ++ [u] := by
    rw [hview, hmsgs, ← singleton_append, ← append_assoc]
    exact take_left' (by simp)
  -- as many users left the view as stand before its first one
  have hremoved : removedUsers view (pre ++ u :: side) rest.length = gone.length := by
    have hall := congrArg List.length hcusers
    rw [removedUsers, htake, countRealUsers, countRealUsers, countP_eq_length_filter, hall,
      countP_append, countP_eq_length_filter, countP_singleton, if_pos hu]
    simp
  have hcount : removedUsers view (pre ++ u :: side) rest.length <
      countRealUsers (pre ++ u :: side) := by
    have hall := congrArg List.length hcusers
    rw [hremoved, countRealUsers, countP_eq_length_filter, hall]
    simp
  obtain ⟨before, x, post, hc, hlen, hx, hbefore⟩ := tailStart_split view _ hcount
  refine ⟨before, x, post, hc, hlen, hx, ?_⟩
  rw [hc, filter_append] at hcusers
  rw [hremoved, countP_eq_length_filter] at hbefore
  rw [husers]
  exact (append_inj hcusers hbefore).2

/-- Committing a view that follows the history. -/
theorem commit_of_follows (h : Follows pre u side v) (hu : realUser u = true)
    (hside : ∀ m ∈ side, sideRow m = true)
    (hnew : ∀ m ∈ v.new, sideRow m = true → m ∈ pre ++ u :: side →
      isContextWindowTimelineMarker parseJson m = true) (view : ModelContextView)
    (hview : view = { ModelContextView.derive (pre ++ u :: side) with messages := v.messages }) :
    (view.commitCurrentTurnTo parseJson (pre ++ u :: side)).1.filter realUser =
      v.messages.filter realUser ∧
    ∃ before suffix kept added, pre ++ u :: side = before ++ suffix ∧
      suffix.filter realUser = v.messages.filter realUser ∧
      fromFirstUser (view.commitCurrentTurnTo parseJson (pre ++ u :: side)).1 = kept ++ added ∧
      kept.head? = suffix.head? ∧
      kept.filter (ModelContextView.staysInPlace parseJson) =
        suffix.filter (ModelContextView.staysInPlace parseJson) ∧
      added.Sublist v.new ∧ added.filter (fun m => !m.isModelContextArtifactMarker) =
        v.new.filter fun m => !m.isModelContextArtifactMarker := by
  obtain ⟨rest, hold, hsuffix⟩ := h.split
  have hbehind : ∀ m ∈ side, realUser m = false := fun m hm => not_realUser_of_sideRow (hside m hm)
  have hmsgs : view.messages = rest ++ u :: (side ++ v.new) := by
    rw [hview, TrackedView.messages, hold, append_assoc, cons_append]
  have hanchor : rposition realUser view.messages = some rest.length := by
    rw [hmsgs]
    exact rposition_append_cons hu (Follows.after hbehind)
  obtain ⟨before, x, post, hc, hlen, hx, husers⟩ :=
    tail_of_follows hold hsuffix hu hbehind view (by rw [hview])
  obtain ⟨front, hrec, hfront⟩ := reconciled_split view hc hlen
  have hadd : view.additions parseJson rest.length =
      side.filter (isContextWindowTimelineMarker parseJson) ++ v.new := by
    rw [hview]
    exact additions_of_follows hold hside hnew
  constructor
  · have hnone : (view.additions parseJson rest.length).filter realUser = [] := by
      apply filter_realUser_eq_nil
      intro m hm
      have hmem : m ∈ side ++ v.new := by
        rw [hadd] at hm
        exact (filter_sublist.append (List.Sublist.refl _)).subset hm
      exact Follows.after hbehind m hmem
    rw [commit_next_filter parseJson realUser_ignoresSideRows view _ hanchor
      (filter_realUser_eq_nil (not_realUser_of_mem_take_firstRemoval view _)), hnone,
      append_nil, ← hlen, hc, drop_left, husers]
  · set added := view.additions parseJson rest.length with hadded
    obtain ⟨kept, tail, he, hkept, hsub, htail⟩ := enforceSingleArtifact_parts
      (ModelContextView.replaceMarkers parseJson added (front ++ x :: post) ++
        side.filter (isContextWindowTimelineMarker parseJson)) v.new
    have hnext : (view.commitCurrentTurnTo parseJson (pre ++ u :: side)).1 = kept ++ tail := by
      rw [view.commit_of_anchor parseJson _ hanchor, ← he, append_assoc, ← hadd, ← hrec]
      rfl
    have hmarks : (side.filter (isContextWindowTimelineMarker parseJson)).filter
        (ModelContextView.staysInPlace parseJson) = [] := by
      apply filter_eq_nil_iff.mpr
      intro m hm
      simp [ModelContextView.staysInPlace, (mem_filter.mp hm).2]
    have hstays : kept.filter (ModelContextView.staysInPlace parseJson) =
        (front ++ x :: post).filter (ModelContextView.staysInPlace parseJson) := by
      rw [ModelContextView.filter_stays_congr parseJson hkept, filter_append, hmarks,
        append_nil, ModelContextView.filter_replaceMarkers]
    have hxkept : x ∈ kept := by
      apply mem_of_mem_filter (p := ModelContextView.staysInPlace parseJson)
      rw [hstays]
      exact mem_filter.mpr ⟨by simp, ModelContextView.staysInPlace_of_realUser parseJson hx⟩
    have hfirst : (fromFirstUser kept).filter (ModelContextView.staysInPlace parseJson) =
        (x :: post).filter (ModelContextView.staysInPlace parseJson) := by
      rw [ModelContextView.filter_fromFirstUser, hstays, ← ModelContextView.filter_fromFirstUser,
        fromFirstUser_append hfront, fromFirstUser_cons hx]
    refine ⟨before, x :: post, fromFirstUser kept, tail, hc, husers, ?_, ?_, hfirst, hsub, htail⟩
    · rw [hnext, fromFirstUser_append_right hxkept hx]
    · obtain ⟨y, ys, hy, hreal⟩ := fromFirstUser_eq_cons hxkept hx
      rw [hy] at hfirst
      rw [filter_cons_of_pos (ModelContextView.staysInPlace_of_realUser parseJson hreal),
        filter_cons_of_pos (ModelContextView.staysInPlace_of_realUser parseJson hx)] at hfirst
      rw [hy, head?_cons, head?_cons, (List.cons.inj hfirst).1]

/-- Over a history that has nothing but side rows behind its last real user, and as long as no
appended row repeats one of its side rows, a commit agrees with the view. -/
theorem commit_agrees_with_view (parseJson : String → Option JsonValue) (canonical : List Message)
    (ops : List ViewOp)
    (hlast : ∀ pre u side, canonical = pre ++ u :: side → realUser u = true →
      (∀ m ∈ side, realUser m = false) → ∀ m ∈ side, sideRow m = true)
    (hops : ∀ op ∈ ops, op.Fresh parseJson canonical) :
    AgreesWithView parseJson canonical ops := by
  unfold AgreesWithView
  set v := ops.foldl TrackedView.step (.start canonical) with hv
  have hmessages : ops.foldl ViewOp.apply canonical = v.messages := by
    rw [hv, TrackedView.messages_run, TrackedView.start, TrackedView.messages, append_nil]
  simp only [hmessages]
  cases hanchor : rposition realUser canonical with
  | none =>
    have hnone := rposition_eq_none_iff.mp hanchor
    have hviewnone : ∀ m ∈ v.messages, realUser m = false := by
      rw [← hmessages]
      exact ViewOp.no_users_run hnone ops
    rw [ModelContextView.commit_of_no_anchor parseJson _ canonical
      (rposition_eq_none_iff.mpr hviewnone)]
    refine ⟨by rw [filter_realUser_eq_nil hnone, filter_realUser_eq_nil hviewnone], fun hany => ?_⟩
    obtain ⟨m, hm, hreal⟩ := any_eq_true.mp hany
    rw [hviewnone m hm] at hreal
    cases hreal
  | some i =>
    obtain ⟨pre, u, side, rfl, -, hu, hbehind⟩ := rposition_eq_some hanchor
    have hside := hlast pre u side rfl hu hbehind
    have hnew : ∀ m ∈ v.new, sideRow m = true → m ∈ pre ++ u :: side →
        isContextWindowTimelineMarker parseJson m = true := by
      intro m hm
      rcases TrackedView.mem_new_run hm with hm | ⟨hreal, hmem⟩
      · cases hm
      · exact hops _ hmem
    obtain ⟨husers, hrest⟩ := commit_of_follows (follows_start.run hu hside ops) hu hside hnew _ rfl
    exact ⟨husers, fun _ => hrest⟩

theorem nothing_behind_last {before : List Message} {w : Message} (hw : realUser w = true) :
    ∀ pre u side, before ++ [w] = pre ++ u :: side → realUser u = true →
      (∀ m ∈ side, realUser m = false) → ∀ m ∈ side, sideRow m = true := by
  intro pre u side hsplit _ hside m hm
  cases hlast : side.getLast? with
  | none =>
    rw [getLast?_eq_none_iff.mp hlast] at hm
    cases hm
  | some z =>
    have hz : (before ++ [w]).getLast? = some z := by
      rw [hsplit, getLast?_append_cons, getLast?_cons, hlast, Option.getD_some]
    rw [getLast?_concat, Option.some.injEq] at hz
    have hreal := hside z (mem_of_getLast? hlast)
    rw [← hz, hw] at hreal
    cases hreal

/-- A turn that answers after the older of two groups was removed. -/
theorem commit_agrees_with_view_removed_group :
    let canonical := [.userOnly "a", assistantRow "b"] ++ [.userOnly "c"]
    AgreesWithView (fun _ => none) canonical
      [.removeOldest 1 Nat.one_pos, .say (assistantRow "d") (by decide)] ∧
    ([ViewOp.removeOldest 1 Nat.one_pos, .say (assistantRow "d") (by decide)].foldl ViewOp.apply
      canonical) = [.userOnly "c", assistantRow "d"] := by
  refine ⟨commit_agrees_with_view (fun _ => none) _ _ (nothing_behind_last (by decide)) ?_,
    by decide⟩
  intro op hop
  rcases mem_cons.mp hop with rfl | hop
  · trivial
  · obtain rfl := mem_singleton.mp hop
    exact fun hside => absurd hside (by decide)

/-- The user's text starts like an injected summary, so it is not counted as a real user and the
answer of the turn before is written back a second time, together with the new row itself. -/
theorem commit_repeats_rows_behind_user :
    ¬ ∀ (parseJson : String → Option JsonValue) (canonical : List Message) (ops : List ViewOp),
      AgreesWithView parseJson canonical ops := by
  intro h
  set canonical := [.userOnly "hi", assistantRow "hello",
    .userOnly (contextSummaryInjectionContentPrefix ++ " ?")] with hc
  obtain ⟨-, hrows⟩ := h (fun _ => none) canonical []
  obtain ⟨before, suffix, kept, added, hsplit, -, hnext, -, hkept, hadded, -⟩ :=
    hrows (by decide +kernel)
  have hnone : added = [] := sublist_nil.mp hadded
  rw [hnone, append_nil] at hnext
  have hlen : suffix.length ≤ canonical.length := by
    rw [hsplit, length_append]
    omega
  have hfilter := congrArg List.length hkept
  have hfive : (kept.filter (ModelContextView.staysInPlace fun _ => none)).length = 5 := by
    rw [← hnext]
    decide +kernel
  have hle := length_filter_le (ModelContextView.staysInPlace fun _ => none) suffix
  rw [hfive] at hfilter
  simp only [hc, length_cons, length_nil] at hlen
  omega

end Commit
end CrabMate
