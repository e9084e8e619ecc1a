import CrabMate.Context.Compaction

/-! The rows a turn appends behind its user and what the write-back does with them. Both the
commit of a finished turn and the append of an interrupted one recognise the new rows by
comparing them with the side rows parked when the view was derived. -/
namespace CrabMate
open Positions List

/-- Timeline and artifact rows, parked when a view is derived. -/
def sideRow (m : Message) : Bool := m.isChatTimelineMarker || m.isModelContextArtifactMarker

def assistantRow (text : String) : Message :=
  ⟨"assistant", some (.text text), none, none, none, none, none⟩

def timelineRow (text : String) : Message :=
  ⟨"system", some (.text text), none, none, none, some crabmateTimelineName, none⟩

/-- The rows from the first real user on. -/
def fromFirstUser (messages : List Message) : List Message :=
  messages.dropWhile fun m => !realUser m

theorem sideRow_role {m : Message} (h : sideRow m = true) : m.role = "system" := by
  rcases Bool.or_eq_true_iff.mp h with h | h
  · exact Message.role_of_timeline h
  · exact Message.role_of_artifact h

theorem not_realUser_of_sideRow {m : Message} (h : sideRow m = true) : realUser m = false :=
  Message.not_realUser_of_system (sideRow_role h)

theorem not_artifact_of_realUser {m : Message} (h : realUser m = true) :
    m.isModelContextArtifactMarker = false := by
  cases ha : m.isModelContextArtifactMarker with
  | false => rfl
  | true => rw [not_realUser_of_sideRow (by simp [sideRow, ha])] at h; cases h

theorem filter_realUser_eq_nil {messages : List Message} (h : ∀ m ∈ messages, realUser m = false) :
    messages.filter realUser = [] :=
  filter_eq_nil_iff.mpr fun m hm => by simp [h m hm]

theorem any_parked_iff {canonical : List Message} {m : Message} :
    (canonical.filter sideRow).any (· == m) = true ↔ sideRow m = true ∧ m ∈ canonical := by
  simp only [any_eq_true, mem_filter, beq_iff_eq]
  constructor
  · rintro ⟨x, ⟨hx, hside⟩, rfl⟩
    exact ⟨hside, hx⟩
  · rintro ⟨hside, hx⟩
    exact ⟨m, ⟨hx, hside⟩, rfl⟩

section FirstUser

theorem fromFirstUser_append {before : List Message} (h : ∀ m ∈ before, realUser m = false)
    (messages : List Message) : fromFirstUser (before ++ messages) = fromFirstUser messages := by
  induction before with
  | nil => rfl
  | cons m before ih =>
    have hm : realUser m = false := h m mem_cons_self
    rw [cons_append, fromFirstUser, dropWhile_cons_of_pos (by simp [hm])]
    exact ih fun x hx => h x (mem_cons_of_mem _ hx)

theorem fromFirstUser_cons {u : Message} (hu : realUser u = true) (messages : List Message) :
    fromFirstUser (u :: messages) = u :: messages := by
  rw [fromFirstUser, dropWhile_cons_of_neg (by simp [hu])]

theorem fromFirstUser_eq_cons {messages : List Message} {u : Message} (hmem : u ∈ messages)
    (hu : realUser u = true) :
    ∃ y ys, fromFirstUser messages = y :: ys ∧ realUser y = true := by
  induction messages with
  | nil => cases hmem
  | cons m messages ih =>
    cases hm : realUser m with
    | true => exact ⟨m, messages, fromFirstUser_cons hm messages, hm⟩
    | false =>
      rcases mem_cons.mp hmem with rfl | hrest
      · rw [hm] at hu
        cases hu
      · rw [fromFirstUser, dropWhile_cons_of_pos (by simp [hm])]
        exact ih hrest

theorem fromFirstUser_append_right {before : List Message} {u : Message} (hmem : u ∈ before)
    (hu : realUser u = true) (messages : List Message) :
    fromFirstUser (before ++ messages) = fromFirstUser before ++ messages := by
  induction before with
  | nil => cases hmem
  | cons m before ih =>
    cases hm : realUser m with
    | true => rw [cons_append, fromFirstUser_cons hm, fromFirstUser_cons hm, cons_append]
    | false =>
      have hrest : u ∈ before := by
        rcases mem_cons.mp hmem with rfl | hrest
        · rw [hm] at hu; cases hu
        · exact hrest
      have hskip : ∀ l, fromFirstUser (m :: l) = fromFirstUser l := fun l => by
        rw [fromFirstUser, dropWhile_cons_of_pos (by simp [hm])]; rfl
      rw [cons_append, hskip, hskip, ih hrest]

theorem fromFirstUser_filter {p : Message → Bool} (hp : ∀ m, realUser m = true → p m = true)
    (messages : List Message) :
    fromFirstUser (messages.filter p) = (fromFirstUser messages).filter p := by
  induction messages with
  | nil => rfl
  | cons m messages ih =>
    cases hm : realUser m with
    | true =>
      rw [filter_cons_of_pos (hp m hm), fromFirstUser_cons hm, fromFirstUser_cons hm,
        filter_cons_of_pos (hp m hm)]
    | false =>
      have hskip : ∀ l, fromFirstUser (m :: l) = fromFirstUser l := fun l => by
        rw [fromFirstUser, dropWhile_cons_of_pos (by simp [hm])]; rfl
      rw [hskip, ← ih]
      cases hpm : p m with
      | true => rw [filter_cons_of_pos hpm, hskip]
      | false => rw [filter_cons_of_neg (by simp [hpm])]

end FirstUser

namespace ModelContextView

variable (parseJson : String → Option JsonValue)

/-- The view of a turn that only appended the rows `xs`. -/
def withRows (canonical xs : List Message) : ModelContextView :=
  { derive canonical with messages := canonical ++ xs }

/-- Neither replaced by a newer context-window marker nor recycled as an older artifact. -/
def staysInPlace (m : Message) : Bool :=
  !isContextWindowTimelineMarker parseJson m && !m.isModelContextArtifactMarker

/-- The written-back history ends in the rows `xs`. In front of them stands the old history
from its first real user on, without the rows a write-back replaces; newer context-window
markers stand alone. -/
def AppendsAll (canonical xs next : List Message) : Prop :=
  ∃ kept, next = kept ++ xs ∧
    (fromFirstUser kept).filter (staysInPlace parseJson) =
      (fromFirstUser canonical).filter (staysInPlace parseJson) ∧
    (xs.any (isContextWindowTimelineMarker parseJson) = true →
      ∀ m ∈ kept, isContextWindowTimelineMarker parseJson m = false)

theorem staysInPlace_of_realUser {m : Message} (h : realUser m = true) :
    staysInPlace parseJson m = true := by
  have hw : isContextWindowTimelineMarker parseJson m = false := by
    cases hw : isContextWindowTimelineMarker parseJson m with
    | false => rfl
    | true =>
      have hside : sideRow m = true := by simp [sideRow, timeline_of_contextWindow parseJson hw]
      rw [not_realUser_of_sideRow hside] at h
      cases h
  simp [staysInPlace, hw, not_artifact_of_realUser h]

theorem filter_fromFirstUser (messages : List Message) :
    (fromFirstUser messages).filter (staysInPlace parseJson) =
      fromFirstUser (messages.filter (staysInPlace parseJson)) :=
  (fromFirstUser_filter (fun _ h => staysInPlace_of_realUser parseJson h) messages).symm

theorem filter_strip_stays (messages : List Message) :
    (stripContextWindowTimelineMarkers parseJson messages).filter (staysInPlace parseJson) =
      messages.filter (staysInPlace parseJson) := by
  rw [stripContextWindowTimelineMarkers, filter_filter]
  apply filter_congr
  intro m _
  cases hk : contextWindowTimelineKind parseJson m <;>
    simp [staysInPlace, isContextWindowTimelineMarker, hk]

/-- The rows in front of the additions once the markers they replace are gone. -/
def replaceMarkers (added messages : List Message) : List Message :=
  if added.any (isContextWindowTimelineMarker parseJson) then
    stripContextWindowTimelineMarkers parseJson messages
  else messages

theorem filter_replaceMarkers (added messages : List Message) :
    (replaceMarkers parseJson added messages).filter (staysInPlace parseJson) =
      messages.filter (staysInPlace parseJson) := by
  unfold replaceMarkers
  split
  · exact filter_strip_stays parseJson messages
  · rfl

theorem not_contextWindow_of_mem_replaceMarkers {added messages : List Message}
    (h : added.any (isContextWindowTimelineMarker parseJson) = true) :
    ∀ m ∈ replaceMarkers parseJson added messages,
      isContextWindowTimelineMarker parseJson m = false := by
  intro m hm
  rw [replaceMarkers, if_pos h] at hm
  have hnone := (mem_filter.mp hm).2
  simpa [isContextWindowTimelineMarker] using hnone

theorem appendsAll_of_base {canonical base : List Message} (xs : List Message)
    (h : (fromFirstUser base).filter (staysInPlace parseJson) =
      (fromFirstUser canonical).filter (staysInPlace parseJson)) :
    AppendsAll parseJson canonical xs (replaceMarkers parseJson xs base ++ xs) := by
  refine ⟨_, rfl, ?_, not_contextWindow_of_mem_replaceMarkers parseJson⟩
  rw [filter_fromFirstUser, filter_replaceMarkers, ← filter_fromFirstUser, h]

/-- Recycling leaves the appended rows in place when at most one of them is an artifact. -/
theorem enforceSingleArtifact_append {xs : List Message}
    (hxs : xs.countP Message.isModelContextArtifactMarker ≤ 1) (kept : List Message) :
    ∃ kept', (enforceSingleArtifact (kept ++ xs)).1 = kept' ++ xs ∧ kept'.Sublist kept ∧
      kept'.filter (fun m => !m.isModelContextArtifactMarker) =
        kept.filter fun m => !m.isModelContextArtifactMarker := by
  rcases artifact_split xs with hnone | ⟨pre, a, post, rfl, ha, hpost⟩
  · rcases artifact_split kept with hkept | ⟨pre, a, post, rfl, ha, hpost⟩
    · refine ⟨kept, ?_, List.Sublist.refl _, rfl⟩
      rw [enforceSingleArtifact_none]
      intro m hm
      rcases mem_append.mp hm with hm | hm
      · exact hkept m hm
      · exact hnone m hm
    · have hbehind : ∀ m ∈ post ++ xs, m.isModelContextArtifactMarker = false := by
        intro m hm
        rcases mem_append.mp hm with hm | hm
        · exact hpost m hm
        · exact hnone m hm
      refine ⟨pre.filter (fun m => !m.isModelContextArtifactMarker) ++ a :: post, ?_, ?_, ?_⟩
      · rw [append_assoc, cons_append, enforceSingleArtifact_split ha hbehind]
        simp
      · exact List.Sublist.append (filter_sublist) (List.Sublist.refl _)
      · simp
  · have hpre : ∀ m ∈ pre, m.isModelContextArtifactMarker = false := by
      intro m hm
      by_contra hbad
      have hone : 0 < pre.countP Message.isModelContextArtifactMarker :=
        countP_pos_iff.mpr ⟨m, hm, by simpa using hbad⟩
      rw [countP_append, countP_cons_of_pos ha] at hxs
      omega
    have hfilter : pre.filter (fun m => !m.isModelContextArtifactMarker) = pre :=
      filter_eq_self.mpr fun m hm => by simp [hpre m hm]
    refine ⟨kept.filter fun m => !m.isModelContextArtifactMarker, ?_, filter_sublist, ?_⟩
    · rw [← append_assoc, enforceSingleArtifact_split ha hpost, filter_append, hfilter,
        append_assoc]
    · rw [filter_filter]
      simp

theorem filter_stays_congr {ms₁ ms₂ : List Message}
    (h : ms₁.filter (fun m => !m.isModelContextArtifactMarker) =
      ms₂.filter fun m => !m.isModelContextArtifactMarker) :
    ms₁.filter (staysInPlace parseJson) = ms₂.filter (staysInPlace parseJson) := by
  have hsplit : ∀ l : List Message, l.filter (staysInPlace parseJson) =
      (l.filter fun m => !m.isModelContextArtifactMarker).filter
        fun m => !isContextWindowTimelineMarker parseJson m := by
    intro l
    rw [filter_filter]
    rfl
  rw [hsplit, h, ← hsplit]

theorem AppendsAll.recycled {canonical xs next : List Message}
    (h : AppendsAll parseJson canonical xs next)
    (hxs : xs.countP Message.isModelContextArtifactMarker ≤ 1) :
    AppendsAll parseJson canonical xs (enforceSingleArtifact next).1 := by
  obtain ⟨kept, rfl, hkept, hmarkers⟩ := h
  obtain ⟨kept', he, hsub, hfilter⟩ := enforceSingleArtifact_append hxs kept
  refine ⟨kept', he, ?_, fun hx m hm => hmarkers hx m (hsub.subset hm)⟩
  rw [← hkept, filter_fromFirstUser, filter_fromFirstUser, filter_stays_congr parseJson hfilter]

section WriteBack

variable {pre xs : List Message} {u : Message}

theorem rposition_withRows (pre : List Message) (hu : realUser u = true) (hxs : ∀ m ∈ xs, realUser m = false) :
    rposition realUser (withRows (pre ++ [u]) xs).messages = some pre.length := by
  rw [withRows, append_assoc, singleton_append]
  exact rposition_append_cons hu hxs

/-- The rows taken for new: context-window markers, and those no parked side row equals. -/
theorem additions_withRows :
    (withRows (pre ++ [u]) xs).additions parseJson pre.length =
      xs.filter fun m => isContextWindowTimelineMarker parseJson m ||
        !((pre ++ [u]).filter sideRow).any (· == m) := by
  have hdrop : ((pre ++ [u]) ++ xs).drop (pre.length + 1) = xs := drop_left' (by simp)
  rw [additions, withRows, hdrop]
  rfl

/-- No row is taken for a parked one when only markers repeat. -/
theorem additions_eq_self_iff (hu : realUser u = true) :
    (withRows (pre ++ [u]) xs).additions parseJson pre.length = xs ↔
      ∀ m ∈ xs, sideRow m = true → m ∈ pre → isContextWindowTimelineMarker parseJson m = true := by
  rw [additions_withRows, filter_eq_self]
  apply forall₂_congr
  intro m _
  have hparked : ((pre ++ [u]).filter sideRow).any (· == m) = true ↔
      sideRow m = true ∧ m ∈ pre := by
    rw [any_parked_iff, mem_append, mem_singleton]
    constructor
    · rintro ⟨hside, hmem | rfl⟩
      · exact ⟨hside, hmem⟩
      · rw [not_realUser_of_sideRow hside] at hu
        cases hu
    · rintro ⟨hside, hmem⟩
      exact ⟨hside, Or.inl hmem⟩
  cases hw : isContextWindowTimelineMarker parseJson m with
  | true => simp
  | false =>
    rw [Bool.false_or, Bool.not_eq_true', ← Bool.not_eq_true, hparked]
    simp

theorem filter_reconciled (pre xs : List Message) (hu : realUser u = true) :
    (fromFirstUser ((withRows (pre ++ [u]) xs).reconciled (pre ++ [u]) pre.length)).filter
        (staysInPlace parseJson) =
      (fromFirstUser (pre ++ [u])).filter (staysInPlace parseJson) := by
  set view := withRows (pre ++ [u]) xs with hview
  have htake : view.messages.take (pre.length + 1) = pre ++ [u] := take_left' (by simp)
  have hnone : removedUsers view (pre ++ [u]) pre.length = 0 := by
    rw [removedUsers, htake, Nat.sub_self]
  have hpos : 0 < countRealUsers (pre ++ [u]) := countP_pos_iff.mpr ⟨u, by simp, hu⟩
  obtain ⟨head, x, rest, hc, hlen, hx, hhead⟩ :=
    tailStart_split view (pre ++ [u]) (hnone.trans_lt hpos)
  have hdrop : (pre ++ [u]).drop (view.tailStart (pre ++ [u]) pre.length) = x :: rest := by
    rw [← hlen, hc]
    exact drop_left
  have hfront : ∀ m ∈ (pre ++ [u]).take (view.firstRemoval (pre ++ [u])) ++
      (if view.summaryReplaced (pre ++ [u]) then (lastSummaryMessage view.messages).toList else []),
      realUser m = false := by
    intro m hm
    rcases mem_append.mp hm with hm | hm
    · exact not_realUser_of_mem_take_firstRemoval view _ m hm
    · split at hm
      · have hsum := lastSummaryMessage_isSummary (Option.mem_toList.mp hm)
        exact Message.not_realUser_of_summary hsum
      · cases hm
  have hhead' : ∀ m ∈ head, realUser m = false := by
    rw [hnone] at hhead
    intro m hm
    simpa using countP_eq_zero.mp hhead m hm
  rw [reconciled, hdrop, fromFirstUser_append hfront, hc, fromFirstUser_append hhead']

/-- Rows without a real user reach no further back than the last real user. -/
theorem length_le_of_append_eq {kept before after : List Message}
    (hxs : ∀ m ∈ xs, realUser m = false) (hu : realUser u = true)
    (h : kept ++ xs = before ++ u :: after) : xs.length ≤ after.length := by
  have hnot : u ∉ xs := fun hmem => by rw [hxs u hmem] at hu; cases hu
  rcases append_eq_append_iff.mp h with ⟨a, -, rfl⟩ | ⟨c, -, hc⟩
  · exact absurd (by simp) hnot
  · cases c with
    | nil => exact absurd (by rw [← nil_append xs, ← hc]; simp) hnot
    | cons y c =>
      rw [cons_append, List.cons.injEq] at hc
      rw [hc.2, length_append]
      omega

theorem append_withRows (pre : List Message) (hu : realUser u = true) (hxs : ∀ m ∈ xs, realUser m = false) :
    ∃ before, ((withRows (pre ++ [u]) xs).appendCurrentTurnTo parseJson (pre ++ [u])).1 =
      before ++ u :: (withRows (pre ++ [u]) xs).additions parseJson pre.length := by
  simp only [appendCurrentTurnTo, rposition_withRows pre hu hxs]
  set added := (withRows (pre ++ [u]) xs).additions parseJson pre.length
  split
  · next hempty =>
    rw [List.isEmpty_iff.mp hempty]
    exact ⟨pre, rfl⟩
  · change ∃ before, replaceMarkers parseJson added (pre ++ [u]) ++ added = before ++ u :: added
    have huw : (contextWindowTimelineKind parseJson u).isNone = true := by
      have hstay := staysInPlace_of_realUser parseJson hu
      simp only [staysInPlace, isContextWindowTimelineMarker, Bool.and_eq_true] at hstay
      simpa using hstay.1
    unfold replaceMarkers
    split
    · refine ⟨stripContextWindowTimelineMarkers parseJson pre, ?_⟩
      simp [stripContextWindowTimelineMarkers, huw]
    · exact ⟨pre, by simp⟩

/-- Both write-backs keep every row of the turn exactly when no appended row repeats a parked
side row, context-window markers apart, and at most one is an artifact. -/
theorem turn_rows_written_back_iff (hu : realUser u = true)
    (hxs : ∀ m ∈ xs, realUser m = false) :
    (AppendsAll parseJson (pre ++ [u]) xs
        ((withRows (pre ++ [u]) xs).commitCurrentTurnTo parseJson (pre ++ [u])).1 ∧
      AppendsAll parseJson (pre ++ [u]) xs
        ((withRows (pre ++ [u]) xs).appendCurrentTurnTo parseJson (pre ++ [u])).1) ↔
    (∀ m ∈ xs, sideRow m = true → m ∈ pre → isContextWindowTimelineMarker parseJson m = true) ∧
      xs.countP Message.isModelContextArtifactMarker ≤ 1 := by
  have hanchor := rposition_withRows pre hu hxs
  constructor
  · rintro ⟨⟨kept, hcommit, -⟩, ⟨kept', happend, -⟩⟩
    constructor
    · -- a dropped row would make the rows behind the current user too few
      obtain ⟨before, hbefore⟩ := append_withRows parseJson pre hu hxs
      have hle := length_le_of_append_eq hxs hu (happend.symm.trans hbefore)
      rw [← additions_eq_self_iff parseJson hu, additions_withRows]
      rw [additions_withRows] at hle
      exact filter_sublist.eq_of_length_le hle
    · have hone := enforceSingleArtifact_countP
        ((withRows (pre ++ [u]) xs).joined parseJson (pre ++ [u]) pre.length)
      rw [commit_of_anchor parseJson _ _ hanchor] at hcommit
      rw [hcommit, countP_append] at hone
      omega
  · rintro ⟨hfresh, hart⟩
    have hadd := (additions_eq_self_iff parseJson hu).mpr hfresh
    constructor
    · have hjoined := (appendsAll_of_base parseJson xs (filter_reconciled parseJson pre xs hu)).recycled _ hart
      have heq : (withRows (pre ++ [u]) xs).joined parseJson (pre ++ [u]) pre.length =
          replaceMarkers parseJson xs
            ((withRows (pre ++ [u]) xs).reconciled (pre ++ [u]) pre.length) ++ xs := by
        simp only [joined, hadd, replaceMarkers]
      rw [commit_of_anchor parseJson _ _ hanchor, heq]
      exact hjoined
    · simp only [appendCurrentTurnTo, hanchor, hadd]
      split
      · next hempty =>
        rw [List.isEmpty_iff.mp hempty]
        exact ⟨pre ++ [u], by simp, rfl, by simp⟩
      · exact appendsAll_of_base parseJson xs rfl

/-- A turn that answers with one assistant row. -/
theorem turn_rows_written_back_answer :
    (∀ m ∈ [assistantRow "done"], sideRow m = true → m ∈ [timelineRow "note"] →
      isContextWindowTimelineMarker (fun _ => none) m = true) ∧
    AppendsAll (fun _ => none) ([timelineRow "note"] ++ [.userOnly "hi"]) [assistantRow "done"]
      ((withRows ([timelineRow "note"] ++ [.userOnly "hi"])
        [assistantRow "done"]).commitCurrentTurnTo (fun _ => none)
          ([timelineRow "note"] ++ [.userOnly "hi"])).1 :=
  ⟨by decide, ((turn_rows_written_back_iff (fun _ => none) (by decide) (by decide)).mpr
    ⟨by decide, by decide⟩).1⟩

/-- A turn that writes the timeline row of an earlier turn again: the row is taken for the
parked one and lost. -/
theorem repeated_timeline_row_is_lost :
    ¬ ∀ (parseJson : String → Option JsonValue) (pre xs : List Message) (u : Message),
      realUser u = true → (∀ m ∈ xs, realUser m = false) →
      AppendsAll parseJson (pre ++ [u]) xs
        ((withRows (pre ++ [u]) xs).commitCurrentTurnTo parseJson (pre ++ [u])).1 ∧
      AppendsAll parseJson (pre ++ [u]) xs
        ((withRows (pre ++ [u]) xs).appendCurrentTurnTo parseJson (pre ++ [u])).1 := by
  intro h
  obtain ⟨-, kept, hkept, -⟩ := h (fun _ => none) [.userOnly "hi", timelineRow "note"]
    [timelineRow "note"] (.userOnly "again") (by decide) (by decide)
  have hsame : ((withRows ([.userOnly "hi", timelineRow "note"] ++ [.userOnly "again"])
      [timelineRow "note"]).appendCurrentTurnTo (fun _ => none)
        ([.userOnly "hi", timelineRow "note"] ++ [.userOnly "again"])).1 =
      [.userOnly "hi", timelineRow "note"] ++ [.userOnly "again"] := by decide
  rw [hsame] at hkept
  have hlast := congrArg List.getLast? hkept
  rw [getLast?_concat, getLast?_concat] at hlast
  exact absurd hlast (by decide)

end WriteBack
end ModelContextView
end CrabMate
