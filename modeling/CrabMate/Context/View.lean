import CrabMate.Lib.Positions
import CrabMate.Types.Message

/-! The model-context view of one agent turn and its commit into the canonical history.
The view is a copy of the history that compaction and tool rounds may rewrite; a commit
finds the boundary again by counting real users and moves the removed prefix, the replaced
summary and the superfluous artifact rows out of the history. -/
namespace CrabMate
open Positions List

section Timeline

-- The JSON reader that decides which timeline rows describe the context window.
variable (parseJson : String → Option JsonValue)

inductive ContextWindowKind where
  | inject
  | trim
  deriving DecidableEq

def contextWindowTimelineKind (m : Message) : Option ContextWindowKind :=
  if m.isChatTimelineMarker then
    ((messageContentAsStr m.content).bind parseJson).bind fun v =>
      match (v.get? "kind").bind JsonValue.asStr? with
      | some "context_inject" => some .inject
      | some "context_trim" => some .trim
      | _ => none
  else none

def isContextWindowTimelineMarker (m : Message) : Bool :=
  (contextWindowTimelineKind parseJson m).isSome

def stripContextWindowTimelineMarkers (messages : List Message) : List Message :=
  messages.filter fun m => (contextWindowTimelineKind parseJson m).isNone

theorem timeline_of_contextWindow {m : Message}
    (h : isContextWindowTimelineMarker parseJson m = true) : m.isChatTimelineMarker = true := by
  cases ht : m.isChatTimelineMarker with
  | true => rfl
  | false => simp [isContextWindowTimelineMarker, contextWindowTimelineKind, ht] at h

theorem count_strip (messages : List Message) {m : Message}
    (hm : isContextWindowTimelineMarker parseJson m = false) :
    (stripContextWindowTimelineMarkers parseJson messages).count m = messages.count m := by
  apply count_filter
  simpa [isContextWindowTimelineMarker] using hm

end Timeline

abbrev realUser (m : Message) : Bool := m.userMessageCountsForBranchTruncation

def countRealUsers (messages : List Message) : ℕ := messages.countP realUser

def nthRealUserIndex (messages : List Message) (n : ℕ) : Option ℕ := nthIndex realUser messages n

def lastSummaryMessage (messages : List Message) : Option Message :=
  messages.reverse.find? fun m =>
    m.role == "user" && m.name == some crabmateContextSummaryName

/-- Keeps the last artifact row; the earlier ones are returned in order. -/
def enforceSingleArtifact (messages : List Message) : List Message × List Message :=
  let positions := indices Message.isModelContextArtifactMarker messages
  match positions.getLast? with
  | none => (messages, [])
  | some keep =>
    let recycled := positions.dropLast
    let archived := recycled.filterMap (messages[·]?)
    let kept := messages.zipIdx.filter fun e => e.2 == keep || !recycled.contains e.2
    (kept.map Prod.fst, archived)

theorem enforceSingleArtifact_none {messages : List Message}
    (h : ∀ m ∈ messages, m.isModelContextArtifactMarker = false) :
    enforceSingleArtifact messages = (messages, []) := by
  simp [enforceSingleArtifact, indices_eq_nil_iff.mpr h]

/-- Around the last artifact row, everything after it and every ordinary row before it stay. -/
theorem enforceSingleArtifact_split {pre post : List Message} {a : Message}
    (ha : a.isModelContextArtifactMarker = true)
    (hp : ∀ m ∈ post, m.isModelContextArtifactMarker = false) :
    enforceSingleArtifact (pre ++ a :: post) =
      ((pre.filter fun m => !m.isModelContextArtifactMarker) ++ a :: post,
        pre.filter Message.isModelContextArtifactMarker) := by
  have hi : indices Message.isModelContextArtifactMarker (pre ++ a :: post) =
      indices Message.isModelContextArtifactMarker pre ++ [pre.length] := indices_append_cons ha hp
  have hlow : ∀ e ∈ pre.zipIdx, (e.2 == pre.length) = false := by
    intro e he
    have hlt := (List.getElem?_eq_some_iff.mp (mem_zipIdx_iff_getElem?.mp he)).1
    simpa using hlt.ne
  have hhigh : ∀ e ∈ (a :: post).zipIdx pre.length,
      (e.2 == pre.length ||
        !(indices Message.isModelContextArtifactMarker pre).contains e.2) = true := by
    intro e he
    have hle : pre.length ≤ e.2 := le_snd_of_mem_zipIdx he
    have hn : e.2 ∉ indices Message.isModelContextArtifactMarker pre :=
      fun hmem => absurd (lt_of_mem_indices hmem) (by omega)
    simp [hn]
  simp only [enforceSingleArtifact, hi, getLast?_concat, dropLast_concat,
    filterMap_getElem?_indices, zipIdx_append, Nat.zero_add, filter_append,
    map_append, filter_eq_self.mpr hhigh, zipIdx_map_fst]
  rw [← retain_not_indices]
  congr 3
  apply filter_congr
  intro e he
  simp [hlow e he]

theorem artifact_split (messages : List Message) :
    (∀ m ∈ messages, m.isModelContextArtifactMarker = false) ∨
      ∃ pre a post, messages = pre ++ a :: post ∧ a.isModelContextArtifactMarker = true ∧
        ∀ m ∈ post, m.isModelContextArtifactMarker = false := by
  cases h : rposition Message.isModelContextArtifactMarker messages with
  | none => exact .inl (rposition_eq_none_iff.mp h)
  | some i =>
    obtain ⟨pre, a, post, he, -, ha, hp⟩ := rposition_eq_some h
    exact .inr ⟨pre, a, post, he, ha, hp⟩

theorem enforceSingleArtifact_countP (messages : List Message) :
    (enforceSingleArtifact messages).1.countP Message.isModelContextArtifactMarker ≤ 1 := by
  rcases artifact_split messages with h | ⟨pre, a, post, rfl, ha, hp⟩
  · rw [enforceSingleArtifact_none h]
    exact (countP_eq_zero.mpr fun m hm => by simp [h m hm]).le.trans (by omega)
  · have hpost : post.countP Message.isModelContextArtifactMarker = 0 :=
      countP_eq_zero.mpr fun m hm => by simp [hp m hm]
    rw [enforceSingleArtifact_split ha hp]
    simp [ha, hpost, countP_eq_zero]

theorem enforceSingleArtifact_count (messages : List Message) (m : Message) :
    messages.count m =
      (enforceSingleArtifact messages).1.count m + (enforceSingleArtifact messages).2.count m := by
  rcases artifact_split messages with h | ⟨pre, a, post, rfl, ha, hp⟩
  · simp [enforceSingleArtifact_none h]
  · have hpre := (filter_append_perm Message.isModelContextArtifactMarker pre).count_eq m
    rw [enforceSingleArtifact_split ha hp]
    simp only [count_append] at hpre ⊢
    omega

theorem enforceSingleArtifact_filter (p : Message → Bool) (messages : List Message)
    (hp : ∀ m, m.isModelContextArtifactMarker = true → p m = false) :
    (enforceSingleArtifact messages).1.filter p = messages.filter p := by
  rcases artifact_split messages with h | ⟨pre, a, post, rfl, ha, hpost⟩
  · rw [enforceSingleArtifact_none h]
  · rw [enforceSingleArtifact_split ha hpost]
    simp only [filter_append, filter_filter]
    congr 1
    apply filter_congr
    intro m _
    cases hm : m.isModelContextArtifactMarker with
    | true => simp [hp m hm]
    | false => simp

theorem drop_length_takeWhile (p : Message → Bool) (messages : List Message) :
    messages.drop (messages.takeWhile p).length = messages.dropWhile p := by
  induction messages with
  | nil => rfl
  | cons m messages ih => cases h : p m <;> simp [h, ih]

/-- The rows `messages[start..stop]`. -/
def slice (messages : List Message) (start stop : ℕ) : List Message :=
  (messages.take stop).drop start

theorem take_slice_drop (messages : List Message) {start stop : ℕ} (h : start ≤ stop) :
    messages.take start ++ (slice messages start stop ++ messages.drop stop) = messages := by
  have ht : (messages.take stop).take start = messages.take start := by
    rw [take_take, Nat.min_eq_left h]
  rw [slice, ← append_assoc, ← ht, take_append_drop, take_append_drop]

structure ModelContextView where
  messages : List Message
  canonicalMessageCountBeforeTurn : ℕ
  originalParkedSidecars : List Message

namespace ModelContextView

def derive (canonical : List Message) : ModelContextView where
  messages := canonical
  canonicalMessageCountBeforeTurn := canonical.length
  originalParkedSidecars := canonical.filter fun m =>
    m.isChatTimelineMarker || m.isModelContextArtifactMarker

variable (parseJson : String → Option JsonValue) (view : ModelContextView)
  (canonical : List Message)

/-- The messages the turn added after the anchor, without the parked side rows. -/
def additions (viewAnchor : ℕ) : List Message :=
  (view.messages.drop (viewAnchor + 1)).filter fun m =>
    isContextWindowTimelineMarker parseJson m || !view.originalParkedSidecars.any (· == m)

def summaryReplaced : Bool :=
  match lastSummaryMessage view.messages, lastSummaryMessage canonical with
  | some v, some existing => v != existing
  | some _, none => true
  | _, _ => false

def firstRemoval : ℕ :=
  if view.summaryReplaced canonical then
    if (canonical.head?.any fun m => m.role == "system") then 1 else 0
  else (nthRealUserIndex canonical 0).getD canonical.length

def tailStart (viewAnchor : ℕ) : ℕ :=
  let removedUsers :=
    countRealUsers canonical - countRealUsers (view.messages.take (viewAnchor + 1))
  max ((nthRealUserIndex canonical removedUsers).getD canonical.length)
    (view.firstRemoval canonical)

/-- The loop that steps over summary rows at the start of the removed range. -/
def skipSummaries (start stop : ℕ) : ℕ :=
  start + ((slice canonical start stop).takeWhile Message.isContextSummaryInjection).length

/-- The history without the removed range, with the view's summary when it is new. -/
def reconciled (viewAnchor : ℕ) : List Message :=
  canonical.take (view.firstRemoval canonical) ++
    (if view.summaryReplaced canonical then (lastSummaryMessage view.messages).toList else []) ++
    canonical.drop (view.tailStart canonical viewAnchor)

def commitCurrentTurnTo : List Message × StructuralCommit :=
  match rposition realUser view.messages with
  | none => (canonical, .empty)
  | some viewAnchor =>
    let additions := view.additions parseJson viewAnchor
    let tailStart := view.tailStart canonical viewAnchor
    let removalStart := skipSummaries canonical (view.firstRemoval canonical) tailStart
    let next := view.reconciled canonical viewAnchor
    let next :=
      if additions.any (isContextWindowTimelineMarker parseJson) then
        stripContextWindowTimelineMarkers parseJson next
      else next
    let (next, archivedArtifacts) := enforceSingleArtifact (next ++ additions)
    (next, {
      archivedPrefix := slice canonical removalStart tailStart
      prefixSummarized := view.summaryReplaced canonical
      archivedArtifacts := archivedArtifacts
      appended := additions.length
      rangeStart := removalStart
      rangeEnd := tailStart })

/-- The interrupted turn only appends; no prefix leaves the history. -/
def appendCurrentTurnTo : List Message × ℕ :=
  match rposition realUser view.messages with
  | none => (canonical, 0)
  | some viewAnchor =>
    let additions := view.additions parseJson viewAnchor
    if additions.isEmpty then (canonical, 0)
    else
      let kept :=
        if additions.any (isContextWindowTimelineMarker parseJson) then
          stripContextWindowTimelineMarkers parseJson canonical
        else canonical
      (kept ++ additions, additions.length)

section Boundaries

theorem firstRemoval_le_length : view.firstRemoval canonical ≤ canonical.length := by
  unfold firstRemoval
  split
  · cases canonical with
    | nil => simp
    | cons m ms => split <;> simp
  · cases h : nthRealUserIndex canonical 0 with
    | none => simp
    | some i => exact (nthIndex_le h).le

theorem tailStart_le_length (viewAnchor : ℕ) :
    view.tailStart canonical viewAnchor ≤ canonical.length := by
  apply max_le _ (view.firstRemoval_le_length canonical)
  cases h : nthRealUserIndex canonical
      (countRealUsers canonical - countRealUsers (view.messages.take (viewAnchor + 1))) with
  | none => simp
  | some i => exact (nthIndex_le h).le

theorem firstRemoval_le_tailStart (viewAnchor : ℕ) :
    view.firstRemoval canonical ≤ view.tailStart canonical viewAnchor :=
  le_max_right _ _

theorem slice_skipSummaries (start stop : ℕ) :
    slice canonical start stop =
      (slice canonical start stop).takeWhile Message.isContextSummaryInjection ++
        slice canonical (skipSummaries canonical start stop) stop := by
  have hdrop : slice canonical (skipSummaries canonical start stop) stop =
      (slice canonical start stop).dropWhile Message.isContextSummaryInjection := by
    rw [← drop_length_takeWhile]
    simp [slice, skipSummaries, drop_drop]
  rw [hdrop, takeWhile_append_dropWhile]

theorem skipSummaries_le {start stop : ℕ} (h : start ≤ stop) (hs : stop ≤ canonical.length) :
    skipSummaries canonical start stop ≤ stop := by
  have hlen : (slice canonical start stop).length = stop - start := by
    simp [slice, Nat.min_eq_left hs]
  have hw := (List.takeWhile_prefix Message.isContextSummaryInjection
    (l := slice canonical start stop)).length_le
  unfold skipSummaries
  omega

/-- The history is the kept head, dropped summary rows, the archived slice and the kept
tail, in this order. -/
theorem canonical_split (viewAnchor : ℕ) :
    ∃ head summaries tail,
      canonical = head ++ (summaries ++ (slice canonical
        (skipSummaries canonical (view.firstRemoval canonical)
          (view.tailStart canonical viewAnchor))
        (view.tailStart canonical viewAnchor) ++ tail)) ∧
      (∀ m ∈ summaries, m.isContextSummaryInjection = true) ∧
      head = canonical.take (view.firstRemoval canonical) ∧
      tail = canonical.drop (view.tailStart canonical viewAnchor) := by
  have hsplit := take_slice_drop canonical (view.firstRemoval_le_tailStart canonical viewAnchor)
  rw [slice_skipSummaries, append_assoc] at hsplit
  exact ⟨_, _, _, hsplit.symm, fun m hm => mem_takeWhile_imp hm, rfl, rfl⟩

end Boundaries

section Commit

theorem commit_of_no_anchor (h : rposition realUser view.messages = none) :
    view.commitCurrentTurnTo parseJson canonical = (canonical, .empty) := by
  simp [commitCurrentTurnTo, h]

/-- The rows in front of the final artifact recycling. -/
def joined (viewAnchor : ℕ) : List Message :=
  (if (view.additions parseJson viewAnchor).any (isContextWindowTimelineMarker parseJson) then
    stripContextWindowTimelineMarkers parseJson (view.reconciled canonical viewAnchor)
  else view.reconciled canonical viewAnchor) ++ view.additions parseJson viewAnchor

theorem commit_of_anchor {viewAnchor : ℕ}
    (h : rposition realUser view.messages = some viewAnchor) :
    view.commitCurrentTurnTo parseJson canonical =
      ((enforceSingleArtifact (view.joined parseJson canonical viewAnchor)).1, {
        archivedPrefix := slice canonical
          (skipSummaries canonical (view.firstRemoval canonical)
            (view.tailStart canonical viewAnchor))
          (view.tailStart canonical viewAnchor)
        prefixSummarized := view.summaryReplaced canonical
        archivedArtifacts := (enforceSingleArtifact (view.joined parseJson canonical viewAnchor)).2
        appended := (view.additions parseJson viewAnchor).length
        rangeStart := skipSummaries canonical (view.firstRemoval canonical)
          (view.tailStart canonical viewAnchor)
        rangeEnd := view.tailStart canonical viewAnchor }) := by
  simp only [commitCurrentTurnTo, h, joined]

/-- Outside summary and context-window rows, no row of the history is lost by the splice. -/
theorem count_le_joined (viewAnchor : ℕ) {m : Message}
    (hs : m.isContextSummaryInjection = false)
    (hw : isContextWindowTimelineMarker parseJson m = false) :
    canonical.count m ≤ (view.joined parseJson canonical viewAnchor).count m +
      (slice canonical
        (skipSummaries canonical (view.firstRemoval canonical)
          (view.tailStart canonical viewAnchor))
        (view.tailStart canonical viewAnchor)).count m := by
  obtain ⟨head, summaries, tail, hc, hsum, hhead, htail⟩ :=
    view.canonical_split canonical viewAnchor
  have hzero : summaries.count m = 0 :=
    count_eq_zero.mpr fun hm => by simp [hsum m hm] at hs
  have hcount := congrArg (List.count m) hc
  have hrec : head.count m + tail.count m ≤ (view.reconciled canonical viewAnchor).count m := by
    rw [reconciled, ← hhead, ← htail]
    simp only [count_append]
    omega
  have hjoin : (view.reconciled canonical viewAnchor).count m ≤
      (view.joined parseJson canonical viewAnchor).count m := by
    rw [joined, count_append]
    split
    · rw [count_strip parseJson _ hw]
      omega
    · omega
  simp only [count_append] at hcount
  omega

end Commit

end ModelContextView

/-- What a commit may do with the rows of the old history: every ordinary row is still in
the new history or was archived, and the archived prefix is one verbatim range. -/
structure Conserves (parseJson : String → Option JsonValue) (old next : List Message)
    (commit : StructuralCommit) : Prop where
  count_le : ∀ m, m.isContextSummaryInjection = false →
    isContextWindowTimelineMarker parseJson m = false →
    old.count m ≤ (next ++ commit.archivedPrefix ++ commit.archivedArtifacts).count m
  range : commit.rangeStart ≤ commit.rangeEnd ∧ commit.rangeEnd ≤ old.length
  verbatim : commit.archivedPrefix = slice old commit.rangeStart commit.rangeEnd

/-- Every commit conserves the history. With a real user in the view the new history holds at
most one artifact row; without one the commit leaves the history as it was. -/
theorem commit_conserves (parseJson : String → Option JsonValue) (view : ModelContextView)
    (canonical : List Message) :
    Conserves parseJson canonical (view.commitCurrentTurnTo parseJson canonical).1
      (view.commitCurrentTurnTo parseJson canonical).2 ∧
    (if view.messages.any realUser then
      (view.commitCurrentTurnTo parseJson canonical).1.countP
        Message.isModelContextArtifactMarker ≤ 1
    else (view.commitCurrentTurnTo parseJson canonical).1 = canonical) := by
  cases h : rposition realUser view.messages with
  | none =>
    have hnone := rposition_eq_none_iff.mp h
    have hany : view.messages.any realUser = false := by simpa using hnone
    rw [view.commit_of_no_anchor parseJson canonical h]
    exact ⟨⟨fun m _ _ => by simp [StructuralCommit.empty], by simp [StructuralCommit.empty],
      by simp [StructuralCommit.empty, slice]⟩, by simp [hany]⟩
  | some viewAnchor =>
    obtain ⟨pre, u, post, hv, -, hu, -⟩ := rposition_eq_some h
    have hany : view.messages.any realUser = true := by simp [hv, hu]
    rw [view.commit_of_anchor parseJson canonical h, if_pos hany]
    have hle := view.firstRemoval_le_tailStart canonical viewAnchor
    have hlen := view.tailStart_le_length canonical viewAnchor
    refine ⟨⟨fun m hs hw => ?_, ⟨ModelContextView.skipSummaries_le canonical hle hlen, hlen⟩, rfl⟩,
      enforceSingleArtifact_countP _⟩
    have hjoin := view.count_le_joined parseJson canonical viewAnchor hs hw
    have hart := enforceSingleArtifact_count (view.joined parseJson canonical viewAnchor) m
    simp only [count_append]
    omega

/-- A history of two artifact rows: the view derived from it has no anchor. -/
theorem commit_keeps_two_artifacts :
    ¬ ∀ (parseJson : String → Option JsonValue) (view : ModelContextView)
        (canonical : List Message),
      Conserves parseJson canonical (view.commitCurrentTurnTo parseJson canonical).1
        (view.commitCurrentTurnTo parseJson canonical).2 ∧
      (view.commitCurrentTurnTo parseJson canonical).1.countP
        Message.isModelContextArtifactMarker ≤ 1 := by
  intro h
  let artifact : Message :=
    ⟨"system", some (.text "x"), none, none, none, some crabmateModelContextArtifactName, none⟩
  have hbad := (h (fun _ => none) (.derive [artifact, artifact]) [artifact, artifact]).2
  exact absurd hbad (by decide)

section Order

variable (parseJson : String → Option JsonValue) (p : Message → Bool)

/-- Summary, artifact and timeline rows are written by the server beside the conversation. -/
structure IgnoresSideRows : Prop where
  summary : ∀ m, m.isContextSummaryInjection = true → p m = false
  artifact : ∀ m, m.isModelContextArtifactMarker = true → p m = false
  timeline : ∀ m, m.isChatTimelineMarker = true → p m = false

theorem realUser_ignoresSideRows : IgnoresSideRows realUser where
  summary _ h := Message.not_realUser_of_summary h
  artifact _ h := Message.not_realUser_of_system (Message.role_of_artifact h)
  timeline _ h := Message.not_realUser_of_system (Message.role_of_timeline h)

variable {p}

theorem IgnoresSideRows.filter_strip (hp : IgnoresSideRows p) (messages : List Message) :
    (stripContextWindowTimelineMarkers parseJson messages).filter p = messages.filter p := by
  rw [stripContextWindowTimelineMarkers, filter_filter]
  apply filter_congr
  intro m _
  cases hk : (contextWindowTimelineKind parseJson m).isNone with
  | true => simp
  | false =>
    have hw : isContextWindowTimelineMarker parseJson m = true := by
      simpa [isContextWindowTimelineMarker, Option.isSome_iff_ne_none] using hk
    simp [hp.timeline m (timeline_of_contextWindow parseJson hw)]

theorem lastSummaryMessage_isSummary {messages : List Message} {m : Message}
    (h : lastSummaryMessage messages = some m) : m.isContextSummaryInjection = true := by
  have hm := find?_some h
  simp only [Bool.and_eq_true] at hm
  simp [Message.isContextSummaryInjection, hm.1, hm.2]

/-- When the kept head has no conversation row, the new history is the kept tail followed by
the turn's additions. -/
theorem commit_next_filter (hp : IgnoresSideRows p) (view : ModelContextView)
    (canonical : List Message) {viewAnchor : ℕ}
    (h : rposition realUser view.messages = some viewAnchor)
    (hhead : (canonical.take (view.firstRemoval canonical)).filter p = []) :
    (view.commitCurrentTurnTo parseJson canonical).1.filter p =
      (canonical.drop (view.tailStart canonical viewAnchor)).filter p ++
        (view.additions parseJson viewAnchor).filter p := by
  have hnew : (if view.summaryReplaced canonical then
      (lastSummaryMessage view.messages).toList else []).filter p = [] := by
    split
    · cases hl : lastSummaryMessage view.messages with
      | none => rfl
      | some s => simp [hp.summary s (lastSummaryMessage_isSummary hl)]
    · rfl
  have hrec : (view.reconciled canonical viewAnchor).filter p =
      (canonical.drop (view.tailStart canonical viewAnchor)).filter p := by
    simp only [ModelContextView.reconciled, filter_append, hhead, hnew, nil_append]
  rw [view.commit_of_anchor parseJson canonical h]
  simp only [enforceSingleArtifact_filter p _ hp.artifact, ModelContextView.joined,
    filter_append]
  split
  · rw [hp.filter_strip, hrec]
  · rw [hrec]

/-- The archived prefix followed by the new history is the old conversation followed by the
turn's additions. -/
theorem commit_filter (hp : IgnoresSideRows p) (view : ModelContextView)
    (canonical : List Message) {viewAnchor : ℕ}
    (h : rposition realUser view.messages = some viewAnchor)
    (hhead : (canonical.take (view.firstRemoval canonical)).filter p = []) :
    (view.commitCurrentTurnTo parseJson canonical).2.archivedPrefix.filter p ++
        (view.commitCurrentTurnTo parseJson canonical).1.filter p =
      canonical.filter p ++ (view.additions parseJson viewAnchor).filter p := by
  obtain ⟨head, summaries, tail, hc, hsum, rfl, rfl⟩ := view.canonical_split canonical viewAnchor
  have hsum' : summaries.filter p = [] :=
    filter_eq_nil_iff.mpr fun m hm => by simp [hp.summary m (hsum m hm)]
  have hcan := congrArg (List.filter p) hc
  simp only [filter_append, hhead, hsum', nil_append] at hcan
  rw [commit_next_filter parseJson hp view canonical h hhead,
    view.commit_of_anchor parseJson canonical h, ← append_assoc, ← hcan]

theorem not_realUser_of_mem_take_firstRemoval (view : ModelContextView) (canonical : List Message) :
    ∀ m ∈ canonical.take (view.firstRemoval canonical), realUser m = false := by
  unfold ModelContextView.firstRemoval
  split
  · cases canonical with
    | nil => simp
    | cons m ms =>
      split
      · next hsys =>
        have hrole : m.role = "system" := by simpa using hsys
        intro x hx
        obtain rfl : x = m := by simpa using hx
        exact Message.not_realUser_of_system hrole
      · simp
  · unfold nthRealUserIndex
    cases hn : nthIndex realUser canonical 0 with
    | none =>
      have hzero := Nat.le_zero.mp (nthIndex_eq_none_iff.mp hn)
      intro m hm
      simpa using countP_eq_zero.mp hzero m (mem_of_mem_take hm)
    | some i =>
      obtain ⟨pre, x, post, rfl, rfl, -, hzero⟩ := nthIndex_eq_some hn
      intro m hm
      rw [Option.getD_some, take_left] at hm
      simpa using countP_eq_zero.mp hzero m hm

/-- The users that left the view. -/
def removedUsers (view : ModelContextView) (canonical : List Message) (viewAnchor : ℕ) : ℕ :=
  countRealUsers canonical - countRealUsers (view.messages.take (viewAnchor + 1))

/-- While the view keeps a user of the history, the kept tail starts at a real user, behind the
users that left the view. -/
theorem tailStart_split (view : ModelContextView) (canonical : List Message) {viewAnchor : ℕ}
    (hcount : removedUsers view canonical viewAnchor < countRealUsers canonical) :
    ∃ pre x post, canonical = pre ++ x :: post ∧ pre.length = view.tailStart canonical viewAnchor ∧
      realUser x = true ∧ pre.countP realUser = removedUsers view canonical viewAnchor := by
  cases hn : nthRealUserIndex canonical (removedUsers view canonical viewAnchor) with
  | none => exact absurd (nthIndex_eq_none_iff.mp hn) (by unfold countRealUsers at hcount; omega)
  | some i =>
    obtain ⟨pre, x, post, hc, rfl, hx, hpre⟩ := nthIndex_eq_some hn
    have hfirst : view.firstRemoval canonical ≤ pre.length := by
      by_contra hlt
      have hmem : x ∈ canonical.take (view.firstRemoval canonical) := by
        rw [hc, mem_take_iff_getElem]
        exact ⟨pre.length, by rw [← hc]; have := view.firstRemoval_le_length canonical; omega,
          by simp⟩
      rw [not_realUser_of_mem_take_firstRemoval view canonical x hmem] at hx
      cases hx
    refine ⟨pre, x, post, hc, ?_, hx, hpre⟩
    rw [removedUsers] at hn
    rw [ModelContextView.tailStart, hn, Option.getD_some, Nat.max_eq_left hfirst]

theorem drop_tailStart (view : ModelContextView) (canonical : List Message) {viewAnchor : ℕ}
    (hcount : countRealUsers canonical - countRealUsers (view.messages.take (viewAnchor + 1)) <
      countRealUsers canonical) :
    ∃ x rest, canonical.drop (view.tailStart canonical viewAnchor) = x :: rest ∧
      realUser x = true := by
  obtain ⟨pre, x, post, hc, hlen, hx, -⟩ := tailStart_split view canonical hcount
  refine ⟨x, post, ?_, hx⟩
  rw [← hlen]
  nth_rewrite 1 [hc]
  exact drop_left

end Order
end CrabMate
