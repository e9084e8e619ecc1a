import CrabMate.Context.Budget
import CrabMate.Llm.VendorBody

/-! The recipe a model call leaves behind: how many groups the call removed from its view and how
many rows its summary kept. At the end of the turn the counts are bound to ranges of the history,
from which the removed rows are replayed. -/
namespace CrabMate
open Positions List Option

section Model

/-- A half-open range of rows of the history. -/
structure CanonicalMessageRange where
  start : ℕ
  stop : ℕ
  deriving DecidableEq

/-- The order of the sort keys. -/
def CanonicalMessageRange.le (a b : CanonicalMessageRange) : Bool :=
  a.start < b.start || (a.start == b.start && a.stop ≤ b.stop)

structure ModelContextArtifact where
  modelCallSequence : ℕ
  canonicalMessageCountBeforeTurn : ℕ
  modelViewMessageCount : ℕ
  -- of the compaction report
  removedTurnGroups : ℕ
  summaryText : Option String
  removedTurnGroupRanges : List CanonicalMessageRange
  summarizedCanonicalRange : Option CanonicalMessageRange
  summaryTailKept : Option ℕ
  currentTurnMessages : List Message
  deriving DecidableEq

/-- The text of a summary row. -/
def summaryRowText? (m : Message) : Option String :=
  if m.role = "user" ∧ m.name = some crabmateContextSummaryName then
    match m.content with
    | some (.text text) => some text
    | _ => none
  else none

namespace ModelContextArtifact

def capture (modelCallSequence canonicalMessageCountBeforeTurn : ℕ) (modelMessages : List Message)
    (removedTurnGroups : ℕ) (summaryTailKept : Option ℕ) : ModelContextArtifact where
  modelCallSequence
  canonicalMessageCountBeforeTurn
  modelViewMessageCount := modelMessages.length
  removedTurnGroups
  summaryText := modelMessages.reverse.findSome? summaryRowText?
  removedTurnGroupRanges := []
  summarizedCanonicalRange := none
  summaryTailKept
  currentTurnMessages :=
    match rposition realUser modelMessages with
    | none => []
    | some start => (modelMessages.drop start).filter fun m =>
        !m.isServerInjectedUserMessage && !m.isExecutionConstraintEphemeralSystem &&
          !m.isExcludedFromLlmContextExceptMemory

/-- The summarised range first; the removed groups are taken from behind it. -/
def bindCanonicalRanges (artifact : ModelContextArtifact) (canonical : List Message) :
    ModelContextArtifact :=
  let prefixLen := min artifact.canonicalMessageCountBeforeTurn canonical.length
  let rows := canonical.take prefixLen
  let summarized := artifact.summaryTailKept.bind fun tail =>
    let start := if (rows.head?.any fun m => m.role == "system") then 1 else 0
    let stop := prefixLen - tail
    if start < stop then some ⟨start, stop⟩ else none
  let groupsStart := min ((summarized.map CanonicalMessageRange.stop).getD 0) prefixLen
  { artifact with
    summarizedCanonicalRange := summarized
    removedTurnGroupRanges :=
      ((conversationTurnGroups (rows.drop groupsStart)).take artifact.removedTurnGroups).map
        fun group => ⟨group.start + groupsStart, group.stop + groupsStart⟩ }

/-- The rows of the ranges, each row once; `lastEnd` is the end of what is replayed so far. -/
def replayFrom (canonical : List Message) (lastEnd : ℕ) :
    List CanonicalMessageRange → List Message
  | [] => []
  | range :: ranges =>
    let start := min (max range.start lastEnd) canonical.length
    let stop := min range.stop canonical.length
    if start < stop then slice canonical start stop ++ replayFrom canonical stop ranges
    else replayFrom canonical lastEnd ranges

def replayRemovedMessages (artifact : ModelContextArtifact) (canonical : List Message) :
    List Message :=
  replayFrom canonical 0 <|
    (artifact.removedTurnGroupRanges ++ artifact.summarizedCanonicalRange.toList).mergeSort
      CanonicalMessageRange.le

/-- What the end of the turn does with an artifact. -/
def bindAtTurnEnd (artifact : ModelContextArtifact) (view : ModelContextView)
    (canonical : List Message) : ModelContextArtifact :=
  { artifact with
    canonicalMessageCountBeforeTurn :=
      view.canonicalMessageCountBeforeTurn }.bindCanonicalRanges canonical

end ModelContextArtifact

/-- Where a row of the view comes from. -/
inductive RowOrigin where
  | history (i : ℕ)
  | summary
  | turn
  deriving DecidableEq

/-- A row of the view and its origin, which the code does not keep. -/
structure ViewRow where
  row : Message
  origin : RowOrigin
  deriving DecidableEq

def messagesOf (rows : List ViewRow) : List Message := rows.map ViewRow.row

def deriveRows (canonical : List Message) : List ViewRow :=
  canonical.zipIdx.map fun e => ⟨e.1, .history e.2⟩

def dropOrphanRowsAfter (prev : Option Message) : List ViewRow → List ViewRow
  | [] => []
  | r :: rows =>
    if r.row.role = "tool" ∧ prev.any answersCall = false then dropOrphanRowsAfter prev rows
    else r :: dropOrphanRowsAfter (some r.row) rows

def foldRows (rows : List ViewRow) (tail : ℕ) (summaryText : String) : List ViewRow :=
  dropOrphanRowsAfter none
    (rows.take 1 ++ [⟨.userContextSummaryInjection summaryText, .summary⟩] ++
      rows.drop (rows.length - tail))

/-- The tail a summary keeps, when the view can be summarised. -/
def summaryTail? (messages : List Message) (requestedTail : ℕ) : Option ℕ :=
  if messages.head?.all fun m => m.role != "system" then none
  else (completeTurnGroupTailLen messages requestedTail).filter fun tail =>
    1 + tail + 1 < messages.length

/-- The removal of at most `n` oldest groups: what is left, and how many went. -/
def removeGroupRows (minGroupsToKeep : ℕ) : ℕ → List ViewRow → List ViewRow × ℕ
  | 0, rows => (rows, 0)
  | n + 1, rows =>
    let range := (removeOldestTurnGroup (messagesOf rows) minGroupsToKeep).2
    if range.isEmpty then (rows, 0)
    else
      let (rest, count) :=
        removeGroupRows minGroupsToKeep n (rows.take range.start ++ rows.drop range.stop)
      (rest, count + 1)

/-- What happens around one model call: how many groups the limits on rows and characters take; the
tail asked for and the text, if the model is asked for a summary; how many groups the budget asks to
remove; and the rows that are appended behind. Shortened tool results and the note on changed files
are left out: they take no row of the history away. -/
structure ModelCall where
  trimmed : ℕ
  summary : Option (ℕ × String)
  removals : ℕ
  answer : List Message
  hanswer : ∀ m ∈ answer, realUser m = false

namespace ModelCall

variable (call : ModelCall) (rows : List ViewRow)

/-- The view behind the synchronous pipeline. -/
def synced : List ViewRow :=
  dropOrphanRowsAfter none
      (removeGroupRows 1 call.trimmed (rows.filter fun r => !sideRow r.row)).1 ++
    rows.filter fun r => sideRow r.row

/-- The tail the call keeps, if it folds a summary. -/
def tailKept : Option ℕ :=
  call.summary.bind fun request => summaryTail? (messagesOf (call.synced rows)) request.1

def summarized : List ViewRow :=
  match call.summary, call.tailKept rows with
  | some (_, summaryText), some tail => foldRows (call.synced rows) tail summaryText
  | _, _ => call.synced rows

/-- What the budget leaves, and the number of groups it removes. -/
def compacted : List ViewRow × ℕ :=
  removeGroupRows minRecentTurnGroups call.removals (call.summarized rows)

/-- The view as it is sent. -/
def sent : List ViewRow :=
  if 0 < (call.compacted rows).2 then dropOrphanRowsAfter none (call.compacted rows).1
  else (call.compacted rows).1

def artifact (sequence : ℕ) : ModelContextArtifact :=
  .capture sequence 0 (messagesOf (call.sent rows)) (call.compacted rows).2 (call.tailKept rows)

/-- The view the next call finds. -/
def leaves : List ViewRow := call.sent rows ++ call.answer.map (⟨·, .turn⟩)

end ModelCall

/-- The view behind the calls of a turn. -/
def viewAfter (canonical : List Message) (calls : List ModelCall) : List ViewRow :=
  calls.foldl (fun rows call => call.leaves rows) (deriveRows canonical)

/-- The rows of the history the view no longer has. -/
def lostRows (canonical : List Message) (rows : List ViewRow) : List Message :=
  (canonical.zipIdx.filter fun e => !rows.any fun r => r.origin == .history e.2).map Prod.fst

/-- When the counts of a call say where the rows stood that the view has lost: a call that folds
finds no row of the turn in the view, any other finds the whole history in it; and where something
goes, the side rows of the history stand behind a user that stays. -/
structure ModelCall.Aligned (call : ModelCall) (canonical : List Message)
    (rows : List ViewRow) : Prop where
  folds : (call.tailKept rows).isSome = true → ∀ r ∈ call.synced rows, r.origin ≠ .turn
  keeps : call.tailKept rows = none → lostRows canonical (call.synced rows) = []
  sides : (call.tailKept rows).isSome = true ∨ 0 < (call.compacted rows).2 →
    ∀ i m, canonical[i]? = some m → sideRow m = true →
      ∃ r ∈ call.sent rows, ∃ j < i, r.origin = .history j ∧ realUser r.row = true

end Model

section Erasure

variable {rows : List ViewRow}

theorem messagesOf_append (xs ys : List ViewRow) :
    messagesOf (xs ++ ys) = messagesOf xs ++ messagesOf ys := map_append

theorem messagesOf_deriveRows (canonical : List Message) :
    messagesOf (deriveRows canonical) = canonical := by
  rw [messagesOf, deriveRows, List.map_map]
  exact zipIdx_map_fst 0 canonical

theorem messagesOf_dropOrphanRowsAfter (prev : Option Message) (rows : List ViewRow) :
    messagesOf (dropOrphanRowsAfter prev rows) = dropOrphansAfter prev (messagesOf rows) := by
  induction rows generalizing prev with
  | nil => rfl
  | cons r rows ih =>
    change _ = dropOrphansAfter prev (r.row :: messagesOf rows)
    rw [dropOrphanRowsAfter, dropOrphansAfter]
    split
    · exact ih prev
    · exact congrArg (r.row :: ·) (ih (some r.row))

theorem messagesOf_foldRows (rows : List ViewRow) (tail : ℕ) (summaryText : String) :
    messagesOf (foldRows rows tail summaryText) =
      applyLlmSummaryToMessages (messagesOf rows) tail summaryText := by
  rw [foldRows, messagesOf_dropOrphanRowsAfter, applyLlmSummaryToMessages, dropOrphanToolMessages]
  simp [messagesOf]

/-- The summary replaces all but the tail it keeps. -/
theorem summarizeWith_eq (messages : List Message) (requestedTail : ℕ) (summaryText : String) :
    summarizeWith messages requestedTail summaryText =
      match summaryTail? messages requestedTail with
      | none => messages
      | some tail => applyLlmSummaryToMessages messages tail summaryText := by
  by_cases hsystem : (messages.head?.all fun m => m.role != "system") = true
  · simp only [summarizeWith, summaryTail?, if_pos hsystem]
  · simp only [summarizeWith, summaryTail?, if_neg hsystem]
    cases completeTurnGroupTailLen messages requestedTail with
    | none => rfl
    | some tail =>
      by_cases hlen : messages.length ≤ 1 + tail + 1
      · simp [Option.filter, hlen, not_lt.mpr hlen]
      · simp [Option.filter, hlen, not_le.mp hlen]

theorem messagesOf_removeGroupRows_one (n : ℕ) (rows : List ViewRow) :
    messagesOf (removeGroupRows 1 n rows).1 = trimGroups (messagesOf rows) n := by
  induction n generalizing rows with
  | zero => rfl
  | succ n ih =>
    rw [removeGroupRows, trimGroups]
    rcases removeOldestTurnGroup_cases (messagesOf rows) 1 with
      ⟨hle, heq⟩ | ⟨hmany, head, group, rest, hold, heq⟩
    · have hsame : ∀ k, trimGroups (messagesOf rows) k = messagesOf rows := by
        intro k
        induction k with
        | zero => rfl
        | succ k ihk => rw [trimGroups, heq, ihk]
      rw [heq]
      exact (hsame n).symm
    · have hnot : RemovedPrefix.isEmpty ⟨head.length, group.length⟩ = false := by
        simpa [RemovedPrefix.isEmpty] using hold.group_pos.ne'
      rw [heq]
      simp only [hnot, Bool.false_eq_true, if_false]
      rw [ih, messagesOf, map_append, map_take, map_drop, ← messagesOf]
      exact congrArg (trimGroups · n) hold.take_drop

theorem messagesOf_filter (q : Message → Bool) (rows : List ViewRow) :
    messagesOf (rows.filter fun r => q r.row) = (messagesOf rows).filter q := by
  rw [messagesOf, messagesOf, List.filter_map]
  rfl

theorem messagesOf_synced (call : ModelCall) (rows : List ViewRow) :
    messagesOf (call.synced rows) =
      applySessionSyncPipeline (messagesOf rows) call.trimmed := by
  rw [ModelCall.synced, messagesOf_append, messagesOf_dropOrphanRowsAfter,
    messagesOf_removeGroupRows_one, messagesOf_filter fun m => !sideRow m,
    messagesOf_filter sideRow]
  rfl

theorem messagesOf_summarized (call : ModelCall) (rows : List ViewRow) :
    messagesOf (call.summarized rows) =
      match call.summary with
      | none => messagesOf (call.synced rows)
      | some (requestedTail, summaryText) =>
        summarizeWith (messagesOf (call.synced rows)) requestedTail summaryText := by
  rw [ModelCall.summarized, ModelCall.tailKept]
  cases call.summary with
  | none => rfl
  | some request =>
    obtain ⟨requestedTail, summaryText⟩ := request
    simp only [bind_some, summarizeWith_eq]
    cases summaryTail? (messagesOf (call.synced rows)) requestedTail with
    | none => rfl
    | some tail => exact messagesOf_foldRows (call.synced rows) tail summaryText

/-- Each way to take out oldest groups is a number of removals. -/
theorem removeGroupRows_of_removes {gs : List (List Message)} {output : List Message}
    (h : Removes (messagesOf rows) gs output) (hkeep : gs ≠ [] → 2 ≤ countRealUsers output) :
    messagesOf (removeGroupRows minRecentTurnGroups gs.length rows).1 = output ∧
      (removeGroupRows minRecentTurnGroups gs.length rows).2 = gs.length := by
  generalize hms : messagesOf rows = ms at h
  induction h generalizing rows with
  | none => exact ⟨hms, rfl⟩
  | @more ms head group rest output gs oldest later ih =>
    have hmany : 2 < countRealUsers (messagesOf rows) := by
      have hcount := later.countRealUsers
      have hleft := hkeep (by simp)
      rw [oldest.countRealUsers_rest] at hcount
      rw [hms, oldest.countRealUsers]
      omega
    have hrange := (hms ▸ oldest).removeOldestTurnGroup hmany
    have hnot : RemovedPrefix.isEmpty ⟨head.length, group.length⟩ = false := by
      simpa [RemovedPrefix.isEmpty] using oldest.group_pos.ne'
    have hrest : messagesOf (rows.take head.length ++
        rows.drop (head.length + group.length)) = head ++ rest := by
      rw [messagesOf_append, messagesOf, messagesOf, map_take, map_drop]
      exact (congrArg (fun ms => ms.take head.length ++ ms.drop (head.length + group.length))
        hms).trans oldest.take_drop
    obtain ⟨hmessages, hcount⟩ := ih (fun _ => hkeep (by simp)) hrest
    rw [length_cons, removeGroupRows]
    simp only [minRecentTurnGroups, hrange, hnot, Bool.false_eq_true, if_false]
    exact ⟨hmessages, congrArg (· + 1) hcount⟩

theorem degraded_none (estimate : List Message → ℕ) (budget : ContextTokenBudget)
    (messages : List Message) : degraded estimate (fun _ => none) budget messages = messages := by
  rw [degraded]
  split
  · apply compressOldToolMessages_eq_self
    refine countP_eq_zero.mpr fun m _ => ?_
    rw [compressedTool?]
    split
    · split <;> simp
    · simp
  · rfl

/-- Tool bodies apart, the compaction to a token budget is such a removal, whatever the budget. -/
theorem exists_removeGroupRows_eq_compact (estimate : List Message → ℕ) (cfg : TokenSettings)
    (beforeSummary minTailMessages : ℕ) (summarized : Bool) (rows : List ViewRow) :
    let compacted := compactMessagesToTokenBudget estimate (fun _ => none) cfg (messagesOf rows)
      beforeSummary summarized minTailMessages
    ∃ n, messagesOf (removeGroupRows minRecentTurnGroups n rows).1 = compacted.1 ∧
      (removeGroupRows minRecentTurnGroups n rows).2 = compacted.2.removedTurnGroups := by
  by_cases hidle : ∀ b, ContextTokenBudget.fromConfig cfg = some b →
      triggered estimate b (messagesOf rows) beforeSummary = false
  · exact ⟨0, by rw [compact_idle hidle]; exact ⟨rfl, rfl⟩⟩
  · simp only [not_forall, Bool.not_eq_false] at hidle
    obtain ⟨b, hb, htriggered⟩ := hidle
    obtain ⟨gs, output, count, hdrains, heq⟩ :=
      compact_drains (fun _ => none) minTailMessages summarized hb htriggered
    rw [degraded_none] at hdrains
    refine ⟨gs.length, ?_⟩
    rw [heq]
    refine removeGroupRows_of_removes hdrains.removes fun hne => ?_
    have hkeep := hdrains.keeps fun ms (h : asksStage estimate b.targetTokens b.maxInputTokens
      minTailMessages ms) => h.2.1
    have hcount := hdrains.removes.countRealUsers
    have hpos := length_pos_iff.mpr hne
    change 2 ≤ countRealUsers output
    omega

/-- What the code makes of the messages before a call: pipeline, summary and budget are some call
on the rows, tool bodies apart. -/
theorem exists_call_eq_prepare (estimate : List Message → ℕ) (cfg : TokenSettings)
    (beforeSummary minTailMessages trimmed : ℕ) (summary : Option (ℕ × String))
    (rows : List ViewRow) :
    let synced := applySessionSyncPipeline (messagesOf rows) trimmed
    let summarized := summary.elim synced fun request => summarizeWith synced request.1 request.2
    let compacted := compactMessagesToTokenBudget estimate (fun _ => none) cfg summarized
      beforeSummary summary.isSome minTailMessages
    ∃ removals, ∀ answer hanswer,
      let call : ModelCall := ⟨trimmed, summary, removals, answer, hanswer⟩
      (call.compacted rows).2 = compacted.2.removedTurnGroups ∧
        messagesOf (call.sent rows) = if 0 < compacted.2.removedTurnGroups then
          dropOrphanToolMessages compacted.1 else compacted.1 := by
  intro synced summarized compacted
  have hsummarized : ∀ n answer hanswer, messagesOf
      (ModelCall.summarized ⟨trimmed, summary, n, answer, hanswer⟩ rows) = summarized := by
    intro n answer hanswer
    rw [messagesOf_summarized, messagesOf_synced]
    cases summary <;> rfl
  obtain ⟨n, hmessages, hcount⟩ := exists_removeGroupRows_eq_compact estimate cfg beforeSummary
    minTailMessages summary.isSome (ModelCall.summarized ⟨trimmed, summary, 0, [], by simp⟩ rows)
  rw [hsummarized] at hmessages hcount
  refine ⟨n, fun answer hanswer => ⟨hcount, ?_⟩⟩
  have hrest : messagesOf (ModelCall.compacted ⟨trimmed, summary, n, answer, hanswer⟩ rows).1 =
      compacted.1 := hmessages
  have hremoved : (ModelCall.compacted ⟨trimmed, summary, n, answer, hanswer⟩ rows).2 =
      compacted.2.removedTurnGroups := hcount
  unfold ModelCall.sent
  rw [hremoved]
  split
  · rw [messagesOf_dropOrphanRowsAfter, hrest]
    rfl
  · exact hrest

end Erasure

section Groups

/-- A real user and the rows up to the next one. -/
def IsTurnGroup (group : List Message) : Prop :=
  ∃ u behind, group = u :: behind ∧ realUser u = true ∧ ∀ m ∈ behind, realUser m = false

/-- Ranges of the given sizes, side by side. -/
def groupRanges (start : ℕ) : List ℕ → List ConversationTurnGroup
  | [] => []
  | size :: sizes => ⟨start, start + size⟩ :: groupRanges (start + size) sizes

theorem groupRanges_shift (start shift : ℕ) (sizes : List ℕ) :
    (groupRanges start sizes).map (fun g => ⟨g.start + shift, g.stop + shift⟩) =
      groupRanges (start + shift) sizes := by
  induction sizes generalizing start with
  | nil => rfl
  | cons size sizes ih =>
    have hstop : start + size + shift = start + shift + size := by omega
    rw [groupRanges, groupRanges, map_cons, ih, hstop]

/-- The first group, and the groups behind it. -/
theorem conversationTurnGroups_cons {messages head group rest : List Message}
    (h : OldestGroup messages head group rest) :
    conversationTurnGroups messages = ⟨head.length, head.length + group.length⟩ ::
      (conversationTurnGroups rest).map fun g =>
        ⟨g.start + (head.length + group.length), g.stop + (head.length + group.length)⟩ := by
  have hlen : messages.length = head.length + group.length + rest.length := by
    rw [h.split]
    simp only [length_append]
    omega
  have hfirst := h.head?_conversationTurnGroups
  rw [conversationTurnGroups] at hfirst ⊢
  rw [h.indices, length_append] at hfirst ⊢
  simp only [zipIdx_cons, map_cons, head?_cons, Option.some.injEq] at hfirst ⊢
  rw [hfirst, conversationTurnGroups]
  congr 1
  rw [Nat.zero_add, zipIdx_eq_map_add, List.map_map, zipIdx_map, List.map_map,
    List.map_map]
  refine map_congr_left fun e _ => ?_
  simp only [Function.comp, getElem?_cons_succ, getElem?_map, Prod.map, id,
    Nat.add_comm 1]
  cases (indices realUser rest)[e.2 + 1]? with
  | none =>
    simp only [map_none, getD_none, hlen, ConversationTurnGroup.mk.injEq, true_and]
    omega
  | some stop => rfl

theorem head?_flatten_append {gs : List (List Message)} {rest : List Message}
    (hgs : ∀ g ∈ gs, IsTurnGroup g) (hrest : ∀ x ∈ rest.head?, realUser x = true) :
    ∀ x ∈ (gs.flatten ++ rest).head?, realUser x = true := by
  cases gs with
  | nil => exact hrest
  | cons g gs =>
    obtain ⟨u, behind, rfl, hu, -⟩ := hgs g mem_cons_self
    intro x hx
    obtain rfl := mem_some_iff.mp hx
    exact hu

theorem take_conversationTurnGroups {head rest : List Message} {gs : List (List Message)}
    (hhead : ∀ m ∈ head, realUser m = false) (hgs : ∀ g ∈ gs, IsTurnGroup g)
    (hrest : ∀ x ∈ rest.head?, realUser x = true) :
    (conversationTurnGroups (head ++ (gs.flatten ++ rest))).take gs.length =
      groupRanges head.length (gs.map List.length) := by
  induction gs generalizing head with
  | nil => rfl
  | cons g gs ih =>
    have hold : OldestGroup (head ++ ((g :: gs).flatten ++ rest)) head g (gs.flatten ++ rest) := {
      split := by rw [flatten_cons, append_assoc]
      head := hhead
      group := hgs g mem_cons_self
      rest := head?_flatten_append (fun x hx => hgs x (mem_cons_of_mem _ hx)) hrest }
    have hnext := @ih [] (by simp) fun x hx => hgs x (mem_cons_of_mem _ hx)
    rw [nil_append, length_nil] at hnext
    rw [conversationTurnGroups_cons hold, length_cons, take_succ_cons, ← map_take,
      hnext, groupRanges_shift, Nat.zero_add]
    rfl

/-- The removal takes groups off behind the rows in front of the first real user. -/
theorem removeGroupRows_spec (minGroupsToKeep n : ℕ) {head body : List ViewRow}
    (hhead : ∀ r ∈ head, realUser r.row = false)
    (hbody : ∀ r ∈ body.head?, realUser r.row = true) :
    ∃ gs rest, body = gs.flatten ++ rest ∧ (∀ g ∈ gs, IsTurnGroup (messagesOf g)) ∧
      (gs ≠ [] → minGroupsToKeep ≤ countRealUsers (messagesOf rest)) ∧
      (∀ r ∈ rest.head?, realUser r.row = true) ∧
      removeGroupRows minGroupsToKeep n (head ++ body) = (head ++ rest, gs.length) := by
  induction n generalizing body with
  | zero => exact ⟨[], body, rfl, by simp, by simp, hbody, rfl⟩
  | succ n ih =>
    rcases removeOldestTurnGroup_cases (messagesOf (head ++ body)) minGroupsToKeep with
      ⟨-, heq⟩ | ⟨hmany, front, group, behind, hold, heq⟩
    · refine ⟨[], body, rfl, by simp, by simp, hbody, ?_⟩
      rw [removeGroupRows, heq]
      rfl
    · have hmessages : messagesOf (head ++ body) = messagesOf head ++ messagesOf body :=
        messagesOf_append head body
      have hquiet : ∀ m ∈ messagesOf head, realUser m = false := List.forall_mem_map.mpr hhead
      have hlead : leading (messagesOf (head ++ body)) = head.length := by
        rw [hmessages, leading_append hquiet, messagesOf, List.length_map]
        intro x hx
        rw [messagesOf, head?_map] at hx
        obtain ⟨r, hr, rfl⟩ := Option.mem_map.mp hx
        exact hbody r hr
      have hfront : front.length = head.length := hold.leading.1.symm.trans hlead
      have hsplit : messagesOf head = front ∧ messagesOf body = group ++ behind :=
        append_inj (hmessages.symm.trans hold.split) (by simp [messagesOf, hfront])
      have hgroup : messagesOf (body.take group.length) = group := by
        rw [messagesOf, map_take, ← messagesOf, hsplit.2, take_left]
      have hbehind : messagesOf (body.drop group.length) = behind := by
        rw [messagesOf, map_drop, ← messagesOf, hsplit.2, drop_left]
      have hnext : ∀ r ∈ (body.drop group.length).head?, realUser r.row = true := by
        intro r hr
        refine hold.rest r.row ?_
        rw [← hbehind, messagesOf, head?_map, mem_def.mp hr]
        rfl
      obtain ⟨gs, rest, hrest, hgs, hkeep, huser, heq'⟩ := ih hnext
      refine ⟨body.take group.length :: gs, rest, ?_, ?_, fun _ => ?_, huser, ?_⟩
      · rw [flatten_cons, append_assoc, ← hrest, take_append_drop]
      · exact forall_mem_cons.mpr ⟨hgroup.symm ▸ hold.group, hgs⟩
      · cases gs with
        | cons g gs => exact hkeep (by simp)
        | nil =>
          rw [flatten_nil, nil_append] at hrest
          rw [← hrest, hbehind]
          have hcount := hold.countRealUsers
          omega
      · have hnot : RemovedPrefix.isEmpty ⟨front.length, group.length⟩ = false := by
          simpa [RemovedPrefix.isEmpty] using hold.group_pos.ne'
        have hremain : (head ++ body).take front.length ++
            (head ++ body).drop (front.length + group.length) =
              head ++ body.drop group.length := by
          rw [hfront, take_left, drop_append]
          simp
        rw [removeGroupRows, heq]
        simp only [hnot, Bool.false_eq_true, if_false, RemovedPrefix.stop, hremain, heq']
        rfl

end Groups

section Cleanup

variable {canonical : List Message}

theorem dropOrphanRowsAfter_sublist (prev : Option Message) (rows : List ViewRow) :
    (dropOrphanRowsAfter prev rows).Sublist rows := by
  induction rows generalizing prev with
  | nil => exact List.Sublist.refl _
  | cons r rows ih =>
    rw [dropOrphanRowsAfter]
    split
    · exact (ih prev).trans (sublist_cons_self _ _)
    · exact (ih (some r.row)).cons_cons r

theorem dropOrphanRowsAfter_append (prev : Option Message) (xs ys : List ViewRow) :
    ∃ last, dropOrphanRowsAfter prev (xs ++ ys) =
      dropOrphanRowsAfter prev xs ++ dropOrphanRowsAfter last ys := by
  induction xs generalizing prev with
  | nil => exact ⟨prev, rfl⟩
  | cons r xs ih =>
    simp only [cons_append, dropOrphanRowsAfter]
    split
    · exact ih prev
    · obtain ⟨last, hlast⟩ := ih (some r.row)
      exact ⟨last, congrArg (r :: ·) hlast⟩

theorem dropOrphanRowsAfter_eq_self {prev : Option Message} {rows : List ViewRow}
    (h : dropOrphansAfter prev (messagesOf rows) = messagesOf rows) :
    dropOrphanRowsAfter prev rows = rows := by
  refine (dropOrphanRowsAfter_sublist prev rows).eq_of_length ?_
  have hlen := congrArg List.length ((messagesOf_dropOrphanRowsAfter prev rows).trans h)
  rwa [messagesOf, messagesOf, List.length_map, List.length_map] at hlen

theorem messagesOf_drop_deriveRows (canonical : List Message) (start : ℕ) :
    messagesOf ((deriveRows canonical).drop start) = canonical.drop start := by
  rw [messagesOf, map_drop, ← messagesOf, messagesOf_deriveRows]

theorem length_deriveRows (canonical : List Message) :
    (deriveRows canonical).length = canonical.length := by
  rw [deriveRows, List.length_map, length_zipIdx]

theorem getElem?_deriveRows (canonical : List Message) (i : ℕ) :
    (deriveRows canonical)[i]? = canonical[i]?.map (⟨·, .history i⟩) := by
  rw [deriveRows, getElem?_map, getElem?_zipIdx, Option.map_map]
  rw [Nat.zero_add]
  rfl

theorem exists_of_mem_drop_deriveRows {r : ViewRow} {start : ℕ}
    (hr : r ∈ (deriveRows canonical).drop start) :
    ∃ i m, start ≤ i ∧ canonical[i]? = some m ∧ r = ⟨m, .history i⟩ := by
  obtain ⟨j, hj⟩ := mem_iff_getElem?.mp hr
  rw [getElem?_drop, getElem?_deriveRows] at hj
  obtain ⟨m, hm, rfl⟩ := map_eq_some_iff.mp hj
  exact ⟨start + j, m, Nat.le_add_right _ _, hm, rfl⟩

end Cleanup

end CrabMate
