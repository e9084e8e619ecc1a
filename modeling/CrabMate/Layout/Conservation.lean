import CrabMate.Lib.First
import CrabMate.Layout.Turn
import Mathlib.Algebra.Order.Group.Multiset

/-! What the reducer keeps: one open commentary segment at most, and every visible character of the
deltas, on a step or in a segment. -/
namespace CrabMate.Layout
open RustStr List Option

section Text

/-- The characters of a text that are no whitespace, counted. -/
def visibleText (s : String) : Multiset Char := ↑(s.toList.filter fun c => !isWhitespace c)

@[simp] theorem visibleText_append (s t : String) :
    visibleText (s ++ t) = visibleText s + visibleText t := by
  simp [visibleText]

@[simp] theorem visibleText_empty : visibleText "" = 0 := rfl

theorem isBlank_iff {s : String} : isBlank s = true ↔ ∀ c ∈ s.toList, isWhitespace c = true := by
  simp only [isBlank, List.isEmpty_iff, trim, trimEnd, trimStart, rdropWhile_eq_nil_iff]
  constructor
  · intro h c hc
    rw [← takeWhile_append_dropWhile (p := isWhitespace) (l := s.toList),
      mem_append] at hc
    rcases hc with hc | hc
    · exact mem_takeWhile_imp hc
    · exact h c hc
  · intro h c hc
    exact h c ((dropWhile_sublist _).subset hc)

theorem visibleText_eq_zero_iff {s : String} : visibleText s = 0 ↔ isBlank s = true := by
  rw [isBlank_iff, visibleText, Multiset.coe_eq_zero, filter_eq_nil_iff]
  simp

def stepText (step : ToolStep) : Multiset Char := visibleText (step.beforeCommentary.getD "")

def segmentText (seg : TurnSegment) : Multiset Char := visibleText seg.text

/-- The text on the steps and in the segments. -/
def Turn.text (turn : Turn) : Multiset Char :=
  (turn.steps.map stepText).sum + (turn.segments.map segmentText).sum

def deliveredBy : TurnEvent → Multiset Char
  | .segmentDelta _ delta => visibleText delta
  | _ => 0

/-- The text the deltas of the events brought. -/
def delivered (events : List TurnEvent) : Multiset Char := (events.map deliveredBy).sum

end Text

section Attach

variable {turn : Turn} {toolCallId : String}

theorem text_pushSegment (turn : Turn) (seg : TurnSegment) :
    (turn.pushSegment seg).text = turn.text + visibleText seg.text := by
  simp [Turn.pushSegment, Turn.text, segmentText, add_assoc]

theorem stepText_addCommentary (text : String) (step : ToolStep) :
    stepText (step.addCommentary text) = stepText step + visibleText text := by
  cases h : step.beforeCommentary <;> simp [stepText, ToolStep.addCommentary, h]

theorem text_attach (turn : Turn) (toolCallId text : String) :
    (attachClosedCommentaryToStep turn toolCallId text).text = turn.text + visibleText text := by
  unfold attachClosedCommentaryToStep
  split
  · next hblank => rw [visibleText_eq_zero_iff.mpr hblank, add_zero]
  · split
    · next hsome =>
      obtain ⟨step, hstep⟩ := isSome_iff_exists.mp hsome
      obtain ⟨rest, hold, hnew⟩ := First.sum_replaceF stepText hstep (.addCommentary text)
      simp only [Turn.updateStep, Turn.text, hold, hnew, stepText_addCommentary]
      abel
    · rw [text_pushSegment]

theorem text_attachSegment {seg : TurnSegment} (h : seg.beforeToolCallId.isSome = true) :
    (attachSegment turn seg).text = turn.text + segmentText seg := by
  obtain ⟨toolCallId, htool⟩ := isSome_iff_exists.mp h
  rw [attachSegment, htool]
  exact text_attach _ _ _

theorem text_foldl_attachSegment {segs : List TurnSegment}
    (h : ∀ s ∈ segs, s.beforeToolCallId.isSome = true) (turn : Turn) :
    (segs.foldl attachSegment turn).text = turn.text + (segs.map segmentText).sum := by
  induction segs generalizing turn with
  | nil => simp
  | cons seg segs ih =>
    obtain ⟨hseg, hsegs⟩ := forall_mem_cons.mp h
    rw [foldl_cons, ih hsegs, text_attachSegment hseg, map_cons, sum_cons, add_assoc]

theorem TurnSegment.flushable_iff {s : TurnSegment} : s.flushable = true ↔
    s.isOpen = false ∧ s.kind = .commentary ∧ s.beforeToolCallId.isSome = true ∧
      isBlank s.text = false := by
  simp [TurnSegment.flushable, and_assoc]

theorem text_flush (turn : Turn) : (flushSegmentsOntoSteps turn).text = turn.text := by
  rw [flushSegmentsOntoSteps, text_foldl_attachSegment fun s hs =>
    (TurnSegment.flushable_iff.mp (mem_filter.mp hs).2).2.2.1]
  simp only [Turn.text]
  rw [← First.sum_filter_add_not segmentText TurnSegment.flushable turn.segments]
  abel

theorem text_takePending (turn : Turn) :
    (takePendingStreamCommentary turn).1.text +
      visibleText ((takePendingStreamCommentary turn).2.getD "") = turn.text := by
  simp only [takePendingStreamCommentary, Turn.text]
  cases hfind : turn.segments.find? TurnSegment.isPendingStream with
  | none =>
    have hsame : turn.segments.eraseP TurnSegment.isPendingStream = turn.segments :=
      eraseP_of_forall_not fun s hs => find?_eq_none.mp hfind s hs
    simp [hsame]
  | some seg =>
    rw [First.sum_eraseP segmentText hfind, map_some, getD_some]
    simp only [segmentText]
    abel

end Attach

section Ends

variable {turn : Turn} {segmentId : String} {found : TurnSegment}

/-- The text that goes with a segment when it ends: that of an answer. -/
def lostAtEnd (turn : Turn) (segmentId : String) : Multiset Char :=
  match turn.segmentById segmentId with
  | some seg => if seg.kind = .answer then visibleText seg.text else 0
  | none => 0

theorem text_eraseSegment (h : turn.segmentById segmentId = some found) :
    turn.text = Turn.text { turn with
      segments := turn.segments.eraseP fun s => s.segmentId == segmentId } +
        visibleText found.text := by
  simp only [Turn.text]
  rw [First.sum_eraseP segmentText h, segmentText]
  abel

theorem text_reduceSegmentEnd (turn : Turn) (segmentId : String) :
    (reduceSegmentEnd turn segmentId).text + lostAtEnd turn segmentId = turn.text := by
  unfold reduceSegmentEnd lostAtEnd
  cases hfind : turn.segmentById segmentId with
  | none => simp
  | some found =>
    rw [text_eraseSegment hfind]
    cases hkind : found.kind with
    | answer => simp only [hkind, ↓reduceIte]
    | commentary =>
      simp only [hkind, reduceCtorEq, ↓reduceIte, add_zero]
      split
      · rw [text_pushSegment]
      · split
        · rw [text_attach]
        · rw [text_pushSegment]

theorem lostAtEnd_of_commentary (h : turn.segmentById segmentId = some found)
    (hkind : found.kind = .commentary) : lostAtEnd turn segmentId = 0 := by
  simp [lostAtEnd, h, hkind]

theorem segments_attach (turn : Turn) (toolCallId text : String) :
    (attachClosedCommentaryToStep turn toolCallId text).segments = turn.segments ∨
      (attachClosedCommentaryToStep turn toolCallId text).segments = turn.segments ++
        [⟨pendingBefore toolCallId, .commentary, some toolCallId, text, false⟩] := by
  unfold attachClosedCommentaryToStep
  split
  · exact Or.inl rfl
  · split
    · exact Or.inl rfl
    · exact Or.inr rfl

/-- What the end of a segment does to the segments: the first with its id goes, and a closed one
may come, under its id or under that of the pending text of its anchor. -/
theorem segments_reduceSegmentEnd (h : turn.segmentById segmentId = some found) :
    ∃ added, (reduceSegmentEnd turn segmentId).segments =
        (turn.segments.eraseP fun s => s.segmentId == segmentId) ++ added ∧
      ∀ s ∈ added, s.isOpen = false ∧ (s.segmentId = segmentId ∨
        ∃ toolCallId, found.beforeToolCallId = some toolCallId ∧
          s.segmentId = pendingBefore toolCallId) := by
  have hid : found.segmentId = segmentId := by simpa using find?_some h
  unfold reduceSegmentEnd
  simp only [h]
  cases hkind : found.kind with
  | answer => exact ⟨[], by simp, by simp⟩
  | commentary =>
    simp only
    split
    · exact ⟨[{ found with isOpen := false }], by simp [Turn.pushSegment, hkind], by simp [hid]⟩
    · cases hanchor : found.beforeToolCallId with
      | none =>
        exact ⟨[{ found with isOpen := false }], by simp [Turn.pushSegment, hkind, hanchor],
          by simp [hid]⟩
      | some toolCallId =>
        rcases segments_attach { turn with
            segments := turn.segments.eraseP fun s => s.segmentId == segmentId } toolCallId
            found.text with hsame | hpushed
        · exact ⟨[], by simpa using hsame, by simp⟩
        · exact ⟨_, hpushed, by simp⟩

theorem reduceSegmentEnd_of_none (h : turn.segmentById segmentId = none) :
    reduceSegmentEnd turn segmentId = turn := by
  rw [reduceSegmentEnd, h]

theorem segmentById_reduceSegmentEnd {id : String} {seg : TurnSegment} (hne : id ≠ segmentId)
    (h : turn.segmentById id = some seg) :
    (reduceSegmentEnd turn segmentId).segmentById id = some seg := by
  cases hfind : turn.segmentById segmentId with
  | none => rwa [reduceSegmentEnd_of_none hfind]
  | some found =>
    obtain ⟨added, heq, -⟩ := segments_reduceSegmentEnd hfind
    have hkept : ((turn.segments.eraseP fun s => s.segmentId == segmentId).find?
        fun s => s.segmentId == id) = turn.segments.find? fun s => s.segmentId == id :=
      First.find?_eraseP_of_ne hne
    rw [Turn.segmentById, heq, find?_append, hkept]
    rw [Turn.segmentById] at h
    rw [h, some_or]

end Ends

section Opens

/-- An open segment is the first one with its id. -/
def Turn.OpenFirst (turn : Turn) : Prop :=
  turn.segments.Pairwise fun a b => b.isOpen = true → a.segmentId ≠ b.segmentId

def Turn.opens (turn : Turn) : List TurnSegment := turn.segments.filter TurnSegment.isOpen

variable {turn : Turn} {segmentId : String}

theorem Turn.OpenFirst.segmentById (h : turn.OpenFirst) {s : TurnSegment} (hs : s ∈ turn.segments)
    (hopen : s.isOpen = true) : turn.segmentById s.segmentId = some s := by
  obtain ⟨pre, post, hsplit⟩ := append_of_mem hs
  rw [Turn.OpenFirst, hsplit, pairwise_append] at h
  rw [Turn.segmentById, hsplit, find?_eq_some_iff_append]
  refine ⟨by simp, pre, post, rfl, fun a ha => ?_⟩
  simpa using h.2.2 a ha s mem_cons_self hopen

theorem openFirst_append_closed {added segs : List TurnSegment}
    (h : segs.Pairwise fun a b => b.isOpen = true → a.segmentId ≠ b.segmentId)
    (hadded : ∀ s ∈ added, s.isOpen = false) :
    (segs ++ added).Pairwise fun a b => b.isOpen = true → a.segmentId ≠ b.segmentId := by
  rw [pairwise_append]
  refine ⟨h, ?_, fun a _ b hb hopen => by simp [hadded b hb] at hopen⟩
  exact pairwise_of_forall_mem_list fun a _ b hb hopen => by simp [hadded b hb] at hopen

theorem Turn.OpenFirst.reduceSegmentEnd (h : turn.OpenFirst) (segmentId : String) :
    (reduceSegmentEnd turn segmentId).OpenFirst := by
  cases hfind : turn.segmentById segmentId with
  | none => rwa [reduceSegmentEnd_of_none hfind]
  | some found =>
    obtain ⟨added, heq, hadded⟩ := segments_reduceSegmentEnd hfind
    rw [Turn.OpenFirst, heq]
    exact openFirst_append_closed (List.Pairwise.eraseP _ h) fun s hs => (hadded s hs).1

theorem Turn.OpenFirst.opens_reduceSegmentEnd (h : turn.OpenFirst) (segmentId : String) :
    (Layout.reduceSegmentEnd turn segmentId).opens =
      turn.opens.filter fun s => s.segmentId ≠ segmentId := by
  cases hfind : turn.segmentById segmentId with
  | none =>
    rw [reduceSegmentEnd_of_none hfind]
    refine (filter_eq_self.mpr fun s hs => ?_).symm
    simpa using find?_eq_none.mp hfind s (mem_filter.mp hs).1
  | some found =>
    obtain ⟨added, heq, hadded⟩ := segments_reduceSegmentEnd hfind
    obtain ⟨pre, post, hsplit, hid, hpre, herase, -⟩ := First.split hfind id
    have hclosed : added.filter TurnSegment.isOpen = [] :=
      filter_eq_nil_iff.mpr fun s hs => by simp [(hadded s hs).1]
    rw [Turn.OpenFirst, hsplit, pairwise_append, pairwise_cons] at h
    rw [Turn.opens, Turn.opens, heq, herase, hsplit, List.filter_filter, filter_append,
      hclosed, append_nil, filter_append, filter_append,
      filter_cons_of_neg (by simp [hid])]
    congr 1
    · refine filter_congr fun s hs => ?_
      simp [hpre s hs]
    · refine filter_congr fun s hs => ?_
      cases hopen : s.isOpen with
      | false => simp
      | true =>
        have hne := h.2.1.1 s hs hopen
        rw [hid] at hne
        simp [Ne.symm hne]

theorem opens_attach (turn : Turn) (toolCallId text : String) :
    (attachClosedCommentaryToStep turn toolCallId text).opens = turn.opens := by
  rcases segments_attach turn toolCallId text with h | h
  · rw [Turn.opens, h, Turn.opens]
  · rw [Turn.opens, h, filter_append]
    simp [Turn.opens]

theorem Turn.OpenFirst.attach (h : turn.OpenFirst) (toolCallId text : String) :
    (attachClosedCommentaryToStep turn toolCallId text).OpenFirst := by
  rcases segments_attach turn toolCallId text with heq | heq
  · rwa [Turn.OpenFirst, heq]
  · rw [Turn.OpenFirst, heq]
    exact openFirst_append_closed h (by simp)

theorem attachSegment_keeps (h : turn.OpenFirst) (seg : TurnSegment) :
    (attachSegment turn seg).OpenFirst ∧ (attachSegment turn seg).opens = turn.opens := by
  unfold attachSegment
  split
  · exact ⟨h.attach _ _, opens_attach _ _ _⟩
  · exact ⟨h, rfl⟩

theorem foldl_attachSegment_keeps (segs : List TurnSegment) (h : turn.OpenFirst) :
    (segs.foldl attachSegment turn).OpenFirst ∧
      (segs.foldl attachSegment turn).opens = turn.opens := by
  induction segs generalizing turn with
  | nil => exact ⟨h, rfl⟩
  | cons seg segs ih =>
    obtain ⟨hfirst, hopens⟩ := attachSegment_keeps h seg
    obtain ⟨hfirst', hopens'⟩ := ih hfirst
    exact ⟨hfirst', hopens'.trans hopens⟩

theorem flush_keeps (h : turn.OpenFirst) :
    (flushSegmentsOntoSteps turn).OpenFirst ∧
      (flushSegmentsOntoSteps turn).opens = turn.opens := by
  have hrest : Turn.OpenFirst { turn with
      segments := turn.segments.filter fun s => !s.flushable } := List.Pairwise.filter _ h
  obtain ⟨hfirst, hopens⟩ :=
    foldl_attachSegment_keeps (turn.segments.filter TurnSegment.flushable) hrest
  refine ⟨hfirst, hopens.trans ?_⟩
  rw [Turn.opens, Turn.opens, List.filter_filter]
  refine filter_congr fun s _ => ?_
  cases hopen : s.isOpen <;> simp [TurnSegment.flushable, hopen]

/-- A write that keeps the id keeps the order, whatever it does to the flag. -/
theorem Turn.OpenFirst.updateSegment (h : turn.OpenFirst) (f : TurnSegment → TurnSegment)
    (hf : ∀ s, (f s).segmentId = s.segmentId) (segmentId : String) :
    (turn.updateSegment segmentId f).OpenFirst := by
  cases hfind : turn.segmentById segmentId with
  | none =>
    have hsame := First.replaceF_of_none hfind f
    simpa only [Turn.OpenFirst, Turn.updateSegment, hsame] using h
  | some found =>
    obtain ⟨pre, post, hsplit, hid, hpre, -, hreplace⟩ := First.split hfind f
    rw [Turn.OpenFirst, hsplit, pairwise_append, pairwise_cons] at h
    simp only [Turn.OpenFirst, Turn.updateSegment, hreplace]
    rw [pairwise_append, pairwise_cons]
    obtain ⟨hpre', ⟨hfound, hpost⟩, hcross⟩ := h
    refine ⟨hpre', ⟨fun b hb hopen => ?_, hpost⟩, fun a ha b hb hopen => ?_⟩
    · rw [hf]
      exact hfound b hb hopen
    · rcases mem_cons.mp hb with rfl | hb
      · rw [hf, hid]
        exact hpre a ha
      · exact hcross a ha b (mem_cons_of_mem _ hb) hopen

end Opens

section Closing

variable {turn : Turn}

theorem foldl_reduceSegmentEnd_opens (ids : List String) (h : turn.OpenFirst) :
    (ids.foldl reduceSegmentEnd turn).OpenFirst ∧
      (ids.foldl reduceSegmentEnd turn).opens =
        turn.opens.filter fun s => s.segmentId ∉ ids := by
  induction ids generalizing turn with
  | nil => exact ⟨h, by simp⟩
  | cons id ids ih =>
    obtain ⟨hfirst, hopens⟩ := ih (h.reduceSegmentEnd id)
    refine ⟨hfirst, ?_⟩
    rw [foldl_cons, hopens, h.opens_reduceSegmentEnd, List.filter_filter]
    refine filter_congr fun s _ => ?_
    simp [Bool.and_comm]

/-- Ending open commentary segments one after the other: each is found as it stood at first. -/
theorem foldl_reduceSegmentEnd_induction {P : Turn → Prop} {start : Turn} {ids : List String}
    (hnodup : ids.Nodup)
    (hfind : ∀ id ∈ ids, ∃ seg, turn.segmentById id = some seg ∧ start.segmentById id = some seg ∧
      seg.openCommentary = true)
    (hstep : ∀ t id seg, P t → t.segmentById id = some seg → start.segmentById id = some seg →
      seg.openCommentary = true → P (reduceSegmentEnd t id))
    (h : P turn) : P (ids.foldl reduceSegmentEnd turn) := by
  induction ids generalizing turn with
  | nil => exact h
  | cons id ids ih =>
    obtain ⟨hnot, hnodup'⟩ := nodup_cons.mp hnodup
    obtain ⟨⟨seg, hseg, hstart, hopen⟩, hrest⟩ := forall_mem_cons.mp hfind
    refine ih hnodup' (fun id' hid' => ?_) (hstep turn id seg h hseg hstart hopen)
    obtain ⟨seg', hseg', hstart', hopen'⟩ := hrest id' hid'
    have hne : id' ≠ id := fun heq => hnot (heq ▸ hid')
    exact ⟨seg', segmentById_reduceSegmentEnd hne hseg', hstart', hopen'⟩

/-- The ids `close_open_commentary_except` ends. -/
def closedIds (turn : Turn) (exceptId : Option String) : List String :=
  (turn.segments.filter fun s => s.openCommentary && exceptId != some s.segmentId).map
    TurnSegment.segmentId

theorem isOpen_of_openCommentary {s : TurnSegment} (h : s.openCommentary = true) :
    s.isOpen = true :=
  (Bool.and_eq_true_iff.mp h).1

theorem kind_of_openCommentary {s : TurnSegment} (h : s.openCommentary = true) :
    s.kind = .commentary := by
  simpa using (Bool.and_eq_true_iff.mp h).2

theorem Turn.OpenFirst.nodup_closedIds (h : turn.OpenFirst) (exceptId : Option String) :
    (closedIds turn exceptId).Nodup := by
  rw [closedIds, List.Nodup, pairwise_map]
  refine (List.Pairwise.filter _ h).imp_of_mem fun {a b} _ hb hne => hne ?_
  exact isOpen_of_openCommentary (Bool.and_eq_true_iff.mp (mem_filter.mp hb).2).1

theorem Turn.OpenFirst.find_closedIds (h : turn.OpenFirst) (exceptId : Option String) :
    ∀ id ∈ closedIds turn exceptId, ∃ seg, turn.segmentById id = some seg ∧
      turn.segmentById id = some seg ∧ seg.openCommentary = true := by
  intro id hid
  obtain ⟨seg, hseg, rfl⟩ := List.mem_map.mp hid
  obtain ⟨hmem, hcond⟩ := mem_filter.mp hseg
  have hopen := (Bool.and_eq_true_iff.mp hcond).1
  have hfind := h.segmentById hmem (isOpen_of_openCommentary hopen)
  exact ⟨seg, hfind, hfind, hopen⟩

theorem Turn.OpenFirst.closeExcept (h : turn.OpenFirst) (exceptId : Option String) :
    (closeOpenCommentaryExcept turn exceptId).OpenFirst :=
  (foldl_reduceSegmentEnd_opens (closedIds turn exceptId) h).1

theorem text_closeExcept (h : turn.OpenFirst) (exceptId : Option String) :
    (closeOpenCommentaryExcept turn exceptId).text = turn.text := by
  refine foldl_reduceSegmentEnd_induction (P := fun t => t.text = turn.text)
    (h.nodup_closedIds exceptId) (h.find_closedIds exceptId)
    (fun t id seg ht hseg _ hopen => ?_) rfl
  have hend := text_reduceSegmentEnd t id
  rw [lostAtEnd_of_commentary hseg (kind_of_openCommentary hopen), add_zero] at hend
  exact hend.trans ht

theorem segmentId_closeExcept (h : turn.OpenFirst) (exceptId : Option String) :
    ∀ s ∈ (closeOpenCommentaryExcept turn exceptId).segments, s.openCommentary = true →
      exceptId = some s.segmentId := by
  intro s hs hopen
  have hmem : s ∈ (closeOpenCommentaryExcept turn exceptId).opens :=
    mem_filter.mpr ⟨hs, isOpen_of_openCommentary hopen⟩
  have hopens : (closeOpenCommentaryExcept turn exceptId).opens =
      turn.opens.filter fun s => s.segmentId ∉ closedIds turn exceptId :=
    (foldl_reduceSegmentEnd_opens (closedIds turn exceptId) h).2
  rw [hopens, mem_filter, Turn.opens, mem_filter] at hmem
  by_contra hne
  have hclosed : s.segmentId ∈ closedIds turn exceptId :=
    List.mem_map_of_mem (mem_filter.mpr ⟨hmem.1.1, by simp [hopen, hne]⟩)
  exact absurd hclosed (by simpa using hmem.2)

/-- The ids after closing: those from before, and those of pending texts. -/
theorem ids_closeExcept (h : turn.OpenFirst) (exceptId : Option String) :
    ∀ s ∈ (closeOpenCommentaryExcept turn exceptId).segments,
      (∃ a ∈ turn.segments, a.segmentId = s.segmentId) ∨
        ∃ a ∈ turn.segments, a.openCommentary = true ∧ ∃ toolCallId,
          a.beforeToolCallId = some toolCallId ∧ s.segmentId = pendingBefore toolCallId := by
  refine foldl_reduceSegmentEnd_induction (P := fun t => ∀ s ∈ t.segments,
      (∃ a ∈ turn.segments, a.segmentId = s.segmentId) ∨
        ∃ a ∈ turn.segments, a.openCommentary = true ∧ ∃ toolCallId,
          a.beforeToolCallId = some toolCallId ∧ s.segmentId = pendingBefore toolCallId)
    (h.nodup_closedIds exceptId) (h.find_closedIds exceptId)
    (fun t id seg ht hseg hstart hopen => ?_) (fun s hs => Or.inl ⟨s, hs, rfl⟩)
  obtain ⟨added, heq, hadded⟩ := segments_reduceSegmentEnd hseg
  have hmem : seg ∈ turn.segments := mem_of_find?_eq_some hstart
  intro s hs
  rw [heq, mem_append] at hs
  rcases hs with hs | hs
  · exact ht s (mem_of_mem_eraseP hs)
  · rcases (hadded s hs).2 with hid | ⟨toolCallId, hanchor, hid⟩
    · have hseg' : seg.segmentId = id := by simpa using find?_some hseg
      exact Or.inl ⟨seg, hmem, hseg'.trans hid.symm⟩
    · exact Or.inr ⟨seg, hmem, hopen, toolCallId, hanchor, hid⟩

end Closing

section Steps

variable {turn : Turn}

/-- What holds of every turn the reducer makes. -/
structure Turn.Wf (turn : Turn) : Prop where
  openFirst : turn.OpenFirst
  one : turn.segments.countP TurnSegment.openCommentary ≤ 1

theorem countP_openCommentary (turn : Turn) :
    turn.segments.countP TurnSegment.openCommentary =
      turn.opens.countP fun s => s.kind = .commentary := by
  rw [Turn.opens, countP_filter]
  refine countP_congr fun s _ => ?_
  simp [TurnSegment.openCommentary, and_comm]

theorem Turn.Wf.of_opens (h : turn.Wf) {next : Turn} (hfirst : next.OpenFirst)
    (hopens : next.opens.Sublist turn.opens) : next.Wf where
  openFirst := hfirst
  one := by
    have hone := h.one
    rw [countP_openCommentary] at hone ⊢
    exact hopens.countP_le.trans hone

theorem Turn.OpenFirst.countP_le_one (h : turn.OpenFirst) (segmentId : String)
    (hid : ∀ s ∈ turn.segments, s.openCommentary = true → segmentId = s.segmentId) :
    turn.segments.countP TurnSegment.openCommentary ≤ 1 := by
  rw [countP_eq_length_filter]
  have hpair : (turn.segments.filter TurnSegment.openCommentary).Pairwise
      fun a b => b.isOpen = true → a.segmentId ≠ b.segmentId := List.Pairwise.filter _ h
  cases hlist : turn.segments.filter TurnSegment.openCommentary with
  | nil => simp
  | cons a rest =>
    cases rest with
    | nil => simp
    | cons b rest =>
      rw [hlist, pairwise_cons] at hpair
      have hmem : ∀ s ∈ [a, b], s ∈ turn.segments ∧ s.openCommentary = true := by
        intro s hs
        rw [← mem_filter, hlist]
        rcases mem_pair.mp hs with rfl | rfl <;> simp
      obtain ⟨ha, haopen⟩ := hmem a (by simp)
      obtain ⟨hb, hbopen⟩ := hmem b (by simp)
      have hne := hpair.1 b mem_cons_self (isOpen_of_openCommentary hbopen)
      exact absurd ((hid a ha haopen).symm.trans (hid b hb hbopen)) hne

theorem text_updateSegment (turn : Turn) (segmentId : String) {f : TurnSegment → TurnSegment}
    (hf : ∀ s, (f s).text = s.text) : (turn.updateSegment segmentId f).text = turn.text := by
  cases hfind : turn.segmentById segmentId with
  | none =>
    simp only [Turn.updateSegment, First.replaceF_of_none hfind f]
  | some found =>
    obtain ⟨rest, hold, hnew⟩ := First.sum_replaceF segmentText hfind f
    have hsame : segmentText (f found) = segmentText found := by rw [segmentText, hf, segmentText]
    simp only [Turn.updateSegment, Turn.text, hold, hnew, hsame]

theorem takeStepCommentary_keeps (turn : Turn) (beforeToolCallId : Option String) :
    (takeStepCommentary turn beforeToolCallId).1.segments = turn.segments ∧
      (takeStepCommentary turn beforeToolCallId).1.text +
        visibleText (takeStepCommentary turn beforeToolCallId).2 = turn.text := by
  cases beforeToolCallId with
  | none => simp [takeStepCommentary]
  | some toolCallId =>
    refine ⟨rfl, ?_⟩
    simp only [takeStepCommentary]
    cases hfind : turn.stepByCallId toolCallId with
    | none =>
      simp only [Turn.updateStep, First.replaceF_of_none hfind]
      simp
    | some step =>
      obtain ⟨rest, hold, hnew⟩ := First.sum_replaceF stepText hfind
        fun s => { s with beforeCommentary := none }
      have hzero : stepText { step with beforeCommentary := none } = 0 := rfl
      simp only [Turn.updateStep, Turn.text, hold, hnew, hzero, bind_some]
      rw [stepText]
      abel

theorem segments_takePending (turn : Turn) :
    (takePendingStreamCommentary turn).1.segments.Sublist turn.segments :=
  eraseP_sublist

theorem closeExcept_none (h : turn.OpenFirst) :
    ∀ s ∈ (closeOpenCommentaryExcept turn none).segments, s.openCommentary = false := by
  intro s hs
  cases hopen : s.openCommentary with
  | false => rfl
  | true => exact absurd (segmentId_closeExcept h none s hs hopen) (by simp)

theorem Turn.Wf.push {segs : List TurnSegment} {seg : TurnSegment}
    (hfirst : segs.Pairwise fun a b => b.isOpen = true → a.segmentId ≠ b.segmentId)
    (hnone : ∀ s ∈ segs, s.openCommentary = false) (hid : ∀ s ∈ segs, s.segmentId ≠ seg.segmentId)
    (turn : Turn) : Turn.Wf { turn with segments := segs ++ [seg] } where
  openFirst := by
    rw [Turn.OpenFirst, pairwise_append]
    refine ⟨hfirst, pairwise_singleton _ _, fun a ha b hb _ => ?_⟩
    rw [mem_singleton.mp hb]
    exact hid a ha
  one := by
    have hzero : segs.countP TurnSegment.openCommentary = 0 :=
      countP_eq_zero.mpr fun s hs => by simp [hnone s hs]
    rw [countP_append, hzero, Nat.zero_add]
    exact countP_le_length

end Steps

section Events

variable {turn : Turn} {segmentId : String}

/-- The event loses no text: a delta with something to show finds its segment or names its anchor,
an answer that ends holds nothing, and a new segment does not take the id under which the text of
an open one is about to be kept. -/
def Spares (turn : Turn) : TurnEvent → Prop
  | .segmentStart segmentId _ _ => turn.segmentById segmentId = none →
      ∀ s ∈ turn.segments, s.openCommentary = true → ∀ toolCallId,
        s.beforeToolCallId = some toolCallId → segmentId ≠ pendingBefore toolCallId
  | .segmentDelta segmentId delta => isBlank delta = true ∨
      (turn.segmentById segmentId).isSome = true ∨ (anchorOfId segmentId).isSome = true
  | .segmentEnd segmentId => ∀ seg, turn.segmentById segmentId = some seg → seg.kind = .answer →
      isBlank seg.text = true
  | .toolCall _ _ _ => ∀ seg, turn.segmentById pendingStreamCommentarySegmentId = some seg →
      seg.kind = .answer → isBlank seg.text = true
  | _ => True

theorem lostAtEnd_eq_zero (h : ∀ seg, turn.segmentById segmentId = some seg →
    seg.kind = .answer → isBlank seg.text = true) : lostAtEnd turn segmentId = 0 := by
  unfold lostAtEnd
  split
  · next seg hseg =>
    split
    · next hkind => exact visibleText_eq_zero_iff.mpr (h seg hseg hkind)
    · rfl
  · rfl

theorem start_keeps (hwf : turn.Wf) {kind : SegmentKind} {beforeToolCallId : Option String}
    (hok : Spares turn (.segmentStart segmentId kind beforeToolCallId)) :
    (reduceSegmentStart turn segmentId kind beforeToolCallId).Wf ∧
      (reduceSegmentStart turn segmentId kind beforeToolCallId).text = turn.text := by
  unfold reduceSegmentStart
  cases hfind : turn.segmentById segmentId with
  | some found =>
    have hopened : (turn.updateSegment segmentId fun s => { s with isOpen := true }).OpenFirst :=
      hwf.openFirst.updateSegment (fun s => { s with isOpen := true }) (fun _ => rfl) segmentId
    refine ⟨⟨hopened.closeExcept _, ?_⟩, ?_⟩
    · refine (hopened.closeExcept (some segmentId)).countP_le_one segmentId fun s hs hopen => ?_
      exact Option.some.inj (segmentId_closeExcept hopened (some segmentId) s hs hopen)
    · exact (text_closeExcept hopened _).trans (text_updateSegment turn segmentId fun _ => rfl)
  | none =>
    have hfirst := hwf.openFirst.closeExcept none
    have hnone := closeExcept_none hwf.openFirst
    have hid : ∀ s ∈ (closeOpenCommentaryExcept turn none).segments, s.segmentId ≠ segmentId := by
      intro s hs heq
      rcases ids_closeExcept hwf.openFirst none s hs with
        ⟨a, ha, haid⟩ | ⟨a, ha, haopen, toolCallId, hanchor, hsid⟩
      · have hne := find?_eq_none.mp hfind a ha
        simp [haid, heq] at hne
      · exact hok hfind a ha haopen toolCallId hanchor (heq.symm.trans hsid)
    obtain ⟨hsegs, htext⟩ :=
      takeStepCommentary_keeps (closeOpenCommentaryExcept turn none) beforeToolCallId
    rw [text_closeExcept hwf.openFirst] at htext
    simp only
    set taken := takeStepCommentary (closeOpenCommentaryExcept turn none) beforeToolCallId
    -- with an anchor the pending stream is taken too
    split
    · have hsub := segments_takePending taken.1
      rw [hsegs] at hsub
      refine ⟨Turn.Wf.push (hfirst.sublist hsub) (fun s hs => hnone s (hsub.subset hs))
        (fun s hs => hid s (hsub.subset hs)) _, ?_⟩
      rw [text_pushSegment, ← htext, ← text_takePending taken.1, visibleText_append]
      abel
    · rw [Turn.OpenFirst, ← hsegs] at hfirst
      rw [← hsegs] at hnone hid
      refine ⟨Turn.Wf.push hfirst hnone hid _, ?_⟩
      rw [text_pushSegment, ← htext, getD_none, visibleText_append, visibleText_empty,
        zero_add]

theorem delta_keeps (hwf : turn.Wf) {delta : String}
    (hok : Spares turn (.segmentDelta segmentId delta)) :
    (reduceSegmentDelta turn segmentId delta).Wf ∧
      (reduceSegmentDelta turn segmentId delta).text = turn.text + visibleText delta := by
  unfold reduceSegmentDelta
  split
  · next hempty => exact ⟨hwf, by rw [hempty, visibleText_empty, add_zero]⟩
  · cases hfind : turn.segmentById segmentId with
    | some found =>
      simp only [isSome_some, ↓reduceIte]
      refine ⟨⟨hwf.openFirst.updateSegment (fun s => { s with text := s.text ++ delta })
        (fun _ => rfl) segmentId, ?_⟩, ?_⟩
      · obtain ⟨pre, post, hsplit, -, -, -, hreplace⟩ :=
          First.split hfind fun s => { s with text := s.text ++ delta }
        have hone := hwf.one
        simp only [Turn.updateSegment, hreplace]
        rw [hsplit, countP_append, countP_cons] at hone
        rw [countP_append, countP_cons]
        exact hone
      · obtain ⟨rest, hold, hnew⟩ := First.sum_replaceF segmentText hfind
          fun s => { s with text := s.text ++ delta }
        simp only [Turn.updateSegment, Turn.text, hold, hnew, segmentText, visibleText_append]
        abel
    | none =>
      simp only [isSome_none, Bool.false_eq_true, ↓reduceIte]
      split
      · refine ⟨hwf.of_opens (hwf.openFirst.attach _ _) ?_, text_attach _ _ _⟩
        rw [opens_attach]
      · next hanchor =>
        have hblank : isBlank delta = true := by
          simpa [Spares, hfind, hanchor] using hok
        exact ⟨hwf, by rw [visibleText_eq_zero_iff.mpr hblank, add_zero]⟩

theorem end_keeps (hwf : turn.Wf) (hok : ∀ seg, turn.segmentById segmentId = some seg →
    seg.kind = .answer → isBlank seg.text = true) :
    (reduceSegmentEnd turn segmentId).Wf ∧ (reduceSegmentEnd turn segmentId).text = turn.text := by
  constructor
  · refine hwf.of_opens (hwf.openFirst.reduceSegmentEnd segmentId) ?_
    rw [hwf.openFirst.opens_reduceSegmentEnd]
    exact filter_sublist
  · have hend := text_reduceSegmentEnd turn segmentId
    rwa [lostAtEnd_eq_zero hok, add_zero] at hend

theorem visibleText_foldl_appendText (texts : List String) (commentary : Option String) :
    visibleText ((texts.foldl appendText commentary).getD "") =
      visibleText (commentary.getD "") + (texts.map visibleText).sum := by
  induction texts generalizing commentary with
  | nil => simp
  | cons text texts ih =>
    rw [foldl_cons, ih]
    cases commentary <;> simp [appendText, add_assoc]

theorem visibleText_filter_not_blank (commentary : Option String) :
    visibleText ((commentary.filter fun t => !isBlank t).getD "") =
      visibleText (commentary.getD "") := by
  cases commentary with
  | none => rfl
  | some t =>
    cases hblank : isBlank t with
    | false => simp [Option.filter, hblank]
    | true => simp [Option.filter, hblank, visibleText_eq_zero_iff.mpr hblank]

theorem toolCall_keeps (hwf : turn.Wf) {toolCallId name summary : String}
    (hok : Spares turn (.toolCall toolCallId name summary)) :
    (reduceToolCall turn toolCallId name summary).Wf ∧
      (reduceToolCall turn toolCallId name summary).text = turn.text := by
  have hclosed : (closeOpenSegmentIfPresent { turn with toolPhaseOpen := true }
        pendingStreamCommentarySegmentId).Wf ∧
      (closeOpenSegmentIfPresent { turn with toolPhaseOpen := true }
        pendingStreamCommentarySegmentId).text = turn.text := by
    unfold closeOpenSegmentIfPresent
    have hphase : Turn.Wf { turn with toolPhaseOpen := true } := ⟨hwf.openFirst, hwf.one⟩
    split
    · exact end_keeps hphase hok
    · exact ⟨hphase, rfl⟩
  unfold reduceToolCall
  simp only
  set closed := closeOpenSegmentIfPresent { turn with toolPhaseOpen := true }
    pendingStreamCommentarySegmentId
  obtain ⟨hclosedWf, hclosedText⟩ := hclosed
  obtain ⟨hflushFirst, hflushOpens⟩ := flush_keeps hclosedWf.openFirst
  have hflushWf := hclosedWf.of_opens hflushFirst (by rw [hflushOpens])
  have htext := text_takePending (flushSegmentsOntoSteps closed)
  rw [text_flush, hclosedText] at htext
  have hsub := segments_takePending (flushSegmentsOntoSteps closed)
  set taken := takePendingStreamCommentary (flushSegmentsOntoSteps closed)
  constructor
  · have hall : (taken.1.segments.filter fun s => !s.goesTo toolCallId).Sublist
        (flushSegmentsOntoSteps closed).segments := filter_sublist.trans hsub
    exact hflushWf.of_opens (hflushFirst.sublist hall) (hall.filter _)
  · rw [← htext]
    simp only [Turn.text, map_append, map_cons, map_nil, sum_append,
      sum_singleton, stepText, visibleText_foldl_appendText, visibleText_filter_not_blank]
    have hmap : ∀ segs : List TurnSegment, (segs.map TurnSegment.text).map visibleText =
        segs.map segmentText := fun segs => List.map_map
    rw [← First.sum_filter_add_not segmentText (·.goesTo toolCallId) taken.1.segments, hmap]
    abel

theorem phaseEnd_keeps (hwf : turn.Wf) :
    (reduceEvent turn .toolPhaseEnd).Wf ∧ (reduceEvent turn .toolPhaseEnd).text = turn.text ∧
      (reduceEvent turn .toolPhaseEnd).segments.countP TurnSegment.openCommentary = 0 := by
  have hfirst : Turn.OpenFirst
      { closeOpenCommentaryExcept turn none with toolPhaseOpen := false } :=
    hwf.openFirst.closeExcept none
  have hzero : (closeOpenCommentaryExcept turn none).segments.countP
      TurnSegment.openCommentary = 0 :=
    countP_eq_zero.mpr fun s hs => by simp [closeExcept_none hwf.openFirst s hs]
  obtain ⟨hflushFirst, hflushOpens⟩ := flush_keeps hfirst
  have hnone : (reduceEvent turn .toolPhaseEnd).segments.countP TurnSegment.openCommentary = 0 := by
    rw [countP_openCommentary] at hzero ⊢
    rw [reduceEvent, hflushOpens]
    exact hzero
  refine ⟨⟨hflushFirst, by rw [hnone]; exact Nat.zero_le 1⟩, ?_, hnone⟩
  rw [reduceEvent, text_flush]
  exact text_closeExcept hwf.openFirst none

/-- One event keeps the turn well formed and adds what it delivers. -/
theorem event_keeps (hwf : turn.Wf) {event : TurnEvent} (hok : Spares turn event) :
    (reduceEvent turn event).Wf ∧
      (reduceEvent turn event).text = turn.text + deliveredBy event := by
  cases event with
  | timelineAssistant text =>
    simp only [reduceEvent, deliveredBy, add_zero]
    split
    · exact ⟨hwf, rfl⟩
    · exact ⟨⟨hwf.openFirst, hwf.one⟩, rfl⟩
  | segmentStart segmentId kind beforeToolCallId =>
    simp only [reduceEvent, deliveredBy, add_zero]
    exact start_keeps hwf hok
  | segmentDelta segmentId delta => exact delta_keeps hwf hok
  | segmentEnd segmentId =>
    simp only [reduceEvent, deliveredBy, add_zero]
    exact end_keeps hwf hok
  | toolCall toolCallId name summary =>
    simp only [reduceEvent, deliveredBy, add_zero]
    exact toolCall_keeps hwf hok
  | toolPhaseEnd =>
    simp only [deliveredBy, add_zero]
    exact ⟨(phaseEnd_keeps hwf).1, (phaseEnd_keeps hwf).2.1⟩

theorem run_keeps (events : List TurnEvent) (hwf : turn.Wf)
    (hok : Run.AllOk reduceEvent Spares turn events) :
    (Run.run reduceEvent turn events).Wf ∧
      (Run.run reduceEvent turn events).text = turn.text + delivered events := by
  induction events generalizing turn with
  | nil => exact ⟨hwf, by simp [delivered]⟩
  | cons event events ih =>
    obtain ⟨hnext, htext⟩ := event_keeps hwf hok.1
    obtain ⟨hwf', htext'⟩ := ih hnext hok.2
    refine ⟨hwf', ?_⟩
    rw [Run.run_cons, htext', htext, add_assoc]
    rfl

theorem wf_empty : Turn.empty.Wf := ⟨List.Pairwise.nil, Nat.zero_le 1⟩

/-- In a run that spares the text, at every point: one open commentary segment at most, none right
after the tool phase, and on the steps and in the segments exactly what the deltas brought. -/
theorem commentary_conserved (events : List TurnEvent)
    (hok : Run.AllOk reduceEvent Spares .empty events) (before after : List TurnEvent)
    (hsplit : events = before ++ after) :
    (reduceAll before).segments.countP TurnSegment.openCommentary ≤ 1 ∧
      (before.getLast? = some .toolPhaseEnd →
        (reduceAll before).segments.countP TurnSegment.openCommentary = 0) ∧
      (reduceAll before).text = delivered before := by
  rw [hsplit, Run.allOk_append] at hok
  obtain ⟨hwf, htext⟩ := run_keeps before wf_empty hok.1
  refine ⟨hwf.one, fun hlast => ?_, by rw [reduceAll, htext]; exact zero_add _⟩
  obtain ⟨rest, rfl⟩ := getLast?_eq_some_iff.mp hlast
  rw [Run.allOk_append] at hok
  rw [reduceAll, Run.run_append]
  exact (phaseEnd_keeps (run_keeps rest wf_empty hok.1.1).1).2.2

/-- A delta, a tool call and a late delta, each to a segment the run knows. -/
theorem commentary_conserved_late_delta :
    Run.AllOk reduceEvent Spares .empty [.segmentStart "seg-before-t" .commentary (some "t"),
      .segmentDelta "seg-before-t" "a", .toolCall "t" "read" "", .segmentDelta "seg-before-t" "b"] ∧
    (reduceAll [.segmentStart "seg-before-t" .commentary (some "t"),
      .segmentDelta "seg-before-t" "a", .toolCall "t" "read" "",
      .segmentDelta "seg-before-t" "b"]).text = {'a', 'b'} := by
  have hok : Run.AllOk reduceEvent Spares .empty
      [.segmentStart "seg-before-t" .commentary (some "t"),
        .segmentDelta "seg-before-t" "a", .toolCall "t" "read" "",
        .segmentDelta "seg-before-t" "b"] := by
    refine ⟨?_, ?_, ?_, ?_, trivial⟩
    · intro _ s hs
      simp [Turn.empty] at hs
    · exact Or.inr (Or.inr (by decide))
    · intro seg hseg
      have hnone : (Run.run reduceEvent .empty [.segmentStart "seg-before-t" .commentary (some "t"),
          .segmentDelta "seg-before-t" "a"]).segmentById pendingStreamCommentarySegmentId =
          none := by
        decide
      simp only [Run.run_cons, Run.run_nil] at hnone
      rw [hnone] at hseg
      cases hseg
    · exact Or.inr (Or.inr (by decide))
  exact ⟨hok, (commentary_conserved _ hok _ [] (append_nil _).symm).2.2⟩

/-- Every delta goes to a segment started as commentary, or names its anchor. -/
def deltasAddressed (started : List String) : List TurnEvent → Bool
  | [] => true
  | .segmentStart segmentId .commentary _ :: events => deltasAddressed (segmentId :: started) events
  | .segmentDelta segmentId _ :: events =>
    (started.contains segmentId || (anchorOfId segmentId).isSome) && deltasAddressed started events
  | _ :: events => deltasAddressed started events

/-- The tool call takes the open segment onto its step; the next delta to it is dropped. -/
theorem late_delta_dropped :
    ¬ ∀ events, deltasAddressed [] events = true → (reduceAll events).text = delivered events := by
  intro h
  have hbad := h [.segmentStart "s" .commentary (some "t"), .segmentDelta "s" "a",
    .toolCall "t" "read" "", .segmentDelta "s" "b"] (by decide)
  exact absurd hbad (by decide)

end Events
end CrabMate.Layout
