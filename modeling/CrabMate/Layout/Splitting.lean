import CrabMate.Layout.Conservation

/-! The commentary of one tool call: however its text is split into deltas and wherever the tool
call comes among the events of its segment, the step should end up with the same text. -/
namespace CrabMate.Layout
open RustStr List

section Ids

def segBefore (toolCallId : String) : String := segBeforeLead ++ toolCallId

theorem anchorOfId_segBefore (toolCallId : String) :
    anchorOfId (segBefore toolCallId) = some toolCallId := by
  rw [anchorOfId, segBefore, String.toList_append, stripPrefix?_append, Option.map_some,
    String.ofList_toList]

/-- The head of an id tells the kinds of ids apart. -/
theorem ne_of_head {s t lead : String} (h : lead.toList.isPrefixOf t.toList = false) :
    lead ++ s ≠ t := by
  rintro rfl
  have hlead : lead.toList.isPrefixOf (lead ++ s).toList = true := by
    rw [String.toList_append]
    exact isPrefixOf_iff_prefix.mpr (prefix_append _ _)
  rw [hlead] at h
  cases h

theorem segBefore_ne_pendingStream (toolCallId : String) :
    segBefore toolCallId ≠ pendingStreamCommentarySegmentId :=
  ne_of_head (by decide)

theorem pendingBefore_ne_pendingStream (toolCallId : String) :
    pendingBefore toolCallId ≠ pendingStreamCommentarySegmentId :=
  ne_of_head (by decide)

end Ids

section Splits

variable (toolCallId name summary : String)

/-- The events of the segment before the tool call, with its text in these deltas. -/
def segmentEvents (deltas : List String) : List TurnEvent :=
  .segmentStart (segBefore toolCallId) .commentary (some toolCallId) ::
    (deltas.map (.segmentDelta (segBefore toolCallId)) ++ [.segmentEnd (segBefore toolCallId)])

/-- The tool call comes after `i` of the events of its segment. -/
def eventsWithToolCall (deltas : List String) (i : ℕ) : List TurnEvent :=
  (segmentEvents toolCallId deltas).take i ++
    (.toolCall toolCallId name summary :: ((segmentEvents toolCallId deltas).drop i ++
      [.toolPhaseEnd]))

/-- The segment is open and holds the text. -/
def streaming (steps : List ToolStep) (text : String) (phase : Bool) : Turn :=
  ⟨[], steps, [⟨segBefore toolCallId, .commentary, some toolCallId, text, true⟩], phase⟩

/-- The step alone, with what it shows before the call. -/
def settled (commentary : Option String) (phase : Bool) : Turn :=
  ⟨[], [⟨toolCallId, name, summary, commentary⟩], [], phase⟩

def shown (text : String) : Option String := if isBlank text then none else some text

variable {toolCallId name summary}

theorem run_deltas_streaming (deltas : List String) (steps : List ToolStep) (text : String)
    (phase : Bool) :
    Run.run reduceEvent (streaming toolCallId steps text phase)
        (deltas.map (.segmentDelta (segBefore toolCallId))) =
      streaming toolCallId steps (text ++ String.join deltas) phase := by
  induction deltas generalizing text with
  | nil => simp
  | cons delta deltas ih =>
    have hstep : reduceEvent (streaming toolCallId steps text phase)
        (.segmentDelta (segBefore toolCallId) delta) =
          streaming toolCallId steps (text ++ delta) phase := by
      by_cases hempty : delta = ""
      · simp [reduceEvent, reduceSegmentDelta, hempty]
      · simp [reduceEvent, reduceSegmentDelta, hempty, streaming, Turn.segmentById,
          Turn.updateSegment]
    rw [map_cons, Run.run_cons, hstep, ih, String.join_cons, String.append_assoc]

/-- Without its segment a delta goes onto the step, unless it is blank. -/
theorem run_deltas_settled (deltas : List String) (commentary : String) (phase : Bool) :
    Run.run reduceEvent (settled toolCallId name summary (some commentary) phase)
        (deltas.map (.segmentDelta (segBefore toolCallId))) =
      settled toolCallId name summary
        (some (commentary ++ String.join (deltas.filter fun d => !isBlank d))) phase := by
  induction deltas generalizing commentary with
  | nil => simp
  | cons delta deltas ih =>
    have hstep : reduceEvent (settled toolCallId name summary (some commentary) phase)
        (.segmentDelta (segBefore toolCallId) delta) =
          settled toolCallId name summary
            (some (commentary ++ if isBlank delta then "" else delta)) phase := by
      by_cases hempty : delta = ""
      · simp [reduceEvent, reduceSegmentDelta, hempty]
      · cases hblank : isBlank delta with
        | true =>
          simp [reduceEvent, reduceSegmentDelta, hempty, settled, Turn.segmentById,
            anchorOfId_segBefore, attachClosedCommentaryToStep, hblank]
        | false =>
          simp [reduceEvent, reduceSegmentDelta, hempty, settled, Turn.segmentById,
            anchorOfId_segBefore, attachClosedCommentaryToStep, hblank, Turn.stepByCallId,
            Turn.updateStep, ToolStep.addCommentary]
    rw [map_cons, Run.run_cons, hstep, ih]
    cases hblank : isBlank delta <;> simp [hblank, String.append_assoc]

theorem start_empty : reduceEvent .empty
      (.segmentStart (segBefore toolCallId) .commentary (some toolCallId)) =
    streaming toolCallId [] "" false := by
  simp [reduceEvent, reduceSegmentStart, Turn.segmentById, Turn.empty, closeOpenCommentaryExcept,
    takeStepCommentary, Turn.stepByCallId, Turn.updateStep, takePendingStreamCommentary,
    Turn.pushSegment, streaming]

theorem start_settled : reduceEvent (settled toolCallId name summary none true)
      (.segmentStart (segBefore toolCallId) .commentary (some toolCallId)) =
    streaming toolCallId [⟨toolCallId, name, summary, none⟩] "" true := by
  simp [reduceEvent, reduceSegmentStart, Turn.segmentById, settled, closeOpenCommentaryExcept,
    takeStepCommentary, Turn.stepByCallId, Turn.updateStep, takePendingStreamCommentary,
    Turn.pushSegment, streaming]

theorem end_streaming_step (text : String) :
    reduceEvent (streaming toolCallId [⟨toolCallId, name, summary, none⟩] text true)
        (.segmentEnd (segBefore toolCallId)) =
      settled toolCallId name summary (shown text) true := by
  cases hblank : isBlank text <;>
    simp [reduceEvent, reduceSegmentEnd, streaming, Turn.segmentById, settled,
      segBefore_ne_pendingStream, attachClosedCommentaryToStep, hblank, Turn.stepByCallId,
      Turn.updateStep, ToolStep.addCommentary, shown]

theorem end_settled (commentary : Option String) :
    reduceEvent (settled toolCallId name summary commentary true)
        (.segmentEnd (segBefore toolCallId)) =
      settled toolCallId name summary commentary true := by
  simp [reduceEvent, reduceSegmentEnd, settled, Turn.segmentById]

theorem phaseEnd_settled (commentary : Option String) :
    reduceEvent (settled toolCallId name summary commentary true) .toolPhaseEnd =
      settled toolCallId name summary commentary false := by
  simp [reduceEvent, settled, closeOpenCommentaryExcept, flushSegmentsOntoSteps]

theorem toolCall_empty : reduceEvent .empty (.toolCall toolCallId name summary) =
    settled toolCallId name summary none true := by
  simp [reduceEvent, reduceToolCall, Turn.empty, closeOpenSegmentIfPresent,
    flushSegmentsOntoSteps, takePendingStreamCommentary, settled]

/-- The tool call takes what the open segment holds, unless it is blank. -/
theorem toolCall_streaming (text : String) :
    reduceEvent (streaming toolCallId [] text false) (.toolCall toolCallId name summary) =
      if isBlank text then streaming toolCallId [⟨toolCallId, name, summary, none⟩] text true
      else settled toolCallId name summary (some text) true := by
  cases hblank : isBlank text <;>
    simp [reduceEvent, reduceToolCall, streaming, closeOpenSegmentIfPresent,
      segBefore_ne_pendingStream, flushSegmentsOntoSteps, TurnSegment.flushable,
      takePendingStreamCommentary, TurnSegment.isPendingStream, TurnSegment.goesTo, hblank,
      appendText, settled]

/-- The segment ended before its tool call: its text waits under the id of the pending text. -/
theorem end_toolCall_streaming (text : String) :
    reduceEvent (reduceEvent (streaming toolCallId [] text false)
        (.segmentEnd (segBefore toolCallId))) (.toolCall toolCallId name summary) =
      settled toolCallId name summary (shown text) true := by
  cases hblank : isBlank text <;>
    simp [reduceEvent, reduceSegmentEnd, streaming, Turn.segmentById, segBefore_ne_pendingStream,
      attachClosedCommentaryToStep, hblank, Turn.stepByCallId, Turn.pushSegment, reduceToolCall,
      closeOpenSegmentIfPresent, flushSegmentsOntoSteps, TurnSegment.flushable, attachSegment,
      pendingBefore_ne_pendingStream, takePendingStreamCommentary, TurnSegment.isPendingStream,
      TurnSegment.goesTo, appendText, settled, shown]

/-- What the step shows in the end, by where the tool call came. -/
theorem reduceAll_toolCall_first (deltas : List String) :
    reduceAll (eventsWithToolCall toolCallId name summary deltas 0) =
      settled toolCallId name summary (shown (String.join deltas)) false := by
  rw [eventsWithToolCall, take_zero, drop_zero, nil_append, segmentEvents, reduceAll]
  simp only [Run.run_cons, cons_append, append_assoc, Run.run_append, Run.run_nil,
    toolCall_empty, start_settled, run_deltas_streaming, end_streaming_step, phaseEnd_settled,
    String.empty_append]

theorem reduceAll_toolCall_within (toolCallId name summary : String)
    (before behind : List String) :
    reduceAll (eventsWithToolCall toolCallId name summary (before ++ behind)
        (before.length + 1)) =
      settled toolCallId name summary
        (if isBlank (String.join before) then shown (String.join (before ++ behind))
          else some (String.join before ++ String.join (behind.filter fun d => !isBlank d)))
        false := by
  have htake : (segmentEvents toolCallId (before ++ behind)).take (before.length + 1) =
      .segmentStart (segBefore toolCallId) .commentary (some toolCallId) ::
        before.map (.segmentDelta (segBefore toolCallId)) := by
    rw [segmentEvents, take_succ_cons, map_append, append_assoc,
      take_left' (List.length_map _)]
  have hdrop : (segmentEvents toolCallId (before ++ behind)).drop (before.length + 1) =
      behind.map (.segmentDelta (segBefore toolCallId)) ++
        [.segmentEnd (segBefore toolCallId)] := by
    rw [segmentEvents, drop_succ_cons, map_append, append_assoc,
      drop_left' (List.length_map _)]
  rw [eventsWithToolCall, htake, hdrop, reduceAll]
  simp only [cons_append, Run.run_cons, Run.run_append, Run.run_nil, start_empty,
    run_deltas_streaming, String.empty_append, toolCall_streaming]
  split
  · simp only [run_deltas_streaming, end_streaming_step, phaseEnd_settled, String.join_append]
  · simp only [run_deltas_settled, end_settled, phaseEnd_settled]

theorem reduceAll_toolCall_last (deltas : List String) {i : ℕ} (hi : deltas.length + 2 ≤ i) :
    reduceAll (eventsWithToolCall toolCallId name summary deltas i) =
      settled toolCallId name summary (shown (String.join deltas)) false := by
  have hlen : (segmentEvents toolCallId deltas).length ≤ i := by
    simp only [segmentEvents, length_cons, length_append, List.length_map,
      length_nil]
    omega
  rw [eventsWithToolCall, take_of_length_le hlen, drop_eq_nil_of_le hlen, segmentEvents,
    reduceAll]
  simp only [Run.run_cons, cons_append, nil_append, append_assoc, Run.run_append,
    Run.run_nil, start_empty, run_deltas_streaming, end_toolCall_streaming, phaseEnd_settled,
    String.empty_append]

theorem shown_getD_iff (text : String) :
    (shown text).getD "" = text ↔ (isBlank text = true → text = "") := by
  unfold shown
  cases isBlank text with
  | true => simp [eq_comm]
  | false => simp

theorem length_join_filter_le (deltas : List String) :
    (String.join (deltas.filter fun d => !isBlank d)).length ≤ (String.join deltas).length := by
  induction deltas with
  | nil => exact Nat.le_refl _
  | cons d deltas ih =>
    cases hblank : isBlank d <;>
      simp only [filter_cons, hblank, Bool.not_true, Bool.not_false, Bool.false_eq_true,
        ↓reduceIte, String.join_cons, String.length_append] <;> omega

/-- Leaving the blank deltas out changes the text unless they are empty. -/
theorem join_filter_iff (deltas : List String) :
    String.join (deltas.filter fun d => !isBlank d) = String.join deltas ↔
      ∀ d ∈ deltas, isBlank d = true → d = "" := by
  induction deltas with
  | nil => simp
  | cons d deltas ih =>
    rw [forall_mem_cons]
    cases hblank : isBlank d with
    | false => simp [hblank, ← ih]
    | true =>
      simp only [filter_cons, hblank, Bool.not_true, Bool.false_eq_true, ↓reduceIte,
        String.join_cons, forall_const]
      constructor
      · intro heq
        have hlen := congrArg String.length heq
        rw [String.length_append] at hlen
        have hle := length_join_filter_le deltas
        have hd : d = "" := String.length_eq_zero_iff.mp (by omega)
        exact ⟨hd, ih.mp (by rw [heq, hd, String.empty_append])⟩
      · rintro ⟨rfl, hrest⟩
        rw [ih.mpr hrest, String.empty_append]

theorem not_blank_join_append {before : List String} (behind : List String)
    (h : isBlank (String.join before) = false) :
    isBlank (String.join (before ++ behind)) = false := by
  cases hblank : isBlank (String.join (before ++ behind)) with
  | false => rfl
  | true =>
    rw [isBlank_iff, String.join_append, String.toList_append] at hblank
    have hbefore : isBlank (String.join before) = true :=
      isBlank_iff.mpr fun c hc => hblank c (mem_append_left _ hc)
    rw [hbefore] at h
    cases h

theorem stepByCallId_settled (commentary : Option String) (text : String) :
    (∃ step, (settled toolCallId name summary commentary false).stepByCallId toolCallId =
      some step ∧ step.beforeCommentary.getD "" = text) ↔ commentary.getD "" = text := by
  simp [settled, Turn.stepByCallId]

/-- The step shows the text of the deltas unless the text is blank, or the tool call came after
some of it was there and a blank delta after the tool call. -/
theorem layout_independent_iff (toolCallId name summary : String) (deltas : List String) (i : ℕ) :
    (∃ step, (reduceAll (eventsWithToolCall toolCallId name summary deltas i)).stepByCallId
        toolCallId = some step ∧ step.beforeCommentary.getD "" = String.join deltas) ↔
      (isBlank (String.join deltas) = true → String.join deltas = "") ∧
        (isBlank (String.join (deltas.take (i - 1))) = false →
          ∀ d ∈ deltas.drop (i - 1), isBlank d = true → d = "") := by
  rcases Nat.eq_zero_or_pos i with rfl | hpos
  · have hnothing : isBlank (String.join (deltas.take 0)) = true := rfl
    rw [reduceAll_toolCall_first, stepByCallId_settled, shown_getD_iff, hnothing]
    simp
  · rcases Nat.lt_or_ge i (deltas.length + 2) with hlt | hge
    · obtain ⟨k, rfl⟩ : ∃ k, i = k + 1 := ⟨i - 1, by omega⟩
      have hk : (deltas.take k).length = k := by
        rw [length_take]
        omega
      have hwithin := reduceAll_toolCall_within toolCallId name summary (deltas.take k)
        (deltas.drop k)
      rw [take_append_drop, hk] at hwithin
      rw [hwithin, stepByCallId_settled, Nat.add_sub_cancel]
      cases hblank : isBlank (String.join (deltas.take k)) with
      | true => simp [shown_getD_iff]
      | false =>
        have hnot := not_blank_join_append (deltas.drop k) hblank
        rw [take_append_drop] at hnot
        simp only [Bool.false_eq_true, ↓reduceIte, Option.getD_some, hnot, false_implies, true_and,
          forall_const]
        rw [← join_filter_iff]
        conv_lhs => rhs; rw [← take_append_drop k deltas, String.join_append]
        exact String.append_right_inj _
    · have hall : deltas.drop (i - 1) = [] := drop_eq_nil_of_le (by omega)
      rw [reduceAll_toolCall_last deltas hge, stepByCallId_settled, shown_getD_iff, hall]
      simp

/-- The tool call comes behind the first delta and the blank between the words behind that. -/
theorem layout_drops_blank_delta :
    ¬ ∀ (toolCallId name summary : String) (deltas : List String) (i : ℕ), ∃ step,
      (reduceAll (eventsWithToolCall toolCallId name summary deltas i)).stepByCallId
        toolCallId = some step ∧ step.beforeCommentary.getD "" = String.join deltas := by
  intro h
  obtain ⟨step, hstep, htext⟩ := h "t" "read" "" ["a", " ", "b"] 2
  have hfound : (reduceAll (eventsWithToolCall "t" "read" "" ["a", " ", "b"] 2)).stepByCallId "t" =
      some ⟨"t", "read", "", some "ab"⟩ := by decide
  rw [hfound, Option.some.injEq] at hstep
  subst hstep
  exact absurd htext (by decide)

end Splits
end CrabMate.Layout
