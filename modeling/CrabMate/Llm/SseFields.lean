import CrabMate.Lib.Utf8Lines
import CrabMate.Llm.SseParser

/-! The reply of an event stream, whatever the chunks it arrives in, and the reply that its `data`
fields make under the grammar of event streams. -/
namespace CrabMate
open List Option RustStr

open RustStr (Str)

variable {U : Type} (parse : Str → Option (StreamChunk U))

/-! The reply does not depend on the chunks. -/

/-- The complete lines of the bytes, and what follows the last line feed. -/
def lineSplit : List UInt8 → List (List UInt8) × List UInt8
  | [] => ([], [])
  | b :: rest =>
    if b = 10 then ([] :: (lineSplit rest).1, (lineSplit rest).2)
    else
      match lineSplit rest with
      | ([], residue) => ([], b :: residue)
      | (line :: lines, residue) => ((b :: line) :: lines, residue)

theorem lineSplit_of_splitLine_none {bytes : List UInt8} (h : splitLine bytes = none) :
    lineSplit bytes = ([], bytes) := by
  induction bytes with
  | nil => rfl
  | cons b rest ih =>
    rw [splitLine] at h
    split at h
    · cases h
    · next hb =>
      rw [lineSplit, if_neg hb, ih (map_eq_none_iff.mp h)]

theorem lineSplit_of_splitLine_some {bytes line rest : List UInt8}
    (h : splitLine bytes = some (line, rest)) :
    lineSplit bytes = (line :: (lineSplit rest).1, (lineSplit rest).2) ∧
      rest.length < bytes.length := by
  induction bytes generalizing line with
  | nil => cases h
  | cons b bytes ih =>
    rw [splitLine] at h
    split at h
    · next hb =>
      obtain ⟨rfl, rfl⟩ := Prod.mk.inj (Option.some.inj h)
      exact ⟨by rw [lineSplit, if_pos hb], by simp⟩
    · next hb =>
      obtain ⟨⟨l, r⟩, hp, heq⟩ := map_eq_some_iff.mp h
      obtain ⟨rfl, rfl⟩ := Prod.mk.inj heq
      obtain ⟨hsplit, hlen⟩ := ih hp
      refine ⟨by rw [lineSplit, if_neg hb, hsplit], ?_⟩
      exact Nat.lt_succ_of_lt hlen

theorem lineSplit_append (a b : List UInt8) :
    lineSplit (a ++ b) =
      ((lineSplit a).1 ++ (lineSplit ((lineSplit a).2 ++ b)).1,
        (lineSplit ((lineSplit a).2 ++ b)).2) := by
  induction a with
  | nil => rfl
  | cons x a ih =>
    rw [cons_append, lineSplit, lineSplit, ih]
    by_cases hx : x = 10
    · simp [hx]
    · simp only [hx, if_false]
      cases hsplit : lineSplit a with
      | mk lines residue =>
        cases lines with
        | nil => simp [lineSplit, hx]
        | cons line lines => simp

section StreamDone

namespace SseConsumeScratch

@[simp] theorem streamDone_pushReasoning (s : SseConsumeScratch U) (fragment : Str) :
    (s.pushReasoning fragment).accum.streamDone = s.accum.streamDone := rfl

theorem streamDone_accumulateDetail (s : SseConsumeScratch U) (detail : ℕ × JsonValue) :
    (s.accumulateDetail detail).accum.streamDone = s.accum.streamDone := by
  unfold accumulateDetail
  split
  · rfl
  · rfl

theorem streamDone_accumulateMinimaxReasoningDetails (s : SseConsumeScratch U)
    (details : List JsonValue) :
    (s.accumulateMinimaxReasoningDetails details).accum.streamDone = s.accum.streamDone := by
  unfold accumulateMinimaxReasoningDetails
  generalize (List.range details.length).zip details = entries
  have hfold : ∀ t : SseConsumeScratch U,
      (entries.foldl accumulateDetail t).accum.streamDone = t.accum.streamDone := by
    induction entries with
    | nil => exact fun _ => rfl
    | cons entry entries ih =>
      intro t
      rw [foldl_cons, ih, streamDone_accumulateDetail]
  exact hfold _

theorem streamDone_ingestReasoning (s : SseConsumeScratch U) (delta : StreamDelta) :
    (s.ingestReasoning delta).accum.streamDone = s.accum.streamDone := by
  unfold ingestReasoning
  cases delta.reasoningContent with
  | none =>
    dsimp only
    split
    · rfl
    · exact streamDone_accumulateMinimaxReasoningDetails s _
  | some text =>
    dsimp only
    by_cases h : (delta.reasoningDetails.getD []).isEmpty = true
    · simp [h]
    · simp [h, streamDone_accumulateMinimaxReasoningDetails]

theorem streamDone_applyFinishReason (s : SseConsumeScratch U) (choice : StreamChoice) :
    (s.applyFinishReason choice).accum.streamDone = s.accum.streamDone := by
  unfold applyFinishReason
  split
  · rfl
  · rfl

theorem streamDone_ingestChunk (s : SseConsumeScratch U) (chunk : StreamChunk U) :
    (s.ingestChunk chunk).accum.streamDone = s.accum.streamDone := by
  have hchoice : ∀ choice : StreamChoice,
      ((((s.applyFinishReason choice).ingestReasoning choice.delta).ingestContent
        choice.delta).ingestToolCalls choice.delta).accum.streamDone = s.accum.streamDone := by
    intro choice
    show ((s.applyFinishReason choice).ingestReasoning choice.delta).accum.streamDone = _
    rw [streamDone_ingestReasoning, streamDone_applyFinishReason]
  unfold ingestChunk
  cases (chunk.choices.getD []).head? with
  | none =>
    cases chunk.usage with
    | none => rfl
    | some u => rfl
  | some choice =>
    cases chunk.usage with
    | none => exact hchoice choice
    | some u => exact hchoice choice

theorem streamDone_ingestSseDataPayload (s : SseConsumeScratch U) (payload : Str) :
    (s.ingestSseDataPayload parse payload).accum.streamDone = s.accum.streamDone := by
  unfold ingestSseDataPayload
  split
  · rfl
  · split
    · rfl
    · exact streamDone_ingestChunk s _

end SseConsumeScratch

theorem streamDone_ingestOpenaiSseTrimmedLine (line : Str) (s : SseConsumeScratch U) :
    (ingestOpenaiSseTrimmedLine parse line s).2.accum.streamDone = s.accum.streamDone := by
  unfold ingestOpenaiSseTrimmedLine
  split
  · rfl
  · split
    · rfl
    · exact SseConsumeScratch.streamDone_ingestSseDataPayload parse s _

end StreamDone

/-- The reading of one complete line, once the stream has not ended before it. -/
def stepLine (s : SseConsumeScratch U) (line : List UInt8) : SseConsumeScratch U :=
  if s.accum.streamDone then s
  else
    let ingested := ingestOpenaiSseTrimmedLine parse (completeLineText line) s
    if ingested.1 then { ingested.2 with accum := { ingested.2.accum with streamDone := true } }
    else ingested.2

theorem foldl_stepLine_of_done {s : SseConsumeScratch U} (h : s.accum.streamDone = true)
    (lines : List (List UInt8)) : lines.foldl (stepLine parse) s = s := by
  induction lines with
  | nil => rfl
  | cons line lines ih => rw [foldl_cons, stepLine, if_pos h, ih]

/-- Draining the buffer reads its complete lines and keeps the residue. -/
theorem drainSseNewlinesFromBuf_eq (rounds : ℕ) (buf : List UInt8) (s : SseConsumeScratch U)
    (hrounds : buf.length ≤ rounds) (hs : s.accum.streamDone = false) :
    (drainSseNewlinesFromBuf parse rounds buf s).2 = (lineSplit buf).1.foldl (stepLine parse) s ∧
      ((drainSseNewlinesFromBuf parse rounds buf s).2.accum.streamDone = false →
        (drainSseNewlinesFromBuf parse rounds buf s).1 = (lineSplit buf).2) := by
  induction rounds generalizing buf s with
  | zero =>
    obtain rfl := length_eq_zero_iff.mp (Nat.le_zero.mp hrounds)
    exact ⟨rfl, fun _ => rfl⟩
  | succ rounds ih =>
    rw [drainSseNewlinesFromBuf]
    cases hsplit : splitLine buf with
    | none =>
      rw [lineSplit_of_splitLine_none hsplit]
      exact ⟨rfl, fun _ => rfl⟩
    | some parts =>
      obtain ⟨line, rest⟩ := parts
      obtain ⟨hlines, hlen⟩ := lineSplit_of_splitLine_some hsplit
      rw [hlines, foldl_cons, stepLine, if_neg (by simp [hs])]
      dsimp only
      have hkeep := streamDone_ingestOpenaiSseTrimmedLine parse (completeLineText line) s
      by_cases hdone : (ingestOpenaiSseTrimmedLine parse (completeLineText line) s).1 = true
      · rw [if_pos hdone, if_pos hdone]
        refine ⟨?_, fun h => absurd h (by simp)⟩
        rw [foldl_stepLine_of_done]
        rfl
      · rw [if_neg hdone, if_neg hdone]
        exact ih rest _ (by omega) (hkeep.trans hs)

/-- After any chunks, the complete lines so far have been read and the residue is buffered. -/
theorem consumeChunks_eq (chunks : List (List UInt8)) (seen : List UInt8)
    (buf : List UInt8) (s : SseConsumeScratch U)
    (hs : s = (lineSplit seen).1.foldl (stepLine parse) .new)
    (hbuf : buf = (lineSplit seen).2) (hopen : s.accum.streamDone = false) :
    let bytes := seen ++ chunks.flatten
    (consumeChunks parse chunks buf s).2 = (lineSplit bytes).1.foldl (stepLine parse) .new ∧
      ((consumeChunks parse chunks buf s).2.accum.streamDone = false →
        (consumeChunks parse chunks buf s).1 = (lineSplit bytes).2) := by
  induction chunks generalizing seen buf s with
  | nil =>
    rw [flatten_nil, append_nil]
    exact ⟨hs, fun _ => hbuf⟩
  | cons chunk chunks ih =>
    obtain ⟨hread, hleft⟩ :=
      drainSseNewlinesFromBuf_eq parse (buf ++ chunk).length (buf ++ chunk) s le_rfl hopen
    have hlines := lineSplit_append seen chunk
    rw [← hbuf] at hlines
    have hscratch : (drainSseNewlinesFromBuf parse (buf ++ chunk).length (buf ++ chunk) s).2 =
        (lineSplit (seen ++ chunk)).1.foldl (stepLine parse) .new := by
      rw [hread, hlines, foldl_append, ← hs]
    rw [flatten_cons, ← append_assoc, consumeChunks]
    dsimp only
    by_cases hdone : (drainSseNewlinesFromBuf parse (buf ++ chunk).length (buf ++ chunk)
        s).2.accum.streamDone = true
    · rw [if_pos hdone]
      refine ⟨?_, fun h => absurd (hdone.symm.trans h) (by simp)⟩
      rw [lineSplit_append (seen ++ chunk), foldl_append, ← hscratch,
        foldl_stepLine_of_done parse hdone]
    · rw [if_neg hdone]
      have hopen' := Bool.eq_false_iff.mpr hdone
      exact ih (seen ++ chunk) _ _ hscratch ((hleft hopen').trans (by rw [hlines])) hopen'

/-- The reply is a function of the bytes alone. -/
theorem consumeOpenaiSseByteStream_eq (chunks : List (List UInt8)) :
    consumeOpenaiSseByteStream parse chunks =
      (ingestSseResidualBufferIfNeeded parse (lineSplit chunks.flatten).2
        ((lineSplit chunks.flatten).1.foldl (stepLine parse) .new)).accum := by
  obtain ⟨hread, hleft⟩ := consumeChunks_eq parse chunks [] [] .new rfl rfl rfl
  rw [nil_append] at hread hleft
  rw [consumeOpenaiSseByteStream, ← hread]
  cases hdone : (consumeChunks parse chunks [] SseConsumeScratch.new).2.accum.streamDone with
  | true => simp [ingestSseResidualBufferIfNeeded, hdone]
  | false => rw [hleft hdone]

/-! The fields of an event stream. -/

def byteOrderMark : List UInt8 := [0xEF, 0xBB, 0xBF]

def stripBom (bytes : List UInt8) : List UInt8 :=
  if byteOrderMark.isPrefixOf bytes then bytes.drop 3 else bytes

/-- The value of a `data` field: what follows the colon, without one space. -/
def dataFieldValue (line : Str) : Option Str :=
  match RustStr.stripPrefix? "data:".toList line with
  | some value => some ((RustStr.stripPrefix? [' '] value).getD value)
  | none => if line = "data".toList then some [] else none

/-- The values of the `data` fields between two line feeds. A carriage return ends a line as well;
the empty line that is left between it and a line feed has no field. -/
def fieldValues (line : List UInt8) : List Str :=
  (line.splitOn 13).filterMap fun part => dataFieldValue (Utf8.fromUtf8Lossy part)

def sseDataFields (bytes : List UInt8) : List Str :=
  let cut := lineSplit (stripBom bytes)
  (cut.1 ++ [cut.2]).flatMap fieldValues

def SseConsumeScratch.ended (s : SseConsumeScratch U) : SseConsumeScratch U :=
  { s with accum := { s.accum with streamDone := true } }

/-- The fields one after another, up to the end marker. -/
def processDataFields : List Str → SseConsumeScratch U → SseConsumeScratch U
  | [], s => s
  | value :: values, s =>
    if RustStr.trim value = doneSentinel then s.ended
    else processDataFields values (s.ingestSseDataPayload parse (RustStr.trim value))

def replyOfDataFields (bytes : List UInt8) : SseStreamAccum U :=
  (processDataFields parse (sseDataFields bytes) .new).accum

/-! Streams whose lines are read by their fields. -/

/-- Not the end marker, and nothing that adds to a reply. -/
def Idle (payload : Str) : Prop :=
  payload ≠ doneSentinel ∧
    (payload = [] ∨ ∀ chunk ∈ parse payload, ∀ s : SseConsumeScratch U, s.ingestChunk chunk = s)

/-- Neither the `data` fields of the line add to a reply, nor what follows `data: ` in its text. -/
def Mute (line : List UInt8) (text : Str) : Prop :=
  (∀ value ∈ fieldValues line, Idle parse (RustStr.trim value)) ∧
    ∀ rest ∈ RustStr.stripPrefix? dataPrefix text, Idle parse (RustStr.trim rest)

def Blank (bytes : List UInt8) : Prop :=
  ∀ c ∈ Utf8.fromUtf8Lossy bytes, RustStr.isWhitespace c = true

instance (bytes : List UInt8) : Decidable (Blank bytes) :=
  inferInstanceAs (Decidable (∀ c ∈ Utf8.fromUtf8Lossy bytes, RustStr.isWhitespace c = true))

/-- Between two line feeds stands one line that begins with `data: `, besides it only blanks. -/
def PlainField (line : List UInt8) : Prop :=
  ∃ front field back, line.splitOn 13 = front ++ field :: back ∧
    (∀ part ∈ front ++ back, Blank part) ∧ dataPrefix <+: Utf8.fromUtf8Lossy field

/-- One of the fields is the end marker. -/
def EndsStream (line : List UInt8) : Prop := doneSentinel ∈ (fieldValues line).map RustStr.trim

instance (line : List UInt8) : Decidable (EndsStream line) :=
  inferInstanceAs (Decidable (doneSentinel ∈ (fieldValues line).map RustStr.trim))

/-- Up to an end marker, what stands between two line feeds is a plain field in UTF-8 or adds
nothing. Behind the last line feed the end marker does not stand. -/
def PlainLines : List (List UInt8) → List UInt8 → Prop
  | [], residue =>
    PlainField residue ∧ ¬ EndsStream residue ∨
      Mute parse residue (RustStr.trim (Utf8.fromUtf8Lossy residue))
  | line :: lines, residue =>
    PlainField line ∧ (Utf8.fromUtf8 line).isSome ∧ (EndsStream line ∨ PlainLines lines residue) ∨
      Mute parse line (completeLineText line) ∧ PlainLines lines residue

/-- A line behind a byte order mark adds nothing, with the mark and without. -/
def PlainStream (bytes : List UInt8) : Prop :=
  if byteOrderMark.isPrefixOf bytes then
    match lineSplit bytes with
    | ([], residue) =>
      Mute parse residue (RustStr.trim (Utf8.fromUtf8Lossy residue)) ∧
        ∀ value ∈ fieldValues (residue.drop 3), Idle parse (RustStr.trim value)
    | (line :: lines, residue) =>
      Mute parse line (completeLineText line) ∧
        (∀ value ∈ fieldValues (line.drop 3), Idle parse (RustStr.trim value)) ∧
        PlainLines parse lines residue
  else PlainLines parse (lineSplit bytes).1 (lineSplit bytes).2

section Read

variable {parse} {line residue : List UInt8} {s : SseConsumeScratch U} {payload : Str}

theorem Idle.ingest_eq (h : Idle parse payload) (s : SseConsumeScratch U) :
    s.ingestSseDataPayload parse payload = s := by
  unfold SseConsumeScratch.ingestSseDataPayload
  obtain ⟨-, rfl | hread⟩ := h
  · rfl
  · split
    · rfl
    · cases hparse : parse payload with
      | none => rfl
      | some chunk => exact hread chunk hparse s

theorem processDataFields_idle {values : List Str}
    (h : ∀ value ∈ values, Idle parse (RustStr.trim value)) (rest : List Str)
    (s : SseConsumeScratch U) :
    processDataFields parse (values ++ rest) s = processDataFields parse rest s := by
  induction values with
  | nil => rfl
  | cons value values ih =>
    have hidle := h value mem_cons_self
    rw [cons_append, processDataFields, if_neg hidle.1, hidle.ingest_eq]
    exact ih fun v hv => h v (mem_cons_of_mem value hv)

theorem stepLine_mute (h : Mute parse line (completeLineText line)) (s : SseConsumeScratch U) :
    stepLine parse s line = s := by
  unfold stepLine ingestOpenaiSseTrimmedLine
  cases hstrip : RustStr.stripPrefix? dataPrefix (completeLineText line) with
  | none => simp
  | some rest =>
    have hidle := h.2 rest hstrip
    simp [hidle.1, hidle.ingest_eq]

theorem ingestSseResidualBufferIfNeeded_mute
    (h : Mute parse residue (RustStr.trim (Utf8.fromUtf8Lossy residue)))
    (s : SseConsumeScratch U) : ingestSseResidualBufferIfNeeded parse residue s = s := by
  unfold ingestSseResidualBufferIfNeeded
  split
  · rfl
  · cases hstrip : RustStr.stripPrefix? dataPrefix
        (RustStr.trim (Utf8.fromUtf8Lossy residue)) with
    | none => rfl
    | some rest =>
      have hidle := h.2 rest hstrip
      simp [hidle.1, hidle.ingest_eq]

/-! A plain field. -/

theorem fromUtf8Lossy_splitOn (line : List UInt8) :
    Utf8.fromUtf8Lossy line =
      ['\r'].intercalate ((line.splitOn 13).map Utf8.fromUtf8Lossy) := by
  have hparts : ∀ parts : List (List UInt8), Utf8.fromUtf8Lossy ([13].intercalate parts) =
      ['\r'].intercalate (parts.map Utf8.fromUtf8Lossy) := by
    intro parts
    induction parts with
    | nil => rfl
    | cons part parts ih =>
      cases parts with
      | nil => simp
      | cons next parts =>
        rw [intercalate_cons_cons, append_assoc, singleton_append,
          Utf8.fromUtf8Lossy_ascii (by decide), ih]
        simp [intercalate_cons_cons]
  rw [← hparts, intercalate_splitOn]

theorem blank_intercalate {parts : List Str}
    (h : ∀ part ∈ parts, ∀ c ∈ part, RustStr.isWhitespace c = true) :
    ∀ c ∈ ['\r'].intercalate parts, RustStr.isWhitespace c = true := by
  induction parts with
  | nil => simp
  | cons part parts ih =>
    have hrest := ih fun p hp => h p (mem_cons_of_mem part hp)
    cases parts with
    | nil => simpa using h
    | cons next parts =>
      intro c hc
      rw [intercalate_cons_cons, append_assoc, mem_append, singleton_append,
        mem_cons] at hc
      obtain hc | rfl | hc := hc
      · exact h part mem_cons_self c hc
      · decide
      · exact hrest c hc

theorem trim_intercalate {front back : List Str} (text : Str)
    (hfront : ∀ part ∈ front, ∀ c ∈ part, RustStr.isWhitespace c = true)
    (hback : ∀ part ∈ back, ∀ c ∈ part, RustStr.isWhitespace c = true) :
    RustStr.trim (['\r'].intercalate (front ++ text :: back)) = RustStr.trim text := by
  have hlast : RustStr.trim (['\r'].intercalate (text :: back)) = RustStr.trim text := by
    cases back with
    | nil => simp
    | cons part back =>
      rw [intercalate_cons_cons, append_assoc]
      refine trim_of_spaces (a := []) (by simp) fun c hc => ?_
      obtain rfl | hc := mem_cons.mp hc
      · decide
      · exact blank_intercalate hback c hc
  induction front with
  | nil => exact hlast
  | cons part front ih =>
    have hspaces := trim_of_spaces (a := part ++ ['\r']) (b := [])
      (s := ['\r'].intercalate (front ++ text :: back)) (fun c hc => by
        obtain hc | hc := mem_append.mp hc
        · exact hfront part mem_cons_self c hc
        · obtain rfl := mem_singleton.mp hc
          decide) (by simp)
    rw [cons_append, intercalate_cons_of_ne_nil (by simp), ← append_nil (_ ++ _),
      append_assoc, hspaces]
    exact ih fun p hp => hfront p (mem_cons_of_mem part hp)

/-- Text behind `data: ` is the same after the whole line has been trimmed. -/
theorem stripPrefix?_trim (rest : Str) :
    ((RustStr.stripPrefix? dataPrefix (RustStr.trim (dataPrefix ++ rest))).map RustStr.trim).getD
      [] = RustStr.trim rest := by
  have hblank : ∀ c ∈ rest.rtakeWhile RustStr.isWhitespace, RustStr.isWhitespace c = true :=
    fun c hc => mem_rtakeWhile_imp hc
  have hcut : RustStr.trimEnd rest ++ rest.rtakeWhile RustStr.isWhitespace = rest :=
    rdropWhile_append_rtakeWhile
  have hrest := trim_of_spaces (a := []) (s := RustStr.trimEnd rest) (by simp) hblank
  have hline := trim_of_spaces (a := []) (s := dataPrefix ++ RustStr.trimEnd rest) (by simp)
    hblank
  rw [nil_append, hcut] at hrest
  rw [nil_append, append_assoc, hcut] at hline
  rw [hrest, hline, RustStr.trim]
  show ((RustStr.stripPrefix? dataPrefix
    (RustStr.trimEnd (dataPrefix ++ RustStr.trimEnd rest))).map RustStr.trim).getD [] = _
  by_cases hnil : RustStr.trimEnd rest = []
  · rw [hnil]
    decide
  · have hlast : RustStr.trimEnd (dataPrefix ++ RustStr.trimEnd rest) =
        dataPrefix ++ RustStr.trimEnd rest := by
      refine rdropWhile_eq_self_iff.mpr fun hne => ?_
      rw [getLast_append_of_ne_nil _ hnil]
      exact rdropWhile_last_not _ _ hnil
    rw [hlast, stripPrefix?_append]
    rfl

theorem PlainField.read (h : PlainField line) :
    ∃ value, fieldValues line = [value] ∧
      ((RustStr.stripPrefix? dataPrefix (RustStr.trim (Utf8.fromUtf8Lossy line))).map
        RustStr.trim).getD [] = RustStr.trim value := by
  obtain ⟨front, field, back, hparts, hblank, rest, hrest⟩ := h
  refine ⟨rest, ?_, ?_⟩
  · have hnone : ∀ part, Blank part → dataFieldValue (Utf8.fromUtf8Lossy part) = none := by
      intro part hpart
      cases htext : Utf8.fromUtf8Lossy part with
      | nil => rfl
      | cons c text =>
        have hc : c ≠ 'd' := by
          rintro rfl
          exact absurd (hpart 'd' (by simp [htext])) (by decide)
        simp [dataFieldValue, RustStr.stripPrefix?, List.isPrefixOf, hc.symm, hc]
    rw [fieldValues, hparts, filterMap_append,
      filterMap_eq_nil_iff.mpr fun p hp => hnone p (hblank p (mem_append_left _ hp)),
      filterMap_cons, ← hrest,
      filterMap_eq_nil_iff.mpr fun p hp => hnone p (hblank p (mem_append_right _ hp))]
    rfl
  · rw [fromUtf8Lossy_splitOn, hparts, map_append, map_cons, trim_intercalate _
      (List.forall_mem_map.mpr fun p hp => hblank p (mem_append_left _ hp))
      (List.forall_mem_map.mpr fun p hp => hblank p (mem_append_right _ hp)), ← hrest]
    exact stripPrefix?_trim rest

variable (parse) in
/-- How the reading of a line goes on from its value. -/
theorem stepLine_plain (h : PlainField line) (hutf : (Utf8.fromUtf8 line).isSome)
    (hs : s.accum.streamDone = false) :
    ∃ value, fieldValues line = [value] ∧
      stepLine parse s line = if RustStr.trim value = doneSentinel then s.ended
        else s.ingestSseDataPayload parse (RustStr.trim value) := by
  obtain ⟨value, hvalue, hread⟩ := h.read
  refine ⟨value, hvalue, ?_⟩
  have htext : completeLineText line = RustStr.trim (Utf8.fromUtf8Lossy line) := by
    obtain ⟨text, htext⟩ := isSome_iff_exists.mp hutf
    rw [completeLineText, htext, getD_some, Utf8.eq_fromUtf8Lossy htext]
  rw [stepLine, if_neg (by simp [hs]), ingestOpenaiSseTrimmedLine, htext, ← hread]
  cases (RustStr.stripPrefix? dataPrefix (RustStr.trim (Utf8.fromUtf8Lossy line))).map
      RustStr.trim with
  | none => rfl
  | some payload =>
    dsimp only [getD_some]
    split
    · rfl
    · rfl

theorem ingestSseResidualBufferIfNeeded_plain (h : PlainField residue)
    (hend : ¬ EndsStream residue) (hs : s.accum.streamDone = false) :
    ingestSseResidualBufferIfNeeded parse residue s =
      processDataFields parse (fieldValues residue) s := by
  obtain ⟨value, hvalue, hread⟩ := h.read
  have hne : RustStr.trim value ≠ doneSentinel := by
    simpa [EndsStream, hvalue, eq_comm] using hend
  have hfull : residue ≠ [] := by
    rintro rfl
    cases hvalue
  rw [hvalue, processDataFields, if_neg hne, processDataFields, ← hread,
    ingestSseResidualBufferIfNeeded, if_neg (by simp [hs, hfull])]
  rw [← hread] at hne
  cases hstrip : RustStr.stripPrefix? dataPrefix
      (RustStr.trim (Utf8.fromUtf8Lossy residue)) with
  | none => rfl
  | some rest =>
    rw [hstrip] at hne
    dsimp only [map_some, getD_some] at hne ⊢
    rw [if_neg hne]

theorem PlainLines.read {lines : List (List UInt8)} (h : PlainLines parse lines residue)
    (hs : s.accum.streamDone = false) :
    ingestSseResidualBufferIfNeeded parse residue (lines.foldl (stepLine parse) s) =
      processDataFields parse ((lines ++ [residue]).flatMap fieldValues) s := by
  induction lines generalizing s with
  | nil =>
    rw [nil_append, flatMap_singleton]
    obtain ⟨hplain, hend⟩ | hmute := h
    · exact ingestSseResidualBufferIfNeeded_plain hplain hend hs
    · have hidle := processDataFields_idle hmute.1 [] s
      rw [append_nil] at hidle
      rw [hidle]
      exact ingestSseResidualBufferIfNeeded_mute hmute s
  | cons line lines ih =>
    rw [foldl_cons, cons_append, flatMap_cons]
    obtain ⟨hplain, hutf, hrest⟩ | ⟨hmute, hrest⟩ := h
    · obtain ⟨value, hvalue, hstep⟩ := stepLine_plain parse hplain hutf hs
      rw [hvalue, singleton_append, processDataFields, hstep]
      by_cases hdone : RustStr.trim value = doneSentinel
      · rw [if_pos hdone, if_pos hdone, foldl_stepLine_of_done parse rfl,
          ingestSseResidualBufferIfNeeded, if_pos (by rfl)]
      · rw [if_neg hdone, if_neg hdone]
        have hlines := hrest.resolve_left (by simpa [EndsStream, hvalue, eq_comm] using hdone)
        exact ih hlines
          ((SseConsumeScratch.streamDone_ingestSseDataPayload parse s _).trans hs)
    · rw [processDataFields_idle hmute.1, stepLine_mute hmute]
      exact ih hrest hs

theorem lineSplit_append_of_not_mem {a : List UInt8} (h : 10 ∉ a) (b : List UInt8) :
    lineSplit (a ++ b) =
      match lineSplit b with
      | ([], residue) => ([], a ++ residue)
      | (line :: lines, residue) => ((a ++ line) :: lines, residue) := by
  induction a with
  | nil =>
    rw [nil_append]
    rcases lineSplit b with ⟨_ | ⟨line, lines⟩, residue⟩ <;> rfl
  | cons x a ih =>
    obtain ⟨hx, ha⟩ := ne_and_not_mem_of_not_mem_cons h
    rw [cons_append, lineSplit, if_neg hx.symm, ih ha]
    rcases lineSplit b with ⟨_ | ⟨line, lines⟩, residue⟩ <;> rfl

theorem PlainStream.read {bytes : List UInt8} (h : PlainStream parse bytes) :
    ingestSseResidualBufferIfNeeded parse (lineSplit bytes).2
        ((lineSplit bytes).1.foldl (stepLine parse) .new) =
      processDataFields parse (sseDataFields bytes) .new := by
  unfold PlainStream at h
  unfold sseDataFields stripBom
  split at h
  · next hbom =>
    obtain ⟨rest, rfl⟩ := isPrefixOf_iff_prefix.mp hbom
    rw [if_pos hbom, show (byteOrderMark ++ rest).drop 3 = rest from rfl]
    rw [lineSplit_append_of_not_mem (by decide)] at h ⊢
    generalize lineSplit rest = cut at h ⊢
    obtain ⟨lines, residue⟩ := cut
    cases lines with
    | nil =>
      obtain ⟨hmute, hidle⟩ := h
      have hfields := processDataFields_idle hidle [] SseConsumeScratch.new
      rw [append_nil] at hfields
      exact (ingestSseResidualBufferIfNeeded_mute hmute .new).trans
        (by simpa [byteOrderMark, processDataFields] using hfields.symm)
    | cons line lines =>
      obtain ⟨hmute, hidle, hlines⟩ := h
      dsimp only
      rw [foldl_cons, stepLine_mute hmute, hlines.read rfl, cons_append,
        flatMap_cons]
      exact (processDataFields_idle hidle _ _).symm
  · next hbom =>
    rw [if_neg hbom]
    exact h.read rfl

end Read

/-- The chunks never matter, and the reply of a plain stream is that of its `data` fields up to the
end marker. -/
theorem sse_reply_eq_fields (bytes : List UInt8) :
    (∀ chunks chunks' : List (List UInt8), chunks.flatten = bytes → chunks'.flatten = bytes →
      consumeOpenaiSseByteStream parse chunks = consumeOpenaiSseByteStream parse chunks') ∧
    (PlainStream parse bytes → ∀ chunks : List (List UInt8), chunks.flatten = bytes →
      consumeOpenaiSseByteStream parse chunks = replyOfDataFields parse bytes) := by
  constructor
  · rintro chunks chunks' hchunks rfl
    rw [consumeOpenaiSseByteStream_eq, consumeOpenaiSseByteStream_eq, hchunks]
  · rintro hplain chunks rfl
    rw [consumeOpenaiSseByteStream_eq, hplain.read, replyOfDataFields]

def hiPayload : Str :=
  "\x7b\"choices\":[\x7b\"delta\":\x7b\"content\":\"hi\"\x7d\x7d]\x7d".toList

/-- The JSON reader on the payload above. -/
def hiReader (payload : Str) : Option (StreamChunk Unit) :=
  if payload = hiPayload then some ⟨some [⟨⟨some "hi".toList, none, none, none⟩, none⟩], none⟩
  else none

def pingLine : List UInt8 := "data:ping".toList.map fun c => c.toNat.toUInt8

def hiLine : List UInt8 := ("data: ".toList ++ hiPayload).map fun c => c.toNat.toUInt8

def doneLine : List UInt8 := "data: [DONE]".toList.map fun c => c.toNat.toUInt8

/-- A field that is no JSON and has no space behind its colon, one with a carriage return at its
end, and the end marker. -/
def plainStream : List UInt8 := pingLine ++ 10 :: (hiLine ++ 13 :: 10 :: (doneLine ++ [10]))

theorem sse_reply_eq_fields_plainStream :
    ∀ chunks : List (List UInt8), chunks.flatten = plainStream →
      consumeOpenaiSseByteStream hiReader chunks = replyOfDataFields hiReader plainStream := by
  have hcut : lineSplit plainStream = ([pingLine, hiLine ++ [13], doneLine], []) := by
    decide +kernel
  have hping : Mute hiReader pingLine (completeLineText pingLine) := by
    refine ⟨fun value hvalue => ?_, fun rest hrest => ?_⟩
    · rw [show fieldValues pingLine = ["ping".toList] by decide +kernel,
        mem_singleton] at hvalue
      subst hvalue
      exact ⟨by decide, Or.inr fun chunk hchunk => absurd
        ((show hiReader (RustStr.trim "ping".toList) = none by decide).symm.trans hchunk) (by simp)⟩
    · exact absurd ((show RustStr.stripPrefix? dataPrefix (completeLineText pingLine) = none by
        decide +kernel).symm.trans hrest) (by simp)
  have hblank : ∀ part ∈ [[]], Blank part := by
    intro part hpart
    obtain rfl := mem_singleton.mp hpart
    exact fun c (hc : c ∈ []) => absurd hc not_mem_nil
  have hhi : PlainField (hiLine ++ [13]) :=
    ⟨[], hiLine, [[]], by decide +kernel, hblank, by decide +kernel⟩
  have hdone : PlainField doneLine :=
    ⟨[], doneLine, [], by decide +kernel, by decide +kernel, by decide +kernel⟩
  refine (sse_reply_eq_fields hiReader plainStream).2 ?_
  rw [PlainStream, if_neg (by decide +kernel), hcut]
  exact Or.inr ⟨hping, Or.inl ⟨hhi, by decide +kernel,
    Or.inr (Or.inl ⟨hdone, by decide +kernel, Or.inl (by decide +kernel)⟩)⟩⟩

/-- A field without a space after the colon, and an end marker on a last line without line feed. -/
def bareStream : List UInt8 :=
  ("data:".toList ++ hiPayload ++ "\n\ndata: [DONE]".toList).map fun c => c.toNat.toUInt8

/-- The tool reads neither: the reply is empty and the stream counts as cut off. -/
theorem sse_bareStream_is_lost :
    ¬ ((∀ chunks : List (List UInt8), chunks.flatten = bareStream →
        consumeOpenaiSseByteStream hiReader chunks = replyOfDataFields hiReader bareStream)) ∧
      streamingFinishReason (consumeOpenaiSseByteStream hiReader [bareStream]) =
        streamTruncatedFinishReason := by
  constructor
  · intro h
    have hreply := h [bareStream] flatten_singleton
    exact absurd hreply (by decide +kernel)
  · decide +kernel

end CrabMate
