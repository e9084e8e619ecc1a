import CrabMate.Files.Paging
import CrabMate.Files.Streaming

/-! The pages of a file: both ways of reading show the same lines, and the pages one after the
other are the file. -/
namespace CrabMate
open RustStr List
open Decoding

section Page

def numbered (k : ℕ) (lines : List Str) : List (ℕ × Str) := (lines.zipIdx k).map Prod.swap

/-- The lines of a page. -/
def pageOf (spec : ReadFileLinesSpec) (k : ℕ) (lines : List Str) : List (ℕ × Str) :=
  (numbered k lines).filter fun l => spec.startLine ≤ l.1 ∧ l.1 ≤ spec.endLine

/-- What a call should answer for a file with these lines. -/
def pageAnswer (display encHeader : Str) (spec : ReadFileLinesSpec) (lines : List Str) :
    Except ReadFileBodyError ReadFileLinesResult :=
  if lines.length < spec.startLine then .error (startBeyondEnd spec)
  else .ok (linesResult display encHeader spec (pageOf spec 1 lines)
    (decide (spec.endLine < lines.length)))

/-- The bounds of a page: it has a line, and no more than the limit. -/
structure ReadFileLinesSpec.Bounded (spec : ReadFileLinesSpec) : Prop where
  one_le : 1 ≤ spec.startLine
  start_le : spec.startLine ≤ spec.endLine
  end_lt : spec.endLine < spec.startLine + spec.maxLines

theorem readFileSpec_bounded (req : PageRequest) (totalLines : Option ℕ) :
    (readFileSpec req totalLines).Bounded := by
  obtain ⟨start, endOpt, maxLines, hone, hle, hmax⟩ := req
  simp only [readFileSpec, resolveReadEndLine]
  cases endOpt with
  | none => constructor <;> simp <;> omega
  | some e =>
    have he := hle e rfl
    split <;> constructor <;> simp_all <;> omega

variable {spec : ReadFileLinesSpec}

@[simp] theorem numbered_nil (k : ℕ) : numbered k [] = [] := rfl

@[simp] theorem numbered_cons (k : ℕ) (line : Str) (lines : List Str) :
    numbered k (line :: lines) = (k, line) :: numbered (k + 1) lines := rfl

@[simp] theorem pageOf_nil (spec : ReadFileLinesSpec) (k : ℕ) : pageOf spec k [] = [] := rfl

theorem pageOf_in {k : ℕ} (hstart : spec.startLine ≤ k) (hend : k ≤ spec.endLine) (line : Str)
    (lines : List Str) :
    pageOf spec k (line :: lines) = (k, line) :: pageOf spec (k + 1) lines := by
  simp [pageOf, hstart, hend]

theorem pageOf_out {k : ℕ} (h : ¬ (spec.startLine ≤ k ∧ k ≤ spec.endLine)) (line : Str)
    (lines : List Str) : pageOf spec k (line :: lines) = pageOf spec (k + 1) lines := by
  simp [pageOf, h]

theorem pageOf_beyond {k : ℕ} (h : spec.endLine < k) (lines : List Str) :
    pageOf spec k lines = [] := by
  induction lines generalizing k with
  | nil => rfl
  | cons line lines ih =>
    rw [pageOf_out (by omega), ih (by omega)]

theorem pageOf_before {k : ℕ} {lines : List Str} (h : k + lines.length ≤ spec.startLine) :
    pageOf spec k lines = [] := by
  induction lines generalizing k with
  | nil => rfl
  | cons line lines ih =>
    rw [length_cons] at h
    rw [pageOf_out (by omega), ih (by omega)]

theorem pageOf_ne_nil (hspec : spec.Bounded) {k : ℕ} {lines : List Str} (hk : k ≤ spec.startLine)
    (h : spec.startLine < k + lines.length) : pageOf spec k lines ≠ [] := by
  have hle := hspec.start_le
  induction lines generalizing k with
  | nil =>
    rw [length_nil] at h
    omega
  | cons line lines ih =>
    by_cases hstart : spec.startLine = k
    · rw [pageOf_in (by omega) (by omega)]
      exact cons_ne_nil _ _
    · rw [pageOf_out (by omega)]
      rw [length_cons] at h
      exact ih (by omega) (by omega)

end Page

section Utf8Pages

variable {spec : ReadFileLinesSpec}

/-- The texts of raw lines. -/
def readerLines (reader : List FileBytes) : List Str := reader.map Utf8.fromUtf8Lossy

theorem utf8Collect_eq (hspec : spec.Bounded) (reader : List FileBytes)
    (hvalid : ∀ raw ∈ reader, Utf8.Valid raw) (lineNo : ℕ) (collected : List (ℕ × Str))
    (hcount : collected.length = lineNo + 1 - spec.startLine) (hle : lineNo ≤ spec.endLine)
    (hroom : collected.length < spec.maxLines) :
    ∃ last rest, utf8CollectLinesInRange spec reader lineNo collected =
        .ok (⟨collected ++ pageOf spec (lineNo + 1) (readerLines reader), last,
          decide (lineNo + reader.length < spec.startLine)⟩, rest) ∧
      (∀ raw ∈ rest, Utf8.Valid raw) ∧
      (last > spec.endLine ∨ rest ≠ [] ↔ spec.endLine < lineNo + reader.length) := by
  induction reader generalizing lineNo collected with
  | nil =>
    refine ⟨lineNo, [], ?_, (fun raw hraw => nomatch hraw), by simp⟩
    rw [utf8CollectLinesInRange, readerLines, map_nil, pageOf_nil, append_nil,
      length_nil, Nat.add_zero]
  | cons raw reader ih =>
    have hone := hspec.one_le
    have hstart := hspec.start_le
    have hend := hspec.end_lt
    have hrest : ∀ raw ∈ reader, Utf8.Valid raw := fun r hr => hvalid r (mem_cons_of_mem _ hr)
    have hread : Utf8.fromUtf8Strict raw = .ok (Utf8.fromUtf8Lossy raw) :=
      Utf8.fromUtf8Strict_eq_ok_iff.mpr ⟨hvalid raw mem_cons_self, rfl⟩
    rw [utf8CollectLinesInRange, hread, readerLines, map_cons, ← readerLines,
      length_cons]
    dsimp only
    by_cases hbefore : lineNo + 1 < spec.startLine
    · rw [if_pos hbefore, pageOf_out (by omega)]
      obtain ⟨last, rest, hrun, hval, hiff⟩ := ih hrest (lineNo + 1) collected (by omega) (by omega)
        hroom
      refine ⟨last, rest, ?_, hval, by rw [hiff]; omega⟩
      rw [hrun]
      simp only [Nat.add_assoc, Nat.add_comm 1]
    · have heof : ¬ lineNo + (reader.length + 1) < spec.startLine := by omega
      rw [if_neg hbefore]
      by_cases hbehind : lineNo + 1 > spec.endLine
      · rw [if_pos hbehind, pageOf_out (by omega), pageOf_beyond (by omega)]
        refine ⟨lineNo + 1, reader, ?_, hrest, by omega⟩
        simp [heof]
      · have hpush : (collected ++ [(lineNo + 1, Utf8.fromUtf8Lossy raw)]).length =
            collected.length + 1 := by simp
        rw [if_neg hbehind, pageOf_in (by omega) (by omega), hpush]
        by_cases hfull : collected.length + 1 ≥ spec.maxLines
        · rw [if_pos hfull, pageOf_beyond (by omega)]
          refine ⟨lineNo + 1, reader, ?_, hrest, ?_⟩
          · simp [heof]
          · cases reader with
            | nil => simp
            | cons raw' reader => simp; omega
        · rw [if_neg hfull]
          obtain ⟨last, rest, hrun, hval, hiff⟩ := ih hrest (lineNo + 1)
            (collected ++ [(lineNo + 1, Utf8.fromUtf8Lossy raw)])
            (by omega) (by omega) (by omega)
          refine ⟨last, rest, ?_, hval, by rw [hiff]; omega⟩
          rw [hrun, append_assoc, singleton_append]
          simp only [Nat.add_assoc, Nat.add_comm 1]

theorem page_isEmpty_eq_false (hspec : spec.Bounded) {lines : List Str}
    (h : ¬ lines.length < spec.startLine) : (pageOf spec 1 lines).isEmpty = false := by
  rw [isEmpty_eq_false_iff]
  exact pageOf_ne_nil hspec hspec.one_le (by omega)

theorem readFileUtf8Lines_eq (hspec : spec.Bounded) (display encHeader : Str) {skip : ℕ}
    {bytes : FileBytes} (hvalid : Utf8.Valid (bytes.drop skip)) :
    readFileUtf8Lines display spec skip encHeader bytes =
      pageAnswer display encHeader spec (rawLines (Utf8.fromUtf8Lossy (bytes.drop skip))) := by
  obtain ⟨hlines, hall⟩ := Utf8.rawLines_of_valid hvalid
  have hone := hspec.one_le
  have hstart := hspec.start_le
  have hend := hspec.end_lt
  obtain ⟨last, rest, hrun, hrest, hiff⟩ := utf8Collect_eq hspec _ hall 0 []
    (by rw [length_nil]; omega) (Nat.zero_le _) (by rw [length_nil]; omega)
  have hlength : (Utf8.rawByteLines (bytes.drop skip)).length =
      (rawLines (Utf8.fromUtf8Lossy (bytes.drop skip))).length := by
    rw [← hlines, List.length_map]
  rw [readerLines, hlines, nil_append, Nat.zero_add, Nat.zero_add, hlength] at hrun
  rw [Nat.zero_add, hlength] at hiff
  have hprobe : utf8ProbeHasMoreLines rest last spec.endLine =
      .ok (decide (spec.endLine < (rawLines (Utf8.fromUtf8Lossy (bytes.drop skip))).length)) := by
    unfold utf8ProbeHasMoreLines
    by_cases hlast : last > spec.endLine
    · rw [if_pos hlast, decide_eq_true (hiff.mp (Or.inl hlast))]
    · rw [if_neg hlast]
      cases rest with
      | nil =>
        rw [decide_eq_false]
        exact fun h => (hiff.mpr h).elim hlast fun hne => hne rfl
      | cons raw rest =>
        have hread : Utf8.fromUtf8Strict raw = .ok (Utf8.fromUtf8Lossy raw) :=
          Utf8.fromUtf8Strict_eq_ok_iff.mpr ⟨hrest raw mem_cons_self, rfl⟩
        dsimp only
        rw [hread, decide_eq_true (hiff.mp (Or.inr (cons_ne_nil _ _)))]
  rw [readFileUtf8Lines, hrun, pageAnswer]
  by_cases hbeyond : (rawLines (Utf8.fromUtf8Lossy (bytes.drop skip))).length < spec.startLine
  · rw [if_pos hbeyond, decide_eq_true hbeyond]
    rfl
  · rw [if_neg hbeyond, decide_eq_false hbeyond]
    show (utf8ProbeHasMoreLines rest last spec.endLine >>= fun hasMore =>
      if (pageOf spec 1 _).isEmpty then _ else _) = _
    rw [hprobe]
    show (if (pageOf spec 1 _).isEmpty then _ else _) = _
    rw [page_isEmpty_eq_false hspec hbeyond]
    rfl

end Utf8Pages

section DecodedPages

variable {spec : ReadFileLinesSpec}

/-- The lines as the decoder path collects them. -/
def collectedLine (line : Str) : Str := line ++ ['\n']

theorem deliver_flow (hspec : spec.Bounded) (lines : List Str) (lineNo : ℕ)
    (collected : List (ℕ × Str)) (hcount : collected.length = lineNo + 1 - spec.startLine)
    (hle : lineNo ≤ spec.endLine) :
    ∃ last, (deliver (decodedLineCollectFlow spec) lineNo ⟨lineNo, collected, false⟩ lines).2 =
        ⟨last, collected ++ pageOf spec (lineNo + 1) (lines.map collectedLine),
          decide (spec.endLine < lineNo + lines.length)⟩ ∧
      (last < spec.startLine ↔ lineNo + lines.length < spec.startLine) := by
  induction lines generalizing lineNo collected with
  | nil =>
    refine ⟨lineNo, ?_, by simp⟩
    have hend : ¬ spec.endLine < lineNo := Nat.not_lt_of_le hle
    simp [deliver, hend]
  | cons line lines ih =>
    have hone := hspec.one_le
    have hstart := hspec.start_le
    have hend := hspec.end_lt
    rw [deliver, map_cons, length_cons]
    by_cases hbefore : lineNo + 1 < spec.startLine
    · have hflow : decodedLineCollectFlow spec ⟨lineNo, collected, false⟩ (lineNo + 1) line =
          (⟨lineNo + 1, collected, false⟩, false) := by
        rw [decodedLineCollectFlow, if_pos hbefore]
      obtain ⟨last, hrun, hlast⟩ := ih (lineNo + 1) collected (by omega) (by omega)
      rw [hflow, pageOf_out (by omega)]
      refine ⟨last, ?_, by omega⟩
      rw [if_neg Bool.false_ne_true, hrun]
      simp only [Nat.add_assoc, Nat.add_comm 1]
    · by_cases hbehind : lineNo + 1 > spec.endLine
      · have hflow : decodedLineCollectFlow spec ⟨lineNo, collected, false⟩ (lineNo + 1) line =
            (⟨lineNo + 1, collected, true⟩, true) := by
          rw [decodedLineCollectFlow, if_neg hbefore, if_pos hbehind]
        rw [hflow, pageOf_out (by omega), pageOf_beyond (by omega)]
        have hmore : spec.endLine < lineNo + (lines.length + 1) := by omega
        exact ⟨lineNo + 1, by simp [hmore], by omega⟩
      · have hflow : decodedLineCollectFlow spec ⟨lineNo, collected, false⟩ (lineNo + 1) line =
            (⟨lineNo + 1, collected ++ [(lineNo + 1, collectedLine line)], false⟩, false) := by
          have hpush : collected.length < spec.maxLines := by omega
          have hfull : ¬ (collected.length + 1 ≥ spec.maxLines ∧ lineNo + 1 < spec.endLine) := by
            omega
          rw [decodedLineCollectFlow, if_neg hbefore, if_neg hbehind]
          simp [hpush, hfull, collectedLine]
        obtain ⟨last, hrun, hlast⟩ := ih (lineNo + 1)
          (collected ++ [(lineNo + 1, collectedLine line)])
          (by rw [length_append, length_singleton]; omega) (by omega)
        rw [hflow, pageOf_in (by omega) (by omega)]
        refine ⟨last, ?_, by omega⟩
        rw [if_neg Bool.false_ne_true, hrun, append_assoc, singleton_append]
        simp only [Nat.add_assoc, Nat.add_comm 1]

/-- A line as the answer shows it. -/
def shown (l : ℕ × Str) : ℕ × Str := (l.1, trimLineEnd l.2)

theorem trimLineEnd_concat {c : Char} (hc : c = '\n' ∨ c = '\r') (s : Str) :
    trimLineEnd (s ++ [c]) = trimLineEnd s := by
  rw [trimLineEnd, rdropWhile_concat_pos _ _ _ (by rcases hc with rfl | rfl <;> rfl),
    trimLineEnd]

theorem trimLineEnd_stripCr (b : Str) : trimLineEnd (stripCr b) = trimLineEnd b := by
  unfold stripCr
  split
  · next h =>
    obtain ⟨u, rfl⟩ := getLast?_eq_some_iff.mp h
    rw [dropLast_concat, trimLineEnd_concat (Or.inr rfl)]
  · rfl

/-- Both paths show a line alike. -/
theorem trimLineEnd_collectedLine (raw : Str) :
    trimLineEnd (collectedLine (logicalLine raw)) = trimLineEnd raw := by
  rw [collectedLine, trimLineEnd_concat (Or.inl rfl), logicalLine, trimLineEnd_stripCr]
  split
  · next h =>
    obtain ⟨u, rfl⟩ := getLast?_eq_some_iff.mp h
    rw [dropLast_concat, trimLineEnd_concat (Or.inl rfl)]
  · rfl

theorem map_shown_pageOf (spec : ReadFileLinesSpec) (k : ℕ) (lines : List Str) :
    (pageOf spec k lines).map shown = pageOf spec k (lines.map trimLineEnd) := by
  induction lines generalizing k with
  | nil => rfl
  | cons line lines ih =>
    rw [map_cons]
    by_cases h : spec.startLine ≤ k ∧ k ≤ spec.endLine
    · rw [pageOf_in h.1 h.2, pageOf_in h.1 h.2, map_cons, ih]
      rfl
    · rw [pageOf_out h, pageOf_out h, ih]

theorem linesResult_congr (display encHeader : Str) {collected collected' : List (ℕ × Str)}
    (h : collected.map shown = collected'.map shown) (hasMore : Bool) :
    linesResult display encHeader spec collected hasMore =
      linesResult display encHeader spec collected' hasMore := by
  have hnum : ∀ ls : List (ℕ × Str), ls.map Prod.fst = (ls.map shown).map Prod.fst := fun ls => by
    rw [map_map]
    rfl
  have hfirst : collected.head?.map Prod.fst = collected'.head?.map Prod.fst := by
    rw [← head?_map, ← head?_map, hnum, h, ← hnum]
  have hlast : collected.getLast?.map Prod.fst = collected'.getLast?.map Prod.fst := by
    rw [← getLast?_map, ← getLast?_map, hnum, h, ← hnum]
  have hbody : ∀ ls : List (ℕ × Str),
      (ls.flatMap fun l => natText l.1 ++ ['|'] ++ trimLineEnd l.2 ++ ['\n']) =
        (ls.map shown).flatMap fun l => natText l.1 ++ ['|'] ++ l.2 ++ ['\n'] := fun ls => by
    rw [flatMap_map]
    rfl
  have hlength : collected.length = collected'.length := by
    rw [← List.length_map (f := shown), h, List.length_map]
  simp only [linesResult, assembleReadOutput, hfirst, hlast, hbody, h, hlength]

theorem pageAnswer_congr (display encHeader : Str) {lines lines' : List Str}
    (h : lines.map trimLineEnd = lines'.map trimLineEnd) :
    pageAnswer display encHeader spec lines = pageAnswer display encHeader spec lines' := by
  have hlength : lines.length = lines'.length := by
    rw [← List.length_map (f := trimLineEnd), h, List.length_map]
  have hpage : (pageOf spec 1 lines).map shown = (pageOf spec 1 lines').map shown := by
    rw [map_shown_pageOf, h, ← map_shown_pageOf]
  rw [pageAnswer, pageAnswer, hlength, linesResult_congr display encHeader hpage]

variable {σ : Type} {newDecoder : Encoding → σ} {decode : Decode σ} (sem : Semantics decode)
  {spare : ℕ → ℕ} {guess : FileBytes → Encoding}

theorem readFileDecodedLines_eq (hspec : spec.Bounded) (display encHeader : Str) {rounds : ℕ}
    (hrounds : 2 ≤ rounds) {head : FileBytes} (chunks : List ReadChunk) {hint : TextEncodingName}
    {encoding : Encoding} {label : Str} {note : DecodedFileNote} {text : Str}
    (hresolved : resolveTextEncoding guess head hint = (.decoder encoding label, note))
    (hfits : Fits decode (roomAt spare) 0 (newDecoder encoding)
      (head.drop (skipBom head encoding) :: chunks.map Subtype.val))
    (htext : sem.text (newDecoder encoding)
      (head.drop (skipBom head encoding) ++ (chunks.map Subtype.val).flatten) = some text) :
    readFileDecodedLines newDecoder decode spare guess display hint spec encHeader rounds head
        (chunks.map .ok) = some (pageAnswer display encHeader spec (rawLines text)) := by
  have hone := hspec.one_le
  have hrun : forEachDecodedLineFromFileWithHead newDecoder decode spare guess
      (decodedLineCollectFlow spec) rounds head (chunks.map .ok) hint ⟨0, [], false⟩ =
      .ok (deliver (decodedLineCollectFlow spec) 0 ⟨0, [], false⟩ (logicalLines text), note) := by
    rcases forEachDecodedLine_eq sem (decodedLineCollectFlow spec) hrounds chunks
      ⟨0, [], false⟩ hresolved hfits with ⟨t, ht, hrun⟩ | ⟨hnone, -⟩
    · rw [htext] at ht
      cases ht
      exact hrun
    · rw [htext] at hnone
      cases hnone
  obtain ⟨last, hdeliver, hlast⟩ := deliver_flow hspec (logicalLines text) 0 []
    (by rw [length_nil]; omega) (Nat.zero_le _)
  have hsame : ((logicalLines text).map collectedLine).map trimLineEnd =
      (rawLines text).map trimLineEnd := by
    rw [logicalLines, map_map, map_map]
    exact map_congr_left fun raw _ => trimLineEnd_collectedLine raw
  rw [nil_append, Nat.zero_add, Nat.zero_add] at hdeliver
  rw [Nat.zero_add] at hlast
  rw [readFileDecodedLines, hresolved]
  dsimp only
  rw [hrun]
  dsimp only
  rw [hdeliver, ← pageAnswer_congr display encHeader hsame, finalizeDecodedLineCollection,
    pageAnswer, List.length_map]
  by_cases hbeyond : (logicalLines text).length < spec.startLine
  · have hempty : pageOf spec 1 ((logicalLines text).map collectedLine) = [] := by
      refine pageOf_before ?_
      rw [List.length_map]
      omega
    rw [if_pos ⟨hlast.mpr hbeyond, by rw [hempty]; rfl⟩, if_pos hbeyond]
  · have hne := @page_isEmpty_eq_false spec hspec ((logicalLines text).map collectedLine)
      (by rwa [List.length_map])
    rw [if_neg fun h => hbeyond (hlast.mp h.1), if_neg (by rw [hne]; exact Bool.false_ne_true),
      if_neg hbeyond]

end DecodedPages

section Cover

/-- The call for the page behind the first `k` lines. -/
def pageAfter {maxLines : ℕ} (hmax : 1 ≤ maxLines) (k : ℕ) : PageRequest :=
  ⟨k + 1, none, maxLines, Nat.succ_pos k, nofun, hmax⟩

/-- Page after page, as long as the answer says that there is more. -/
def readPages (read : ℕ → Option (Except ReadFileBodyError ReadFileLinesResult)) : ℕ → ℕ →
    List (Option (Except ReadFileBodyError ReadFileLinesResult))
  | 0, _ => []
  | calls + 1, k =>
    read k ::
      match read k with
      | some (.ok r) => if r.hasMore then readPages read calls r.endLineShown else []
      | _ => []

variable (display encHeader : Str) (totalLines : Option ℕ) {maxLines : ℕ} (hmax : 1 ≤ maxLines)

/-- The answers that show these pages and no other line, the first one behind `k` lines. -/
def pageResults : ℕ → List (List (ℕ × Str)) →
    List (Option (Except ReadFileBodyError ReadFileLinesResult))
  | _, [] => []
  | k, page :: rest =>
    some (.ok (linesResult display encHeader (readFileSpec (pageAfter hmax k) totalLines) page
      (!rest.isEmpty))) :: pageResults (k + page.length) rest

theorem numbered_append (k : ℕ) (a b : List Str) :
    numbered k (a ++ b) = numbered k a ++ numbered (k + a.length) b := by
  rw [numbered, zipIdx_append, map_append, numbered, numbered]

@[simp] theorem length_numbered (k : ℕ) (lines : List Str) :
    (numbered k lines).length = lines.length := by
  rw [numbered, List.length_map, length_zipIdx]

theorem getLast?_numbered (k : ℕ) {lines : List Str} (hne : lines ≠ []) :
    (numbered k lines).getLast?.map Prod.fst = some (k + lines.length - 1) := by
  obtain ⟨front, line, rfl⟩ := eq_nil_or_concat' lines |>.resolve_left hne
  rw [numbered_append, numbered_cons, getLast?_append_cons, numbered_nil,
    length_append]
  simp

theorem pageOf_numbered {spec : ReadFileLinesSpec} {k m : ℕ} (hstart : spec.startLine ≤ k)
    (hend : spec.endLine + 1 = k + m) (lines : List Str) :
    pageOf spec k lines = numbered k (lines.take m) := by
  induction lines generalizing k m with
  | nil => rw [take_nil, numbered_nil, pageOf_nil]
  | cons line lines ih =>
    cases m with
    | zero => rw [pageOf_beyond (by omega), take_zero, numbered_nil]
    | succ m =>
      rw [pageOf_in hstart (by omega), take_succ_cons, numbered_cons,
        ih (m := m) (Nat.le_succ_of_le hstart) (by omega)]

theorem pageOf_drop {spec : ReadFileLinesSpec} {k m : ℕ} (h : k + m = spec.startLine)
    (lines : List Str) : pageOf spec k lines = pageOf spec spec.startLine (lines.drop m) := by
  induction m generalizing k lines with
  | zero => rw [← h, Nat.add_zero, drop_zero]
  | succ m ih =>
    cases lines with
    | nil => rfl
    | cons line lines => rw [pageOf_out (by omega), drop_succ_cons, ih (by omega)]

theorem pageOf_pageAfter (k : ℕ) (lines : List Str) :
    pageOf (readFileSpec (pageAfter hmax k) totalLines) 1 lines =
      numbered (k + 1) ((lines.drop k).take maxLines) := by
  have hstart : (readFileSpec (pageAfter hmax k) totalLines).startLine = k + 1 := by
    simp [readFileSpec, pageAfter]
  have hend : (readFileSpec (pageAfter hmax k) totalLines).endLine + 1 = k + 1 + maxLines := by
    simp [readFileSpec, pageAfter, resolveReadEndLine]
    omega
  rw [pageOf_drop (m := k) (by omega), hstart]
  exact pageOf_numbered (Nat.le_of_eq hstart) hend _

theorem readPages_eq {read : ℕ → Option (Except ReadFileBodyError ReadFileLinesResult)}
    {lines : List Str} (hread : ∀ k, read k = some (pageAnswer display encHeader
      (readFileSpec (pageAfter hmax k) totalLines) lines)) {calls k : ℕ} (hk : k < lines.length)
    (hcalls : lines.length ≤ k + calls) :
    ∃ pages, pages.flatten = numbered (k + 1) (lines.drop k) ∧
      readPages read calls k = pageResults display encHeader totalLines hmax k pages := by
  induction calls generalizing k with
  | zero => omega
  | succ calls ih =>
    have hend : (readFileSpec (pageAfter hmax k) totalLines).endLine = k + maxLines := by
      simp [readFileSpec, pageAfter, resolveReadEndLine]
      omega
    have hstart : ¬ lines.length < (readFileSpec (pageAfter hmax k) totalLines).startLine := by
      simp only [readFileSpec, pageAfter]
      omega
    have hlength : ((lines.drop k).take maxLines).length = min maxLines (lines.length - k) := by
      rw [length_take, length_drop]
    have hanswer := hread k
    rw [pageAnswer, if_neg hstart, pageOf_pageAfter, hend] at hanswer
    have hshown : (linesResult display encHeader (readFileSpec (pageAfter hmax k) totalLines)
        (numbered (k + 1) ((lines.drop k).take maxLines))
        (decide (k + maxLines < lines.length))).endLineShown =
        k + ((lines.drop k).take maxLines).length := by
      rw [linesResult, getLast?_numbered _ (ne_nil_of_length_pos (by omega))]
      simp only [Option.getD_some]
      omega
    by_cases hmore : k + maxLines < lines.length
    · have hfull : ((lines.drop k).take maxLines).length = maxLines := by omega
      obtain ⟨pages, hflatten, hpages⟩ := ih hmore (by omega)
      have hne : pages.isEmpty = false := by
        rw [isEmpty_eq_false_iff]
        rintro rfl
        have hzero := congrArg List.length hflatten
        rw [flatten_nil, length_nil, length_numbered, length_drop] at hzero
        omega
      refine ⟨numbered (k + 1) ((lines.drop k).take maxLines) :: pages, ?_, ?_⟩
      · have hsplit : lines.drop k = (lines.drop k).take maxLines ++ lines.drop (k + maxLines) := by
          rw [← drop_drop, take_append_drop]
        rw [flatten_cons, hflatten, hsplit, take_left' hfull, numbered_append, hfull]
        simp only [Nat.add_right_comm]
      · rw [readPages, hanswer, pageResults, hne, length_numbered, hfull, ← hpages]
        dsimp only
        rw [hshown, hfull, decide_eq_true hmore]
        rfl
    · have hall : (lines.drop k).take maxLines = lines.drop k :=
        take_of_length_le (by rw [length_drop]; omega)
      refine ⟨[numbered (k + 1) (lines.drop k)], flatten_singleton, ?_⟩
      rw [readPages, hanswer, hall, decide_eq_false hmore, pageResults]
      rfl

end Cover

section File

variable {σ : Type} {newDecoder : Encoding → σ} {decode : Decode σ} (sem : Semantics decode)
  {spare : ℕ → ℕ} {guess : FileBytes → Encoding}

/-- The text of a file as `read_file` sees it with a hint; with a decoder, when its calls have room
for what they are given. -/
inductive SeesText (newDecoder : Encoding → σ) (spare : ℕ → ℕ) (guess : FileBytes → Encoding)
    (bytes : FileBytes) (chunks : List ReadChunk) : TextEncodingName → Str → Prop
  | utf8 (hvalid : Utf8.Valid bytes) :
    SeesText newDecoder spare guess bytes chunks .utf8 (Utf8.fromUtf8Lossy bytes)
  | utf8Sig (hvalid : Utf8.Valid (bytes.drop (skipBom bytes .utf8))) :
    SeesText newDecoder spare guess bytes chunks .utf8Sig
      (Utf8.fromUtf8Lossy (bytes.drop (skipBom bytes .utf8)))
  | decoded {hint : TextEncodingName} {encoding : Encoding} {label : Str} {note : DecodedFileNote}
      {text : Str}
      (hresolved : resolveTextEncoding guess (bytes.take sniffMaxBytes) hint =
        (.decoder encoding label, note))
      (hfits : Fits decode (roomAt spare) 0 (newDecoder encoding)
        ((bytes.take sniffMaxBytes).drop (skipBom bytes encoding) :: chunks.map Subtype.val))
      (htext : sem.text (newDecoder encoding) (bytes.drop (skipBom bytes encoding)) = some text) :
    SeesText newDecoder spare guess bytes chunks hint text

/-- The line about the encoding in front of an answer. -/
def encodingHeader (guess : FileBytes → Encoding) (bytes : FileBytes) (hint : TextEncodingName) :
    Str :=
  formatEncodingHeader (resolveTextEncoding guess (sniffHeadBytes bytes hint) hint).2

theorem sniffHeadBytes_of_decoder {bytes : FileBytes} {hint : TextEncodingName}
    {encoding : Encoding} {label : Str} {note : DecodedFileNote}
    (h : resolveTextEncoding guess (bytes.take sniffMaxBytes) hint =
      (.decoder encoding label, note)) : sniffHeadBytes bytes hint = bytes.take sniffMaxBytes := by
  cases hint <;> first | rfl | cases h

/-- A call answers with the lines of the text that it sees. -/
theorem readFile_eq {rounds : ℕ} (hrounds : 2 ≤ rounds) {bytes : FileBytes} (hne : bytes ≠ [])
    {chunks : List ReadChunk}
    (hread : (chunks.map Subtype.val).flatten = bytes.drop sniffMaxBytes)
    {hint : TextEncodingName} {text : Str}
    (hsees : SeesText sem newDecoder spare guess bytes chunks hint text) (display : Str)
    (req : PageRequest) (totalLines : Option ℕ) :
    readFile newDecoder decode spare guess display hint req totalLines rounds bytes
        (chunks.map .ok) =
      some (pageAnswer display (encodingHeader guess bytes hint) (readFileSpec req totalLines)
        (rawLines text)) := by
  have hspec := readFileSpec_bounded req totalLines
  rw [readFile, if_neg hne]
  cases hsees with
  | utf8 hvalid => exact congrArg some (readFileUtf8Lines_eq hspec display _ hvalid)
  | utf8Sig hvalid =>
    have hskip : skipBom (bytes.take 3) .utf8 = skipBom bytes .utf8 :=
      skipBom_take bytes (Nat.le_refl 3) .utf8
    rw [← hskip] at hvalid ⊢
    exact congrArg some (readFileUtf8Lines_eq hspec display _ hvalid)
  | decoded hresolved hfits htext =>
    rename_i encoding label note
    have hsniff : 3 ≤ sniffMaxBytes := by decide
    have hskip := skipBom_take bytes hsniff encoding
    have hjoin : (bytes.take sniffMaxBytes).drop (skipBom bytes encoding) ++
        (chunks.map Subtype.val).flatten = bytes.drop (skipBom bytes encoding) := by
      rw [hread, drop_take_append_drop (Nat.le_trans (skipBom_le bytes encoding) hsniff)]
    rw [encodingHeader, sniffHeadBytes_of_decoder hresolved]
    dsimp only
    rw [hresolved]
    exact readFileDecodedLines_eq sem hspec display _ hrounds chunks hresolved (by rwa [hskip])
      (by rwa [hskip, hjoin])

theorem hasMore_iff {spec : ReadFileLinesSpec} (hspec : spec.Bounded) {display encHeader : Str}
    {lines : List Str} {r : ReadFileLinesResult}
    (h : pageAnswer display encHeader spec lines = .ok r) :
    r.hasMore = true ↔ r.endLineShown < lines.length := by
  have hone := hspec.one_le
  have hle := hspec.start_le
  rw [pageAnswer] at h
  split at h
  · cases h
  · next hbeyond =>
    have hpage : pageOf spec 1 lines = numbered spec.startLine
        ((lines.drop (spec.startLine - 1)).take (spec.endLine + 1 - spec.startLine)) := by
      rw [pageOf_drop (m := spec.startLine - 1) (by omega)]
      exact pageOf_numbered (Nat.le_refl _) (by omega) _
    have hlength : ((lines.drop (spec.startLine - 1)).take
        (spec.endLine + 1 - spec.startLine)).length =
        min (spec.endLine + 1 - spec.startLine) (lines.length - (spec.startLine - 1)) := by
      rw [length_take, length_drop]
    have hlast := getLast?_numbered spec.startLine
      (ne_nil_of_length_pos (by rw [hlength]; omega))
    obtain rfl := Except.ok.inj h
    simp only [linesResult, hpage, hlast, hlength, Option.getD_some, decide_eq_true_eq]
    omega

/-- The pages of a file are its lines: each call shows the lines asked for and says whether more
follow, page after page shows every line once, and both ways of reading UTF-8 see one text but for
a byte order mark. -/
theorem read_file_pages_cover {rounds : ℕ} (hrounds : 2 ≤ rounds) {bytes : FileBytes}
    {chunks : List ReadChunk}
    (hread : (chunks.map Subtype.val).flatten = bytes.drop sniffMaxBytes) (display : Str)
    (totalLines : Option ℕ) :
    (bytes = [] → ∀ hint req, readFile newDecoder decode spare guess display hint req totalLines
      rounds bytes (chunks.map .ok) = some (.ok ⟨"文件为空: ".toList ++ display, 0, 0, false⟩)) ∧
    (bytes ≠ [] → ∀ hint text, SeesText sem newDecoder spare guess bytes chunks hint text →
      (∀ req, readFile newDecoder decode spare guess display hint req totalLines rounds bytes
        (chunks.map .ok) = some (pageAnswer display (encodingHeader guess bytes hint)
          (readFileSpec req totalLines) (rawLines text))) ∧
      (∀ req r, readFile newDecoder decode spare guess display hint req totalLines rounds bytes
        (chunks.map .ok) = some (.ok r) → (r.hasMore = true ↔ r.endLineShown < (rawLines text).length)) ∧
      (rawLines text ≠ [] → ∀ {maxLines} (hmax : 1 ≤ maxLines), ∀ calls ≥ (rawLines text).length,
        ∃ pages, pages.flatten = numbered 1 (rawLines text) ∧
          readPages (fun k => readFile newDecoder decode spare guess display hint
            (pageAfter hmax k) totalLines rounds bytes (chunks.map .ok)) calls 0 =
          pageResults display (encodingHeader guess bytes hint) totalLines hmax 0 pages)) ∧
    (Utf8.Valid (bytes.drop (skipBom bytes .utf8)) → ∀ hint label note,
      resolveTextEncoding guess (bytes.take sniffMaxBytes) hint = (.decoder .utf8 label, note) →
      sem.text (newDecoder .utf8) (bytes.drop (skipBom bytes .utf8)) =
        some (Utf8.fromUtf8Lossy (bytes.drop (skipBom bytes .utf8))) →
      ∀ text, SeesText sem newDecoder spare guess bytes chunks hint text →
        SeesText sem newDecoder spare guess bytes chunks .utf8Sig text ∧
        (skipBom bytes .utf8 = 0 → SeesText sem newDecoder spare guess bytes chunks .utf8 text)) := by
  refine ⟨?_, ?_, ?_⟩
  · rintro rfl hint req
    rfl
  · intro hne hint text hsees
    have hanswer := fun req => readFile_eq sem hrounds hne hread hsees display req totalLines
    refine ⟨hanswer, fun req r hr => ?_, fun hlines maxLines hmax calls hcalls => ?_⟩
    · rw [hanswer, Option.some.injEq] at hr
      exact hasMore_iff (readFileSpec_bounded req totalLines) hr
    · exact readPages_eq display (encodingHeader guess bytes hint) totalLines hmax
        (fun k => hanswer (pageAfter hmax k)) (length_pos_of_ne_nil hlines) (by omega)
  · intro hvalid hint label note hresolved htext text hsees
    have hsame : text = Utf8.fromUtf8Lossy (bytes.drop (skipBom bytes .utf8)) := by
      cases hsees with
      | utf8 => cases hresolved
      | utf8Sig => cases hresolved
      | decoded hresolved' hfits htext' =>
        rw [hresolved] at hresolved'
        cases hresolved'
        rw [htext] at htext'
        exact (Option.some.inj htext').symm
    subst hsame
    refine ⟨.utf8Sig hvalid, fun hmark => ?_⟩
    rw [hmark, drop_zero] at hvalid ⊢
    exact .utf8 hvalid

theorem read_file_pages_cover_twoLines :
    ∃ pages, pages.flatten = [(1, "a\n".toList), (2, "b".toList)] ∧
      readPages (fun k => readFile (fun _ => ()) asciiDecode (fun _ => 0) (fun _ => .utf8) [] .auto
        (pageAfter (Nat.le_refl 1) k) none 2 [0x61, 0x0A, 0x62] []) 2 0 =
      pageResults [] (encodingHeader (fun _ => .utf8) [0x61, 0x0A, 0x62] .auto) none (Nat.le_refl 1)
        0 pages :=
  have hsees : SeesText asciiSemantics (fun _ => ()) (fun _ => 0) (fun _ => .utf8)
      [0x61, 0x0A, 0x62] [] .auto "a\nb".toList :=
    .decoded rfl (by simp [Fits, asciiDecode, roomAt, inputRoom, readChunk, sniffMaxBytes, skipBom,
      bomEncodingAndSkip]; trivial) (by decide)
  ((@read_file_pages_cover Unit (fun _ => ()) asciiDecode asciiSemantics (fun _ => 0)
    (fun _ => .utf8) 2 (Nat.le_refl 2) [0x61, 0x0A, 0x62] [] rfl [] none).2.1
    (cons_ne_nil _ _) _ _ hsees).2.2 (by decide) (Nat.le_refl 1) 2 (by decide)

/-- A byte order mark and a letter. -/
def marked : FileBytes := [0xEF, 0xBB, 0xBF, 0x61]

/-- The UTF-8 path shows the mark, the decoder path does not. -/
theorem marked_file_pages_differ :
    Utf8.Valid marked ∧ ∃ r r',
      readFile (fun _ => ()) asciiDecode (fun _ => 0) (fun _ => .utf8) [] .utf8
        (pageAfter (Nat.le_refl 1) 0) none 2 marked [] = some (.ok r) ∧
      readFile (fun _ => ()) asciiDecode (fun _ => 0) (fun _ => .utf8) [] .auto
        (pageAfter (Nat.le_refl 1) 0) none 2 marked [] = some (.ok r') ∧
      r.rawBody.dropWhile (· ≠ '\n') ≠ r'.rawBody.dropWhile (· ≠ '\n') := by
  have hvalid : Utf8.Valid marked := by decide
  have hread : (([] : List ReadChunk).map Subtype.val).flatten = marked.drop sniffMaxBytes := rfl
  have hsees : SeesText asciiSemantics (fun _ => ()) (fun _ => 0) (fun _ => .utf8) marked [] .utf8
      "\uFEFFa".toList := .utf8 hvalid
  have hfits : Fits asciiDecode (roomAt fun _ => 0) 0 () [[0x61]] := by
    simp [Fits, asciiDecode, roomAt, inputRoom, readChunk]
  have hsees' : SeesText asciiSemantics (fun _ => ()) (fun _ => 0) (fun _ => .utf8) marked [] .auto
      "a".toList :=
    .decoded rfl hfits (by decide)
  have hne : marked ≠ [] := cons_ne_nil _ _
  exact ⟨hvalid, _, _,
    readFile_eq asciiSemantics (Nat.le_refl 2) hne hread hsees [] (pageAfter (Nat.le_refl 1) 0) none,
    readFile_eq asciiSemantics (Nat.le_refl 2) hne hread hsees' [] (pageAfter (Nat.le_refl 1) 0) none,
    by decide⟩

end File

end CrabMate
