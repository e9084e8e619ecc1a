import CrabMate.Files.Decoding

/-! A file decoded in chunks and the file decoded whole. -/
namespace CrabMate
open RustStr List
open Decoding

/-- The room of the buffer at each call that is given input. -/
def roomAt (spare : ℕ → ℕ) (calls : ℕ) : ℕ := inputRoom + spare calls

section Feed

variable {σ : Type} {decode : Decode σ} (sem : Semantics decode) {spare : ℕ → ℕ} (label : Str)

/-- Input that its call has room for is decoded once. -/
theorem feedInput_of_fits {rounds : ℕ} (hrounds : 2 ≤ rounds) {src : FileBytes} {f : Feeding σ}
    {rest : List FileBytes}
    (hfits : Fits decode (roomAt spare) f.calls f.decoder (src :: rest)) :
    (∃ r calls, sem.feed f.decoder src = some r ∧
      feedInput decode spare label rounds src f = .ok ⟨r.2, f.pending ++ r.1, calls⟩ ∧
      Fits decode (roomAt spare) calls r.2 rest) ∨
    (sem.feed f.decoder src = none ∧
      ∃ e, feedInput decode spare label rounds src f = .error (.failed e)) := by
  obtain ⟨rounds, rfl⟩ := Nat.exists_eq_add_of_le' hrounds
  by_cases hsrc : src = []
  · subst hsrc
    refine Or.inl ⟨([], f.decoder), f.calls, sem.feed_nil _, ?_, (fits_empty _ _ _).mp hfits⟩
    rw [feedInput, if_pos rfl, append_nil]
  · rw [fits_cons hsrc] at hfits
    rw [feedInput, if_neg hsrc]
    simp only [roomAt] at hfits
    dsimp only
    split
    · next length after h =>
      exact Or.inr ⟨sem.of_malformed _ _ _ length after h, _, rfl⟩
    · next h => exact absurd h hfits.1
    · next h =>
      obtain ⟨hread, hfeed⟩ := sem.of_inputEmpty _ _ _ h
      refine Or.inl ⟨_, f.calls + 1, hfeed, ?_, hfits.2 h⟩
      rw [hread, drop_length, feedInput, if_pos rfl]

theorem feedEnd_eq (spare : ℕ → ℕ) {rounds : ℕ} (hrounds : 1 ≤ rounds) (f : Feeding σ) :
    (∃ t g, sem.finish f.decoder = some t ∧ feedEnd decode spare label rounds f = .ok g ∧
      g.pending = f.pending ++ t) ∨
    (sem.finish f.decoder = none ∧
      ∃ e, feedEnd decode spare label rounds f = .error (.failed e)) := by
  obtain ⟨rounds, rfl⟩ := Nat.exists_eq_add_of_le' hrounds
  rw [feedEnd]
  split
  · next length after h => exact Or.inr ⟨sem.of_last_malformed _ _ length after h, _, rfl⟩
  · next h => exact absurd h (sem.last_room _ _ (Nat.le_add_right _ _))
  · next h => exact Or.inl ⟨_, _, sem.of_last_inputEmpty _ _ h, rfl, rfl⟩

/-- The last input of a stream. -/
theorem feedDecoderStrict_last {rounds : ℕ} (hrounds : 2 ≤ rounds) {src : FileBytes}
    {f : Feeding σ} (hfits : Fits decode (roomAt spare) f.calls f.decoder [src]) :
    (∃ t g, sem.text f.decoder src = some t ∧
      feedDecoderStrict decode spare label rounds src f true = .ok g ∧
      g.pending = f.pending ++ t) ∨
    (sem.text f.decoder src = none ∧
      ∃ e, feedDecoderStrict decode spare label rounds src f true = .error (.failed e)) := by
  rw [feedDecoderStrict, Semantics.text]
  rcases feedInput_of_fits sem label hrounds hfits with
    ⟨r, calls, hfeed, hrun, -⟩ | ⟨hfeed, e, hrun⟩
  · rw [hfeed, hrun]
    rcases feedEnd_eq sem label spare (Nat.le_of_succ_le hrounds)
      ⟨r.2, f.pending ++ r.1, calls⟩ with ⟨t, g, hfinish, hend, hg⟩ | ⟨hfinish, e, hend⟩
    · exact Or.inl ⟨r.1 ++ t, g, by simp [hfinish], hend, by rw [hg, append_assoc]⟩
    · exact Or.inr ⟨by simp [hfinish], e, hend⟩
  · rw [hfeed, hrun]
    exact Or.inr ⟨rfl, e, rfl⟩

end Feed

section Stream

variable {σ α : Type} {decode : Decode σ} (sem : Semantics decode) {spare : ℕ → ℕ} (label : Str)
  (onLine : OnLine α)

/-- What the callback has made of all lines once the reading ends with `d`. -/
def outcome (d : Drained α) : ℕ × α :=
  if d.broke then (d.lineNo, d.seen) else emitDecoderPendingTailLine onLine d

/-- The callback stops at some line. -/
def Stops : Prop :=
  ∃ lineNo text seen, (drainPendingDecoderLines onLine lineNo text seen).broke = true

theorem not_stops (h : ∀ seen lineNo line, (onLine seen lineNo line).2 = false) :
    ¬ Stops onLine := by
  rintro ⟨lineNo, text, seen, hbroke⟩
  induction text using line_induction generalizing lineNo seen with
  | last b hb =>
    rw [drain_last hb] at hbroke
    cases hbroke
  | line b s hb ih =>
    rw [drain_line hb] at hbroke
    simp only [h, Bool.false_eq_true, if_false] at hbroke
    exact ih _ _ hbroke

theorem outcome_drain (text : Str) (lineNo : ℕ) (seen : α) :
    outcome onLine (drainPendingDecoderLines onLine lineNo text seen) =
      deliver onLine lineNo seen (logicalLines text) :=
  (deliver_logicalLines text lineNo seen).symm

theorem outcome_drain_append (p q : Str) (lineNo : ℕ) (seen : α) :
    outcome onLine (drainPendingDecoderLines onLine lineNo (p ++ q) seen) =
      let d := drainPendingDecoderLines onLine lineNo p seen
      if d.broke then outcome onLine d
      else outcome onLine (drainPendingDecoderLines onLine d.lineNo (d.pending ++ q) d.seen) := by
  rw [drain_append]
  dsimp only
  split
  · next h => simp [outcome, h]
  · rfl

theorem readDecoderChunks_ok {rounds : ℕ} {chunk : ReadChunk} {f g : Feeding σ}
    (hfeed : feedInput decode spare label rounds chunk.1 f = .ok g)
    (reads : List (Except Str ReadChunk)) (lineNo : ℕ) (seen : α) :
    readDecoderChunks decode spare onLine label rounds (.ok chunk :: reads) f lineNo seen =
      let d := drainPendingDecoderLines onLine lineNo g.pending seen
      if d.broke then .ok d
      else readDecoderChunks decode spare onLine label rounds reads
        { g with pending := d.pending } d.lineNo d.seen := by
  rw [readDecoderChunks, feedDecoderStrict, hfeed]
  rfl

/-- The chunks that are left decode like the bytes that are left, as far as the callback wants
them. -/
theorem readDecoderChunks_eq {rounds : ℕ} (hrounds : 2 ≤ rounds) (chunks : List ReadChunk)
    {f : Feeding σ} (lineNo : ℕ) (seen : α)
    (hfits : Fits decode (roomAt spare) f.calls f.decoder (chunks.map Subtype.val))
    (hpending : '\n' ∉ f.pending) :
    (∃ t d, sem.text f.decoder (chunks.map Subtype.val).flatten = some t ∧
      readDecoderChunks decode spare onLine label rounds (chunks.map .ok) f lineNo seen = .ok d ∧
      outcome onLine d =
        outcome onLine (drainPendingDecoderLines onLine lineNo (f.pending ++ t) seen)) ∨
    (sem.text f.decoder (chunks.map Subtype.val).flatten = none ∧
      ((∃ e, readDecoderChunks decode spare onLine label rounds (chunks.map .ok) f lineNo seen =
        .error (.failed e)) ∨
      Stops onLine)) := by
  induction chunks generalizing f lineNo seen with
  | nil =>
    have hnil : Fits decode (roomAt spare) f.calls f.decoder [[]] := by simp [Fits]
    rw [map_nil, map_nil, flatten_nil, readDecoderChunks]
    rcases feedDecoderStrict_last sem label hrounds hnil with
      ⟨t, g, htext, hrun, hg⟩ | ⟨htext, e, hrun⟩
    · have hend : '\n' ∉ f.pending ++ t := by
        rw [sem.text_nil] at htext
        have ht := sem.newline_not_mem_finish _ _ htext
        simp [hpending, ht]
      refine Or.inl ⟨t, _, htext, by rw [hrun]; rfl, ?_⟩
      rw [drain_last hend, hg]
    · exact Or.inr ⟨htext, Or.inl ⟨e, by rw [hrun]; rfl⟩⟩
  | cons chunk chunks ih =>
    rw [map_cons] at hfits
    rw [map_cons, map_cons, flatten_cons, sem.text_append]
    rcases feedInput_of_fits sem label hrounds hfits with
      ⟨r, calls, hfeed, hrun, hrest⟩ | ⟨hfeed, e, hrun⟩
    · rw [hfeed, Option.bind_some, readDecoderChunks_ok label onLine hrun]
      cases hbroke : (drainPendingDecoderLines onLine lineNo (f.pending ++ r.1) seen).broke with
      | true =>
        simp only [hbroke, if_true]
        cases htext : sem.text r.2 (chunks.map Subtype.val).flatten with
        | none => exact Or.inr ⟨rfl, Or.inr ⟨_, _, _, hbroke⟩⟩
        | some t =>
          refine Or.inl ⟨r.1 ++ t, _, rfl, rfl, ?_⟩
          rw [← append_assoc, outcome_drain_append onLine (f.pending ++ r.1)]
          simp only [hbroke, if_true]
      | false =>
        simp only [hbroke, Bool.false_eq_true, if_false]
        have hdrained := newline_not_mem_drained (f.pending ++ r.1) lineNo seen hbroke
        rcases ih (f := ⟨r.2, _, calls⟩) _ _ hrest hdrained with
          ⟨t, d, htext, hd, hsame⟩ | ⟨htext, hd⟩
        · refine Or.inl ⟨r.1 ++ t, d, by rw [htext]; rfl, hd, ?_⟩
          rw [hsame, ← append_assoc, outcome_drain_append onLine (f.pending ++ r.1)]
          simp only [hbroke, Bool.false_eq_true, if_false]
        · exact Or.inr ⟨by rw [htext]; rfl, hd⟩
    · refine Or.inr ⟨by rw [hfeed]; rfl, Or.inl ⟨e, ?_⟩⟩
      rw [readDecoderChunks, feedDecoderStrict, hrun]
      rfl

end Stream

section Whole

variable {σ : Type} {newDecoder : Encoding → σ} {decode : Decode σ} (sem : Semantics decode)
  {spare : ℕ → ℕ} {guess : FileBytes → Encoding}

theorem forEachDecodedLine_ok {α : Type} (onLine : OnLine α) {rounds : ℕ} {head : FileBytes}
    (reads : List (Except Str ReadChunk)) {hint : TextEncodingName} (seen : α)
    {encoding : Encoding} {label : Str} {note : DecodedFileNote} {g : Feeding σ}
    (hresolved : resolveTextEncoding guess head hint = (.decoder encoding label, note))
    (hfeed : feedInput decode spare label rounds (head.drop (skipBom head encoding))
      ⟨newDecoder encoding, [], 0⟩ = .ok g) :
    forEachDecodedLineFromFileWithHead newDecoder decode spare guess onLine rounds head reads
        hint seen =
      let d := drainPendingDecoderLines onLine 0 g.pending seen
      if d.broke then .ok ((d.lineNo, d.seen), note)
      else (readDecoderChunks decode spare onLine label rounds reads
        { g with pending := d.pending } d.lineNo d.seen).map fun d => (outcome onLine d, note) := by
  rw [forEachDecodedLineFromFileWithHead, hresolved]
  dsimp only
  rw [feedDecoderStrict, hfeed]
  show (if _ then _ else _) = (if _ then _ else _)
  split
  · rfl
  · cases hreads : readDecoderChunks decode spare onLine label rounds reads _ _ _ with
    | error e => rfl
    | ok d =>
      show (if _ then _ else _) = _
      cases hbroke : d.broke <;> simp [Except.map, outcome, hbroke] <;> rfl

/-- The lines of a file read in chunks are those of its decoding, as far as the callback wants
them. -/
theorem forEachDecodedLine_eq {α : Type} (onLine : OnLine α) {rounds : ℕ} (hrounds : 2 ≤ rounds)
    {head : FileBytes} (chunks : List ReadChunk) {hint : TextEncodingName} (seen : α)
    {encoding : Encoding} {label : Str} {note : DecodedFileNote}
    (hresolved : resolveTextEncoding guess head hint = (.decoder encoding label, note))
    (hfits : Fits decode (roomAt spare) 0 (newDecoder encoding)
      (head.drop (skipBom head encoding) :: chunks.map Subtype.val)) :
    (∃ t, sem.text (newDecoder encoding)
        (head.drop (skipBom head encoding) ++ (chunks.map Subtype.val).flatten) = some t ∧
      forEachDecodedLineFromFileWithHead newDecoder decode spare guess onLine rounds head
        (chunks.map .ok) hint seen = .ok (deliver onLine 0 seen (logicalLines t), note)) ∨
    (sem.text (newDecoder encoding)
        (head.drop (skipBom head encoding) ++ (chunks.map Subtype.val).flatten) = none ∧
      ((∃ e, forEachDecodedLineFromFileWithHead newDecoder decode spare guess onLine rounds head
        (chunks.map .ok) hint seen = .error (.failed e)) ∨ Stops onLine)) := by
  rw [sem.text_append]
  rcases feedInput_of_fits (f := ⟨newDecoder encoding, [], 0⟩) sem label hrounds hfits with
    ⟨r, calls, hfeed, hrun, hrest⟩ | ⟨hfeed, e, hrun⟩
  · rw [hfeed, Option.bind_some, forEachDecodedLine_ok onLine _ seen hresolved hrun]
    cases hbroke : (drainPendingDecoderLines onLine 0 ([] ++ r.1) seen).broke with
    | true =>
      simp only [hbroke, if_true]
      cases htext : sem.text r.2 (chunks.map Subtype.val).flatten with
      | none => exact Or.inr ⟨rfl, Or.inr ⟨_, _, _, hbroke⟩⟩
      | some t =>
        refine Or.inl ⟨r.1 ++ t, rfl, ?_⟩
        rw [← outcome_drain, outcome_drain_append onLine r.1]
        simp only [nil_append] at hbroke ⊢
        simp only [hbroke, if_true, outcome]
    | false =>
      simp only [hbroke, Bool.false_eq_true, if_false]
      have hdrained := newline_not_mem_drained ([] ++ r.1) 0 seen hbroke
      rcases readDecoderChunks_eq sem label onLine hrounds chunks (f := ⟨r.2, _, calls⟩) _ _ hrest
        hdrained with ⟨t, d, htext, hd, hsame⟩ | ⟨htext, hd⟩
      · refine Or.inl ⟨r.1 ++ t, by rw [htext]; rfl, ?_⟩
        rw [hd, ← outcome_drain, outcome_drain_append onLine r.1]
        simp only [nil_append] at hbroke hsame ⊢
        simp only [hbroke, Bool.false_eq_true, if_false, ← hsame, Except.map]
      · refine Or.inr ⟨by rw [htext]; rfl, hd.imp (fun he => ?_) id⟩
        obtain ⟨e, he⟩ := he
        exact ⟨e, by rw [he]; rfl⟩
  · refine Or.inr ⟨by rw [hfeed]; rfl, Or.inl ⟨e, ?_⟩⟩
    rw [forEachDecodedLineFromFileWithHead, hresolved]
    dsimp only
    rw [feedDecoderStrict, hrun]
    rfl

/-- The callback that keeps the lines with their numbers. -/
def keepLine : OnLine (List (Str × ℕ)) := fun seen lineNo line => (seen ++ [(line, lineNo)], false)

theorem deliver_keepLine (ls : List Str) (lineNo : ℕ) (seen : List (Str × ℕ)) :
    deliver keepLine lineNo seen ls = (lineNo + ls.length, seen ++ ls.zipIdx (lineNo + 1)) := by
  induction ls generalizing lineNo seen with
  | nil => simp [deliver]
  | cons line ls ih =>
    have hkeep : keepLine seen (lineNo + 1) line = (seen ++ [(line, lineNo + 1)], false) := rfl
    rw [deliver, hkeep, if_neg Bool.false_ne_true, ih, zipIdx_cons, length_cons,
      append_assoc, singleton_append, Nat.add_assoc, Nat.add_comm 1]

/-- The file read in chunks and the file decoded whole both give the decoding of its bytes, as
numbered lines and as a text, or both fail on bytes that have none. -/
def DecodesAlike (newDecoder : Encoding → σ) (spare spare' : ℕ → ℕ)
    (guess : FileBytes → Encoding) (rounds : ℕ) (bytes : FileBytes) (chunks : List ReadChunk)
    (hint : TextEncodingName) (encoding : Encoding) (note : DecodedFileNote) : Prop :=
  let streamed := forEachDecodedLineFromFile newDecoder decode spare guess keepLine rounds bytes
    (chunks.map .ok) hint []
  let whole := decodeBytesStrict newDecoder decode spare' guess rounds bytes hint
  match sem.text (newDecoder encoding) (bytes.drop (skipBom bytes encoding)) with
  | some text =>
    streamed = .ok (((logicalLines text).length, (logicalLines text).zipIdx 1), note) ∧
      whole = .ok (text, note)
  | none => (∃ e, streamed = .error (.failed e)) ∧ ∃ e, whole = .error (.failed e)

theorem drop_take_append_drop {bytes : FileBytes} {skip n : ℕ} (h : skip ≤ n) :
    (bytes.take n).drop skip ++ bytes.drop n = bytes.drop skip := by
  obtain ⟨k, rfl⟩ := Nat.exists_eq_add_of_le h
  rw [drop_take, Nat.add_sub_cancel_left, ← drop_drop, take_append_drop]

theorem streamed_decode_eq_whole_of_fits {spare' : ℕ → ℕ} {rounds : ℕ} (hrounds : 2 ≤ rounds)
    (bytes : FileBytes) (chunks : List ReadChunk)
    (hread : (chunks.map Subtype.val).flatten = bytes.drop sniffMaxBytes)
    {hint : TextEncodingName} {encoding : Encoding} {label : Str} {note : DecodedFileNote}
    (hwhole : resolveTextEncoding guess bytes hint = (.decoder encoding label, note))
    (hhead : resolveTextEncoding guess (bytes.take sniffMaxBytes) hint =
      resolveTextEncoding guess bytes hint)
    (hfits : Fits decode (roomAt spare) 0 (newDecoder encoding)
      ((bytes.take sniffMaxBytes).drop (skipBom bytes encoding) :: chunks.map Subtype.val))
    (hfits' : Fits decode (roomAt spare') 0 (newDecoder encoding)
      [bytes.drop (skipBom bytes encoding)]) :
    DecodesAlike sem newDecoder spare spare' guess rounds bytes chunks hint encoding note := by
  have hsniff : 3 ≤ sniffMaxBytes := by decide
  have hskip := skipBom_take bytes hsniff encoding
  have hjoin : (bytes.take sniffMaxBytes).drop (skipBom bytes encoding) ++
      (chunks.map Subtype.val).flatten = bytes.drop (skipBom bytes encoding) := by
    rw [hread, drop_take_append_drop (Nat.le_trans (skipBom_le bytes encoding) hsniff)]
  have hstreamed := forEachDecodedLine_eq sem keepLine hrounds chunks []
    (hhead.trans hwhole) (by rwa [hskip])
  rw [hskip, hjoin] at hstreamed
  have hdecoded := feedDecoderStrict_last sem label hrounds
    (f := ⟨newDecoder encoding, [], 0⟩) hfits'
  simp only [DecodesAlike, forEachDecodedLineFromFile, decodeBytesStrict, hwhole]
  rcases hstreamed with ⟨t, htext, hrun⟩ | ⟨htext, hrun⟩
  · rw [htext] at hdecoded ⊢
    rw [hrun, deliver_keepLine]
    rcases hdecoded with ⟨u, g, hsome, hg, hpending⟩ | ⟨hnone, -⟩
    · cases hsome
      refine ⟨by simp, ?_⟩
      rw [hg]
      show Except.ok (g.pending, note) = _
      rw [hpending]
      rfl
    · cases hnone
  · rw [htext] at hdecoded ⊢
    rcases hdecoded with ⟨_, g, hsome, -⟩ | ⟨-, e, he⟩
    · cases hsome
    · refine ⟨hrun.resolve_right (not_stops keepLine fun _ _ _ => rfl), e, ?_⟩
      rw [he]
      rfl

end Whole

section Ascii

/-- A decoder of bytes below `0x80`, which are characters in every encoding but the UTF-16
ones. -/
def asciiDecode : Decode Unit := fun _ src room _ =>
  let part := src.take room
  let out := part.map fun b => Char.ofNat b.toNat
  if part.all (· < 0x80) then
    ⟨if src.length ≤ room then .inputEmpty else .outputFull, part.length, out, ()⟩
  else ⟨.malformed 1 0, part.length, [], ()⟩

def asciiSemantics : Semantics asciiDecode where
  feed := fun _ src =>
    if src.all (· < 0x80) then some (src.map fun b => Char.ofNat b.toNat, ()) else none
  finish := fun _ => some []
  feed_nil := fun _ => rfl
  feed_append := by
    intro s x y
    by_cases hx : x.all (· < 0x80) <;> by_cases hy : y.all (· < 0x80) <;> simp [hx, hy]
  of_inputEmpty := by
    intro s src room h
    by_cases hall : (src.take room).all (· < 0x80)
    · by_cases hroom : src.length ≤ room
      · rw [take_of_length_le hroom] at hall
        simp [asciiDecode, take_of_length_le hroom, hall]
      · simp [asciiDecode, hall, hroom] at h
    · simp [asciiDecode, hall] at h
  of_outputFull := by
    intro s src room h
    by_cases hall : (src.take room).all (· < 0x80)
    · have hread : (asciiDecode s src room false).read = min room src.length := by
        simp [asciiDecode, hall]
      rw [hread]
      refine ⟨Nat.min_le_right _ _, ?_⟩
      simp [asciiDecode, hall, ← take_eq_take_min]
    · simp [asciiDecode, hall] at h
  of_malformed := by
    intro s src room length after h
    by_cases hall : (src.take room).all (· < 0x80)
    · by_cases hroom : src.length ≤ room <;> simp [asciiDecode, hall, hroom] at h
    · rw [if_neg]
      intro hsrc
      rw [all_eq_true] at hall hsrc
      exact hall fun b hb => hsrc b (mem_of_mem_take hb)
  of_last_inputEmpty := by
    intro s room h
    simp [asciiDecode]
  of_last_malformed := by
    intro s room length after h
    simp [asciiDecode] at h
  last_room := by
    intro s room hroom
    simp [asciiDecode]
  newline_not_mem_finish := by
    intro s t h
    cases h
    exact not_mem_nil

/-- Input for which every call has room is decoded call by call, up to the first malformed byte. -/
theorem fits_asciiDecode {room : ℕ → ℕ} {srcs : List FileBytes}
    (h : ∀ src ∈ srcs, ∀ calls, src.length ≤ room calls) (calls : ℕ) :
    Fits asciiDecode room calls () srcs := by
  induction srcs generalizing calls with
  | nil => trivial
  | cons src srcs ih =>
    have hsrc := h src mem_cons_self calls
    have hrest := ih fun x hx => h x (mem_cons_of_mem _ hx)
    rw [Fits]
    split
    · exact hrest calls
    · by_cases hall : (src.take (room calls)).all (· < 0x80) = true
      · simpa [asciiDecode, hall, hsrc] using hrest (calls + 1)
      · simp [asciiDecode, hall]

/-- Two lines; the line end and the second line stand behind the part that is read first. -/
def twoLines : FileBytes := List.replicate sniffMaxBytes 0x61 ++ [0x0D, 0x0A, 0x62]

theorem streamed_decode_eq_whole_twoLines :
    DecodesAlike asciiSemantics (fun _ => ()) (fun _ => twoLines.length)
      (fun _ => twoLines.length) (fun _ => .gb18030) 2 twoLines
      [⟨[0x0D, 0x0A, 0x62], by decide⟩] .gb18030 .gb18030 ⟨"GB18030".toList, false⟩ := by
  -- the text stays folded
  generalize hbytes : twoLines = bytes
  have hdeclared : ∀ head, resolveTextEncoding (fun _ => .gb18030) head .gb18030 =
      (.decoder .gb18030 "GB18030".toList, ⟨"GB18030".toList, false⟩) := fun _ => rfl
  refine streamed_decode_eq_whole_of_fits asciiSemantics (Nat.le_refl 2) bytes _ ?_
    (hdeclared bytes) ((hdeclared _).trans (hdeclared _).symm)
    (fits_asciiDecode (fun src hsrc calls => ?_) 0) (fits_asciiDecode (fun src hsrc calls => ?_) 0)
  · rw [← hbytes, twoLines, drop_left' length_replicate]
    rfl
  · refine Nat.le_trans ?_ (Nat.le_add_left _ _)
    rcases mem_cons.mp hsrc with rfl | hsrc
    · rw [length_drop, length_take]
      exact (Nat.sub_le _ _).trans (Nat.min_le_right _ _)
    · obtain rfl := mem_singleton.mp hsrc
      simp only [← hbytes, twoLines, length_append, length_cons, length_nil]
      omega
  · obtain rfl := mem_singleton.mp hsrc
    refine Nat.le_trans ?_ (Nat.le_add_left _ _)
    rw [length_drop]
    exact Nat.sub_le _ _

theorem asciiDecode_replicate (n room : ℕ) (last : Bool) :
    asciiDecode () (List.replicate n 0x61) room last =
      ⟨if n ≤ room then .inputEmpty else .outputFull, min room n,
        List.replicate (min room n) 'a', ()⟩ := by
  simp [asciiDecode, take_replicate]

/-- The room that doubling the buffer leaves beyond the reserved bytes, after a call has filled
its first 4096 bytes. -/
def doubled (calls : ℕ) : ℕ := if calls = 2 then 4096 else 0

theorem feedInput_full {spare : ℕ → ℕ} {f : Feeding Unit} {n room : ℕ}
    (hroom : inputRoom + spare f.calls = room) (hfull : room < n) (label : Str) (rounds : ℕ) :
    feedInput asciiDecode spare label (rounds + 1) (List.replicate n 0x61) f =
      feedInput asciiDecode spare label rounds (List.replicate n 0x61)
        ⟨(), f.pending ++ List.replicate room 'a', f.calls + 1⟩ := by
  have hne : List.replicate n (0x61 : UInt8) ≠ [] := by
    rw [ne_eq, replicate_eq_nil_iff]
    omega
  rw [feedInput, if_neg hne, asciiDecode_replicate, hroom, if_neg (Nat.not_le_of_lt hfull),
    Nat.min_eq_left (Nat.le_of_lt hfull)]

/-- Input that does not fit into 4096 bytes is fed three times. -/
theorem feedInput_refeeds {n : ℕ} (hlong : 4096 < n) (hshort : n ≤ 8192) (label : Str)
    (rounds : ℕ) :
    ∃ calls, feedInput asciiDecode doubled label (rounds + 4) (List.replicate n 0x61) ⟨(), [], 0⟩ =
      .ok ⟨(), List.replicate (8192 + n) 'a', calls⟩ := by
  have hroom : roomAt doubled 2 = 8192 := rfl
  have hfits : Fits asciiDecode (roomAt doubled) 2 () [List.replicate n 0x61] := by
    rw [fits_cons (by rw [ne_eq, replicate_eq_nil_iff]; omega), asciiDecode_replicate, hroom,
      if_pos hshort]
    exact ⟨nofun, fun _ => trivial⟩
  rw [feedInput_full (f := ⟨(), [], 0⟩) (show inputRoom + doubled 0 = 4096 from rfl) hlong,
    feedInput_full (f := ⟨(), _, 1⟩) (show inputRoom + doubled 1 = 4096 from rfl) hlong]
  rcases feedInput_of_fits asciiSemantics label (Nat.le_add_left 2 rounds)
    (f := ⟨(), [] ++ List.replicate 4096 'a' ++ List.replicate 4096 'a', 2⟩) hfits with
    ⟨r, calls, hfeed, hrun, -⟩ | ⟨hnone, -⟩
  · have hr : (List.replicate n 'a', ()) = r := by simpa [asciiSemantics] using hfeed
    refine ⟨calls, ?_⟩
    rw [hrun, ← hr, nil_append, replicate_append_replicate,
      replicate_append_replicate]
  · simp [asciiSemantics] at hnone

theorem not_streamed_decode_eq_whole :
    ¬ ∀ (bytes : FileBytes) (chunks : List ReadChunk),
      (chunks.map Subtype.val).flatten = bytes.drop sniffMaxBytes →
        ∃ least, ∀ rounds ≥ least,
          DecodesAlike asciiSemantics (fun _ => ()) doubled doubled (fun _ => .gb18030) rounds bytes
            chunks .gb18030 .gb18030 ⟨"GB18030".toList, false⟩ := by
  intro h
  obtain ⟨n, hn⟩ : ∃ n, n = 4097 := ⟨_, rfl⟩
  have hread : (([] : List ReadChunk).map Subtype.val).flatten =
      (List.replicate n (0x61 : UInt8)).drop sniffMaxBytes := by
    rw [drop_replicate, hn]
    rfl
  obtain ⟨least, h⟩ := h _ [] hread
  have halike := h (least + 4) (Nat.le_add_right _ _)
  have hskip : skipBom (List.replicate n 0x61) .gb18030 = 0 := by
    have htake : min 3 n = 3 ∧ min 2 n = 2 := by omega
    simp [skipBom, bomEncodingAndSkip, take_replicate, htake]
  have htext : asciiSemantics.text () (List.replicate n 0x61) = some (List.replicate n 'a') := by
    simp [Semantics.text, asciiSemantics]
  simp only [DecodesAlike, hskip, drop_zero, htext] at halike
  have hwhole := halike.2
  rw [decodeBytesStrict, resolveTextEncoding] at hwhole
  obtain ⟨calls, hfeed⟩ :=
    feedInput_refeeds (by omega) (by omega) (staticLabel .gb18030) least (n := n)
  simp only [declared, hskip, drop_zero, feedDecoderStrict, hfeed] at hwhole
  have hlength : 8192 + n = n := by
    simp [feedEnd, asciiDecode, bind, Except.bind, pure, Except.pure] at hwhole
  omega

end Ascii

end CrabMate
