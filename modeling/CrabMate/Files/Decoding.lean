import CrabMate.Files.Encoding
import CrabMate.Lib.Decoder
import CrabMate.Lib.Except
import CrabMate.Lib.Utf8

/-! Decoding of whole files and of files read in chunks, line by line. -/
namespace CrabMate
open RustStr List
open Decoding

/-- A failed decoding, or one whose loop has used up the rounds that it is looked at for. -/
inductive Halt
  | outOfRounds
  | failed (text : Str)
  deriving DecidableEq

/-- The decoder, the text that it has appended and the number of its calls. -/
structure Feeding (σ : Type) where
  decoder : σ
  pending : Str
  calls : ℕ

def inputRoom : ℕ := max 256 (min 4096 readChunk)

def endRoom : ℕ := 64

section Feed

-- `spare` is the room that the buffer has at a call beyond the reserved bytes
variable {σ : Type} (decode : Decode σ) (spare : ℕ → ℕ) (label : Str)

def feedInput : ℕ → FileBytes → Feeding σ → Except Halt (Feeding σ)
  | 0, _, _ => .error .outOfRounds
  | rounds + 1, src, f =>
    if src = [] then .ok f
    else
      let call := decode f.decoder src (inputRoom + spare f.calls) false
      let next := ⟨call.decoder, f.pending ++ call.out, f.calls + 1⟩
      match call.result with
      | .malformed _ _ =>
        .error (.failed ("解码失败：检测到非法字节序列或与声明编码不一致（".toList ++ label ++
          "）。可尝试 encoding=auto，或改用 gb18030 / big5 / utf-8-sig 等。".toList))
      -- the input is not moved on here, although the call has read from it
      | .outputFull => feedInput rounds src next
      | .inputEmpty => feedInput rounds (src.drop call.read) next

def feedEnd : ℕ → Feeding σ → Except Halt (Feeding σ)
  | 0, _ => .error .outOfRounds
  | rounds + 1, f =>
    let call := decode f.decoder [] (endRoom + spare f.calls) true
    let next := ⟨call.decoder, f.pending ++ call.out, f.calls + 1⟩
    match call.result with
    | .malformed _ _ =>
      .error (.failed ("解码失败：流末尾存在不完整或非法序列（".toList ++ label ++ "）。".toList))
    | .outputFull => feedEnd rounds next
    | .inputEmpty => .ok next

def feedDecoderStrict (rounds : ℕ) (src : FileBytes) (f : Feeding σ) (last : Bool) :
    Except Halt (Feeding σ) := do
  let f ← feedInput decode spare label rounds src f
  if last then feedEnd decode spare label rounds f else .ok f

end Feed

section Lines

/-- The callback is told the number and the text of a line, and says whether to stop. -/
abbrev OnLine (α : Type) := α → ℕ → Str → α × Bool

/-- What the callback has made of the lines, and what is left of the text. -/
structure Drained (α : Type) where
  lineNo : ℕ
  pending : Str
  seen : α
  broke : Bool

variable {α : Type} (onLine : OnLine α)

def drainPendingDecoderLines (lineNo : ℕ) (pending : Str) (seen : α) : Drained α :=
  match hpos : pending.findIdx? (· = '\n') with
  | none => ⟨lineNo, pending, seen, false⟩
  | some pos =>
    let next := onLine seen (lineNo + 1) (stripCr (pending.take pos))
    if next.2 then ⟨lineNo + 1, pending.drop (pos + 1), next.1, true⟩
    else drainPendingDecoderLines (lineNo + 1) (pending.drop (pos + 1)) next.1
termination_by pending.length
decreasing_by
  have hlt := (findIdx?_eq_some_iff_getElem.mp hpos).1
  rw [length_drop]
  omega

def emitDecoderPendingTailLine (d : Drained α) : ℕ × α :=
  if d.pending = [] then (d.lineNo, d.seen)
  else (d.lineNo + 1, (onLine d.seen (d.lineNo + 1) (stripCr d.pending)).1)

/-- A raw line as it is handed to the callback. -/
def logicalLine (line : Str) : Str :=
  stripCr (if line.getLast? = some '\n' then line.dropLast else line)

/-- The lines of a text as the callback is to be told them. -/
def logicalLines (text : Str) : List Str := (rawLines text).map logicalLine

/-- One line after the other, until the callback stops. -/
def deliver : ℕ → α → List Str → ℕ × α
  | lineNo, seen, [] => (lineNo, seen)
  | lineNo, seen, line :: rest =>
    let next := onLine seen (lineNo + 1) line
    if next.2 then (lineNo + 1, next.1) else deliver (lineNo + 1) next.1 rest

variable {onLine} {b : Str}

theorem findIdx?_newline (hb : '\n' ∉ b) : b.findIdx? (· = '\n') = none := by
  rw [findIdx?_eq_none_iff]
  intro c hc
  simp only [decide_eq_false_iff_not]
  rintro rfl
  exact hb hc

theorem drain_last (hb : '\n' ∉ b) (lineNo : ℕ) (seen : α) :
    drainPendingDecoderLines onLine lineNo b seen = ⟨lineNo, b, seen, false⟩ := by
  unfold drainPendingDecoderLines
  split
  · rfl
  · next pos hpos =>
    rw [findIdx?_newline hb] at hpos
    cases hpos

theorem drain_line (hb : '\n' ∉ b) (s : Str) (lineNo : ℕ) (seen : α) :
    drainPendingDecoderLines onLine lineNo (b ++ '\n' :: s) seen =
      let next := onLine seen (lineNo + 1) (stripCr b)
      if next.2 then ⟨lineNo + 1, s, next.1, true⟩
      else drainPendingDecoderLines onLine (lineNo + 1) s next.1 := by
  have hpos : (b ++ '\n' :: s).findIdx? (· = '\n') = some b.length := by
    rw [findIdx?_append, findIdx?_newline hb]
    simp [findIdx?_cons]
  rw [drainPendingDecoderLines]
  split
  · next h =>
    rw [hpos] at h
    cases h
  · next pos h =>
    rw [hpos] at h
    cases h
    simp

theorem logicalLine_line (b : Str) : logicalLine (b ++ ['\n']) = stripCr b := by
  rw [logicalLine, getLast?_concat, if_pos rfl, dropLast_concat]

theorem logicalLine_last (hb : '\n' ∉ b) : logicalLine b = stripCr b := by
  rw [logicalLine, if_neg fun h => hb (mem_of_getLast? h)]

theorem drain_append (p q : Str) (lineNo : ℕ) (seen : α) :
    drainPendingDecoderLines onLine lineNo (p ++ q) seen =
      let d := drainPendingDecoderLines onLine lineNo p seen
      if d.broke then { d with pending := d.pending ++ q }
      else drainPendingDecoderLines onLine d.lineNo (d.pending ++ q) d.seen := by
  induction p using line_induction generalizing lineNo seen with
  | last b hb =>
    rw [drain_last hb]
    rfl
  | line b s hb ih =>
    rw [append_assoc, cons_append, drain_line hb, drain_line hb]
    dsimp only
    split
    · rfl
    · exact ih _ _

theorem deliver_logicalLines (text : Str) (lineNo : ℕ) (seen : α) :
    deliver onLine lineNo seen (logicalLines text) =
      let d := drainPendingDecoderLines onLine lineNo text seen
      if d.broke then (d.lineNo, d.seen) else emitDecoderPendingTailLine onLine d := by
  induction text using line_induction generalizing lineNo seen with
  | last b hb =>
    rw [drain_last hb]
    by_cases hne : b = []
    · subst hne
      rfl
    · rw [logicalLines, rawLines_last hb hne, map_singleton, logicalLine_last hb]
      simp [deliver, emitDecoderPendingTailLine, hne]
  | line b s hb ih =>
    rw [logicalLines, rawLines_line hb, map_cons, logicalLine_line, drain_line hb, deliver]
    dsimp only
    split
    · rfl
    · exact ih _ _

/-- What is drained away ends where its last line does. -/
theorem newline_not_mem_drained (text : Str) (lineNo : ℕ) (seen : α)
    (h : (drainPendingDecoderLines onLine lineNo text seen).broke = false) :
    '\n' ∉ (drainPendingDecoderLines onLine lineNo text seen).pending := by
  induction text using line_induction generalizing lineNo seen with
  | last b hb => rwa [drain_last hb]
  | line b s hb ih =>
    rw [drain_line hb] at h ⊢
    dsimp only at h ⊢
    split at h
    · cases h
    · next hstop =>
      rw [if_neg hstop]
      exact ih _ _ h

end Lines

section Stream

/-- A chunk that `read` has returned; an empty one is the end of the file. -/
abbrev ReadChunk := {chunk : FileBytes // chunk ≠ [] ∧ chunk.length ≤ readChunk}

variable {σ α : Type} (decode : Decode σ) (spare : ℕ → ℕ) (onLine : OnLine α) (label : Str)

/-- The reads that are left, each a chunk or a failure. -/
def readDecoderChunks (rounds : ℕ) : List (Except Str ReadChunk) → Feeding σ → ℕ → α →
    Except Halt (Drained α)
  | [], f, lineNo, seen => do
    let f ← feedDecoderStrict decode spare label rounds [] f true
    return ⟨lineNo, f.pending, seen, false⟩
  | .error e :: _, _, _, _ => .error (.failed ("读取文件失败: ".toList ++ e))
  | .ok chunk :: rest, f, lineNo, seen => do
    let f ← feedDecoderStrict decode spare label rounds chunk f false
    let d := drainPendingDecoderLines onLine lineNo f.pending seen
    if d.broke then return d
    else readDecoderChunks rounds rest { f with pending := d.pending } d.lineNo d.seen

end Stream

section Whole

variable {σ α : Type} (newDecoder : Encoding → σ) (decode : Decode σ) (spare : ℕ → ℕ)
  (guess : FileBytes → Encoding)

/-- The lines of a file whose first bytes `head` have been read already, with what the callback
has made of them. -/
def forEachDecodedLineFromFileWithHead (onLine : OnLine α) (rounds : ℕ) (head : FileBytes)
    (reads : List (Except Str ReadChunk)) (hint : TextEncodingName) (seen : α) :
    Except Halt ((ℕ × α) × DecodedFileNote) :=
  match resolveTextEncoding guess head hint with
  | (.decoder encoding label, note) => do
    let first := head.drop (skipBom head encoding)
    let f ← feedDecoderStrict decode spare label rounds first ⟨newDecoder encoding, [], 0⟩ false
    let d := drainPendingDecoderLines onLine 0 f.pending seen
    if d.broke then return ((d.lineNo, d.seen), note)
    else
      let d ← readDecoderChunks decode spare onLine label rounds reads
        { f with pending := d.pending } d.lineNo d.seen
      if d.broke then return ((d.lineNo, d.seen), note)
      else return (emitDecoderPendingTailLine onLine d, note)
  | _ => .error (.failed "内部错误：for_each_decoded_line 仅用于非 UTF-8 解码路径".toList)

/-- The head is read first, for the encoding; `reads` are the reads that follow. -/
def forEachDecodedLineFromFile (onLine : OnLine α) (rounds : ℕ) (bytes : FileBytes)
    (reads : List (Except Str ReadChunk)) (hint : TextEncodingName) (seen : α) :
    Except Halt ((ℕ × α) × DecodedFileNote) :=
  forEachDecodedLineFromFileWithHead newDecoder decode spare guess onLine rounds
    (bytes.take sniffMaxBytes) reads hint seen

/-- `Display` for `Utf8Error`. -/
def utf8ErrorText (e : Utf8.Utf8Error) : Str :=
  match e.errorLen with
  | some n => "invalid utf-8 sequence of ".toList ++ (toString n).toList ++
      " bytes from index ".toList ++ (toString e.validUpTo).toList
  | none => "incomplete utf-8 byte sequence from index ".toList ++ (toString e.validUpTo).toList

def decodeBytesStrict (rounds : ℕ) (bytes : FileBytes) (hint : TextEncodingName) :
    Except Halt (Str × DecodedFileNote) :=
  let (resolved, note) := resolveTextEncoding guess bytes hint
  match resolved with
  | .utf8Strict =>
    match Utf8.fromUtf8Strict bytes with
    | .ok s => .ok (s, note)
    | .error e => .error (.failed ("按 UTF-8 解码失败：".toList ++ utf8ErrorText e ++
        "（字节偏移 ".toList ++ (toString e.validUpTo).toList ++
        "）。请指定 encoding（如 gb18030、big5）或使用 auto。".toList))
  | .utf8Sig skip =>
    match Utf8.fromUtf8Strict (bytes.drop skip) with
    | .ok s => .ok (s, note)
    | .error e => .error (.failed ("按 UTF-8（已跳过 ".toList ++ (toString skip).toList ++
        " 字节 BOM）解码失败：".toList ++ utf8ErrorText e ++ "（相对切片偏移 ".toList ++
        (toString e.validUpTo).toList ++ "）。请改用其它 encoding 或 auto。".toList))
  | .decoder encoding label => do
    let f ← feedDecoderStrict decode spare label rounds (bytes.drop (skipBom bytes encoding))
      ⟨newDecoder encoding, [], 0⟩ true
    return (f.pending, note)

end Whole

end CrabMate
