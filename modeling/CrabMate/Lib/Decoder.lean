import CrabMate.Lib.Str

/-! Resumable decoders: a call decodes what it is given of a stream into a buffer with limited
room, and says how far it came. -/
namespace Decoding
open RustStr (Str)

inductive DecoderResult
  | inputEmpty
  | outputFull
  | malformed (length after : ℕ)
  deriving DecidableEq

structure DecodeCall (σ : Type) where
  result : DecoderResult
  read : ℕ
  out : Str
  decoder : σ

/-- The arguments are the decoder, the bytes, the room in the buffer and whether the stream ends
with these bytes. -/
abbrev Decode (σ : Type) := σ → List UInt8 → ℕ → Bool → DecodeCall σ

/-- What a decoder makes of a stream, whatever the calls: `feed` is the decoding of bytes that
are not the last, `finish` that of the end, both none for malformed input. A call decodes the
bytes that it has read. -/
structure Semantics {σ : Type} (decode : Decode σ) where
  feed : σ → List UInt8 → Option (Str × σ)
  finish : σ → Option Str
  feed_nil : ∀ s, feed s [] = some ([], s)
  feed_append : ∀ s x y, feed s (x ++ y) =
    (feed s x).bind fun r => (feed r.2 y).map fun t => (r.1 ++ t.1, t.2)
  of_inputEmpty : ∀ s src room, (decode s src room false).result = .inputEmpty →
    (decode s src room false).read = src.length ∧
      feed s src = some ((decode s src room false).out, (decode s src room false).decoder)
  of_outputFull : ∀ s src room, (decode s src room false).result = .outputFull →
    (decode s src room false).read ≤ src.length ∧
      feed s (src.take (decode s src room false).read) =
        some ((decode s src room false).out, (decode s src room false).decoder)
  of_malformed : ∀ s src room length after,
    (decode s src room false).result = .malformed length after → feed s src = none
  of_last_inputEmpty : ∀ s room, (decode s [] room true).result = .inputEmpty →
    finish s = some (decode s [] room true).out
  of_last_malformed : ∀ s room length after,
    (decode s [] room true).result = .malformed length after → finish s = none
  /-- What a decoder holds back is less than a character, and never a newline. -/
  last_room : ∀ s room, 64 ≤ room → (decode s [] room true).result ≠ .outputFull
  newline_not_mem_finish : ∀ s t, finish s = some t → '\n' ∉ t

namespace Semantics

variable {σ : Type} {decode : Decode σ} (sem : Semantics decode)

/-- The decoding of the rest of a stream. -/
def text (s : σ) (bytes : List UInt8) : Option Str :=
  (sem.feed s bytes).bind fun r => (sem.finish r.2).map (r.1 ++ ·)

theorem text_nil (s : σ) : sem.text s [] = sem.finish s := by
  rw [text, sem.feed_nil, Option.bind_some]
  simp

theorem text_append (s : σ) (x y : List UInt8) :
    sem.text s (x ++ y) = (sem.feed s x).bind fun r => (sem.text r.2 y).map (r.1 ++ ·) := by
  rw [text, sem.feed_append]
  cases hx : sem.feed s x with
  | none => rfl
  | some r =>
    simp only [Option.bind_some, text]
    cases hy : sem.feed r.2 y with
    | none => rfl
    | some t => cases ht : sem.finish t.2 <;> simp [ht]

end Semantics

section Fits

variable {σ : Type} (decode : Decode σ) (room : ℕ → ℕ)

/-- No call stops for want of room when the pieces of a stream are decoded one after the other,
one call for each; `calls` counts the calls before. -/
def Fits : ℕ → σ → List (List UInt8) → Prop
  | _, _, [] => True
  | calls, s, src :: rest =>
    if src = [] then Fits calls s rest
    else
      match (decode s src (room calls) false).result with
      | .inputEmpty => Fits (calls + 1) (decode s src (room calls) false).decoder rest
      | .outputFull => False
      | .malformed _ _ => True

variable {decode room}

@[simp] theorem fits_empty (calls : ℕ) (s : σ) (rest : List (List UInt8)) :
    Fits decode room calls s ([] :: rest) ↔ Fits decode room calls s rest := by
  rw [Fits, if_pos rfl]

theorem fits_cons {calls : ℕ} {s : σ} {src : List UInt8} (hne : src ≠ [])
    (rest : List (List UInt8)) :
    Fits decode room calls s (src :: rest) ↔
      (decode s src (room calls) false).result ≠ .outputFull ∧
        ((decode s src (room calls) false).result = .inputEmpty →
          Fits decode room (calls + 1) (decode s src (room calls) false).decoder rest) := by
  rw [Fits, if_neg hne]
  cases (decode s src (room calls) false).result <;> simp

end Fits

end Decoding
