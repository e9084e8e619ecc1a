import CrabMate.Lib.Str

/-! UTF-8 decoding of byte lists, as `std::str::from_utf8` and `String::from_utf8_lossy` do it:
the lossy form puts one replacement character for each maximal part of a malformed sequence. -/
namespace Utf8

open RustStr (Str)

/-- The length of the sequence that a first byte opens; no sequence opens with the others. -/
def width (first : ℕ) : ℕ :=
  if first < 0x80 then 1
  else if 0xC2 ≤ first ∧ first ≤ 0xDF then 2
  else if 0xE0 ≤ first ∧ first ≤ 0xEF then 3
  else if 0xF0 ≤ first ∧ first ≤ 0xF4 then 4
  else 0

/-- The range of the second byte: no overlong form, no surrogate, nothing past the last plane. -/
def secondRange (first : ℕ) : ℕ × ℕ :=
  if first = 0xE0 then (0xA0, 0xBF)
  else if first = 0xED then (0x80, 0x9F)
  else if first = 0xF0 then (0x90, 0xBF)
  else if first = 0xF4 then (0x80, 0x8F)
  else (0x80, 0xBF)

def leadBits (first : ℕ) : ℕ :=
  match width first with
  | 2 => first % 32
  | 3 => first % 16
  | 4 => first % 8
  | _ => first

/-- Reads `count` more bytes of a sequence, the next one within `range`. -/
def continuation : ℕ → ℕ × ℕ → ℕ → List UInt8 → Option ℕ × List UInt8
  | 0, _, acc, rest => (some acc, rest)
  | _ + 1, _, _, [] => (none, [])
  | count + 1, range, acc, b :: rest =>
    if range.1 ≤ b.toNat ∧ b.toNat ≤ range.2 then
      continuation count (0x80, 0xBF) (acc * 64 + b.toNat % 64) rest
    else (none, b :: rest)

/-- The characters in order, `none` for a malformed part; the number of bytes bounds the rounds. -/
def decode : ℕ → List UInt8 → List (Option Char)
  | 0, _ => []
  | _ + 1, [] => []
  | rounds + 1, b :: rest =>
    match width b.toNat with
    | 0 => none :: decode rounds rest
    | more + 1 =>
      let read := continuation more (secondRange b.toNat) (leadBits b.toNat) rest
      read.1.map Char.ofNat :: decode rounds read.2

def fromUtf8 (bytes : List UInt8) : Option Str := (decode bytes.length bytes).mapM id

/-- `Utf8Error`; the length is none where the bytes only end too early. -/
structure Utf8Error where
  validUpTo : ℕ
  errorLen : Option ℕ
  deriving DecidableEq

/-- The first malformed part, from position `pos` on. -/
def error? : ℕ → ℕ → List UInt8 → Option Utf8Error
  | 0, _, _ => none
  | _ + 1, _, [] => none
  | rounds + 1, pos, b :: rest =>
    match width b.toNat with
    | 0 => some ⟨pos, some 1⟩
    | more + 1 =>
      match continuation more (secondRange b.toNat) (leadBits b.toNat) rest with
      | (some _, left) => error? rounds (pos + (more + 1)) left
      | (none, []) => some ⟨pos, none⟩
      | (none, left) => some ⟨pos, some (1 + (rest.length - left.length))⟩

def fromUtf8Error? (bytes : List UInt8) : Option Utf8Error := error? bytes.length 0 bytes

def fromUtf8Lossy (bytes : List UInt8) : Str :=
  (decode bytes.length bytes).map fun c => c.getD (Char.ofNat 0xFFFD)

/-- `std::str::from_utf8`. -/
def fromUtf8Strict (bytes : List UInt8) : Except Utf8Error Str :=
  match fromUtf8Error? bytes with
  | some e => .error e
  | none => .ok (fromUtf8Lossy bytes)

example : fromUtf8 [0x61, 0xE2, 0x82, 0xAC, 0xF0, 0x9F, 0xA6, 0x80] = some "a€🦀".toList := by decide

example : fromUtf8Lossy [0x61, 0xE2, 0x82, 0x62, 0xFF] = "a\uFFFDb\uFFFD".toList := by decide

example : fromUtf8Error? [0x61, 0xE2, 0x82] = some ⟨1, none⟩ := by decide

example : fromUtf8Error? [0x61, 0xE2, 0x82, 0x62] = some ⟨1, some 2⟩ := by decide

end Utf8
