import CrabMate.Files.Revision

/-! The text encodings of workspace files: declared by the caller, or told from the byte order
mark or the contents. -/
namespace CrabMate
open RustStr

def sniffMaxBytes : ℕ := 64 * 1024

def readChunk : ℕ := 32 * 1024

/-- `encoding_rs::Encoding`; the last constructor stands for the encodings that only the
detector names. -/
inductive Encoding
  | utf8
  | utf16Le
  | utf16Be
  | gb18030
  | gbk
  | big5
  | other (name : String)
  deriving DecidableEq

inductive TextEncodingName
  | utf8
  | utf8Sig
  | gb18030
  | gbk
  | big5
  | utf16Le
  | utf16Be
  | auto
  deriving DecidableEq

inductive ResolvedTextEncoding
  | utf8Strict
  | utf8Sig (skipBom : ℕ)
  | decoder (encoding : Encoding) (label : Str)
  deriving DecidableEq

structure DecodedFileNote where
  label : Str
  autoDetected : Bool
  deriving DecidableEq

/-- The encoding that a byte order mark tells, and the length of the mark. -/
def bomEncodingAndSkip (bytes : FileBytes) : Option (Encoding × ℕ) :=
  if bytes.take 3 = [0xEF, 0xBB, 0xBF] then some (.utf8, 3)
  else if bytes.take 2 = [0xFF, 0xFE] then some (.utf16Le, 2)
  else if bytes.take 2 = [0xFE, 0xFF] then some (.utf16Be, 2)
  else none

def staticLabel : Encoding → Str
  | .utf8 => "UTF-8".toList
  | .utf16Le => "UTF-16LE".toList
  | .utf16Be => "UTF-16BE".toList
  | .gb18030 => "GB18030".toList
  | .gbk => "GBK".toList
  | .big5 => "Big5".toList
  | .other name => name.toList

/-- The mark to skip in front of a text in `encoding`. -/
def skipBom (bytes : FileBytes) (encoding : Encoding) : ℕ :=
  (((bomEncodingAndSkip bytes).filter fun bom => bom.1 = encoding).map Prod.snd).getD 0

section Resolve

-- the guess of the detector at the encoding of the bytes
variable (guess : FileBytes → Encoding)

def declared (encoding : Encoding) : ResolvedTextEncoding × DecodedFileNote :=
  (.decoder encoding (staticLabel encoding), ⟨staticLabel encoding, false⟩)

def resolveTextEncoding (head : FileBytes) (hint : TextEncodingName) :
    ResolvedTextEncoding × DecodedFileNote :=
  let bom := bomEncodingAndSkip head
  match hint with
  | .utf8 => (.utf8Strict, ⟨"UTF-8".toList, false⟩)
  | .utf8Sig => (.utf8Sig (skipBom head .utf8), ⟨"UTF-8（去 BOM）".toList, false⟩)
  | .gb18030 => declared .gb18030
  | .gbk => declared .gbk
  | .big5 => declared .big5
  | .utf16Le => declared .utf16Le
  | .utf16Be => declared .utf16Be
  | .auto =>
    match bom with
    | some (encoding, _) => declared encoding
    | none =>
      let encoding := guess head
      (.decoder encoding (staticLabel encoding), ⟨staticLabel encoding, true⟩)

/-- Three bytes are enough to see the mark. -/
theorem bomEncodingAndSkip_take (bytes : FileBytes) {n : ℕ} (hn : 3 ≤ n) :
    bomEncodingAndSkip (bytes.take n) = bomEncodingAndSkip bytes := by
  have hthree : min 3 n = 3 := Nat.min_eq_left hn
  have htwo : min 2 n = 2 := Nat.min_eq_left (Nat.le_of_succ_le hn)
  simp only [bomEncodingAndSkip, List.take_take, hthree, htwo]

theorem skipBom_take (bytes : FileBytes) {n : ℕ} (hn : 3 ≤ n) (encoding : Encoding) :
    skipBom (bytes.take n) encoding = skipBom bytes encoding := by
  rw [skipBom, skipBom, bomEncodingAndSkip_take bytes hn]

theorem skipBom_le (bytes : FileBytes) (encoding : Encoding) : skipBom bytes encoding ≤ 3 := by
  have hsmall : ∀ bom, bomEncodingAndSkip bytes = some bom → bom.2 ≤ 3 := by
    intro bom hbom
    unfold bomEncodingAndSkip at hbom
    split_ifs at hbom <;> cases hbom <;> decide
  unfold skipBom
  cases hbom : bomEncodingAndSkip bytes with
  | none => exact Nat.zero_le _
  | some bom =>
    rw [Option.filter_some]
    split
    · exact hsmall bom hbom
    · exact Nat.zero_le _

end Resolve

end CrabMate
