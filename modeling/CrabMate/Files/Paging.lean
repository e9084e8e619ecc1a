import CrabMate.Files.Decoding
import CrabMate.Lib.Utf8Lines

/-! Reading a file page by page, from UTF-8 lines or from decoded lines. -/
namespace CrabMate
open RustStr
open Decoding

section Request

/-- The lines asked for: the first one, perhaps the last one, and how many at most. -/
structure PageRequest where
  startLine : ℕ
  endLineOpt : Option ℕ
  maxLines : ℕ
  one_le_startLine : 1 ≤ startLine
  startLine_le : ∀ e ∈ endLineOpt, startLine ≤ e
  one_le_maxLines : 1 ≤ maxLines

/-- The last line of the page, and whether the limit has moved it. -/
def resolveReadEndLine (startLine : ℕ) (endLineOpt : Option ℕ) (maxLines : ℕ) : ℕ × Bool :=
  let endLine := endLineOpt.getD (startLine + (maxLines - 1))
  let maxEndByCap := startLine + (maxLines - 1)
  if endLine > maxEndByCap then (maxEndByCap, true) else (endLine, false)

end Request

section Body

structure ReadFileLinesSpec where
  startLine : ℕ
  endLine : ℕ
  maxLines : ℕ
  totalLines : Option ℕ
  truncatedByMax : Bool

inductive ReadFileBodyError
  | utf8Decode (text : Str)
  | invalidRange (text : Str)
  | internal (text : Str)
  | io (text : Str)
  deriving DecidableEq

def readFileBodyErrorFromPipelineString (message : Str) : ReadFileBodyError :=
  if contains "内部错误".toList message then .internal message
  else if startsWith "错误：start_line=".toList message ||
      startsWith "错误：未读取到任何行".toList message then .invalidRange message
  else if contains "UTF-8".toList message || contains "非法字节".toList message ||
      contains "解码".toList message || contains "非法序列".toList message then
    .utf8Decode message
  else .io message

structure ReadFileLinesResult where
  rawBody : Str
  endLineShown : ℕ
  lineCountReturned : ℕ
  hasMore : Bool
  deriving DecidableEq

def natText (n : ℕ) : Str := (toString n).toList

def formatEncodingHeader (note : DecodedFileNote) : Str :=
  "文本编码: ".toList ++ note.label ++ (if note.autoDetected then "（自动探测）\n".toList else ['\n'])

/-- `trim_end_matches(['\n', '\r'])`. -/
def trimLineEnd (line : Str) : Str := line.rdropWhile fun c => c = '\n' || c = '\r'

-- the path as the answer shows it, and the line about the encoding
variable (display encHeader : Str)

def assembleReadOutput (spec : ReadFileLinesSpec) (collected : List (ℕ × Str)) (hasMore : Bool) :
    Str :=
  let lastShown := (collected.getLast?.map Prod.fst).getD spec.startLine
  let firstShown := (collected.head?.map Prod.fst).getD spec.startLine
  trimEnd (encHeader ++ "文件: ".toList ++ display ++ ['\n'] ++
    (match spec.totalLines with
      | some t => "总行数: ".toList ++ natText t ++ ['\n']
      | none => "总行数: 未统计（大文件可避免 count_total_lines 以省时间）\n".toList) ++
    "本段行范围: ".toList ++ natText firstShown ++ ['-'] ++ natText lastShown ++
    "（单次 max_lines=".toList ++ natText spec.maxLines ++ "）\n".toList ++
    (if spec.truncatedByMax then "说明: 请求的 end_line 区间超过 max_lines，已截断本段输出。\n".toList
      else []) ++
    (if hasMore then "仍有后续内容: 下一段可将 start_line 设为 ".toList ++ natText (lastShown + 1) ++
        ['\n']
      else "已读到文件末尾（本段范围内无更多行）。\n".toList) ++
    ['\n'] ++ collected.flatMap fun l => natText l.1 ++ ['|'] ++ trimLineEnd l.2 ++ ['\n'])

/-- The answer for the lines collected. -/
def linesResult (spec : ReadFileLinesSpec) (collected : List (ℕ × Str)) (hasMore : Bool) :
    ReadFileLinesResult where
  rawBody := assembleReadOutput display encHeader spec collected hasMore
  endLineShown := (collected.getLast?.map Prod.fst).getD spec.startLine
  lineCountReturned := collected.length
  hasMore := hasMore

def startBeyondEnd (spec : ReadFileLinesSpec) : ReadFileBodyError :=
  .invalidRange ("错误：start_line=".toList ++ natText spec.startLine ++
    " 超出文件行数（已知总行数: ".toList ++
    (spec.totalLines.map natText).getD "未知（未请求 count_total_lines）".toList ++ "）".toList)

def noLineRead (spec : ReadFileLinesSpec) : ReadFileBodyError :=
  .invalidRange ("错误：未读取到任何行（start_line=".toList ++ natText spec.startLine ++
    "，end_line=".toList ++ natText spec.endLine ++ "）。请检查区间。".toList)

end Body

section Utf8Lines

structure Utf8CollectOutcome where
  collected : List (ℕ × Str)
  lineNo : ℕ
  eofBeforeStart : Bool

/-- The reader is the raw lines that are left to it; the second part of the result is the reader
behind the last line read. -/
def utf8CollectLinesInRange (spec : ReadFileLinesSpec) : List FileBytes → ℕ → List (ℕ × Str) →
    Except ReadFileBodyError (Utf8CollectOutcome × List FileBytes)
  | [], lineNo, collected => .ok (⟨collected, lineNo, lineNo < spec.startLine⟩, [])
  | raw :: reader, lineNo, collected =>
    match Utf8.fromUtf8Strict raw with
    | .error _ => .error (.utf8Decode ("读取失败：按 UTF-8 解码时遇到非法字节序列。请使用 " ++
        "encoding=gb18030、big5、utf-8-sig 或 auto 等重试。").toList)
    | .ok buf =>
      let lineNo := lineNo + 1
      if lineNo < spec.startLine then utf8CollectLinesInRange spec reader lineNo collected
      else if lineNo > spec.endLine then .ok (⟨collected, lineNo, false⟩, reader)
      else
        let collected := collected ++ [(lineNo, buf)]
        if collected.length ≥ spec.maxLines then .ok (⟨collected, lineNo, false⟩, reader)
        else utf8CollectLinesInRange spec reader lineNo collected

def utf8ProbeHasMoreLines (reader : List FileBytes) (lineNo endLine : ℕ) :
    Except ReadFileBodyError Bool :=
  if lineNo > endLine then .ok true
  else
    match reader with
    | [] => .ok false
    | raw :: _ =>
      match Utf8.fromUtf8Strict raw with
      | .ok _ => .ok true
      | .error _ => .error (.utf8Decode ("读取失败：按 UTF-8 解码时遇到非法字节序列。请使用 " ++
          "encoding=gb18030、big5 或 auto 等重试。").toList)

def readFileUtf8Lines (display : Str) (spec : ReadFileLinesSpec) (skipBom : ℕ) (encHeader : Str)
    (bytes : FileBytes) : Except ReadFileBodyError ReadFileLinesResult := do
  let (outcome, reader) ←
    utf8CollectLinesInRange spec (Utf8.rawByteLines (bytes.drop skipBom)) 0 []
  if outcome.eofBeforeStart then throw (startBeyondEnd spec)
  let hasMore ← utf8ProbeHasMoreLines reader outcome.lineNo spec.endLine
  if outcome.collected.isEmpty then throw (noLineRead spec)
  return linesResult display encHeader spec outcome.collected hasMore

end Utf8Lines

section DecodedLines

structure DecodedCollect where
  lastLineNo : ℕ
  collected : List (ℕ × Str)
  hasMore : Bool

def decodedLineCollectFlow (spec : ReadFileLinesSpec) : OnLine DecodedCollect := fun c ln line =>
  let c := { c with lastLineNo := ln }
  if ln < spec.startLine then (c, false)
  else if ln > spec.endLine then ({ c with hasMore := true }, true)
  else
    let collected :=
      if c.collected.length < spec.maxLines then c.collected ++ [(ln, line ++ ['\n'])]
      else c.collected
    if collected.length ≥ spec.maxLines ∧ ln < spec.endLine then (⟨ln, collected, true⟩, true)
    else (⟨ln, collected, c.hasMore⟩, false)

def finalizeDecodedLineCollection (display : Str) (spec : ReadFileLinesSpec) (encHeader : Str)
    (c : DecodedCollect) : Except ReadFileBodyError ReadFileLinesResult :=
  if c.lastLineNo < spec.startLine ∧ c.collected.isEmpty then .error (startBeyondEnd spec)
  else if c.collected.isEmpty then .error (noLineRead spec)
  else .ok (linesResult display encHeader spec c.collected c.hasMore)

variable {σ : Type} (newDecoder : Encoding → σ) (decode : Decode σ) (spare : ℕ → ℕ)
  (guess : FileBytes → Encoding)

/-- None when the rounds of the decoder run out. -/
def readFileDecodedLines (display : Str) (hint : TextEncodingName) (spec : ReadFileLinesSpec)
    (encHeader : Str) (rounds : ℕ) (head : FileBytes) (reads : List (Except Str ReadChunk)) :
    Option (Except ReadFileBodyError ReadFileLinesResult) :=
  match (resolveTextEncoding guess head hint).1 with
  | .decoder _ _ =>
    match forEachDecodedLineFromFileWithHead newDecoder decode spare guess
        (decodedLineCollectFlow spec) rounds head reads hint ⟨0, [], false⟩ with
    | .error .outOfRounds => none
    | .error (.failed e) => some (.error (readFileBodyErrorFromPipelineString e))
    | .ok ((_, c), _) => some (finalizeDecodedLineCollection display spec encHeader c)
  | _ => some (.error (.internal "内部错误：read_file_decoded_lines 需要解码器路径".toList))

/-- The bytes looked at for the encoding. -/
def sniffHeadBytes (bytes : FileBytes) : TextEncodingName → FileBytes
  | .utf8 => []
  | .utf8Sig => bytes.take 3
  | _ => bytes.take sniffMaxBytes

def readFileSpec (req : PageRequest) (totalLines : Option ℕ) : ReadFileLinesSpec :=
  let (endLine, truncatedByMax) := resolveReadEndLine req.startLine req.endLineOpt req.maxLines
  ⟨req.startLine, endLine, req.maxLines, totalLines, truncatedByMax⟩

def readFileBuildEmptyResponse (display : Str) : ReadFileLinesResult :=
  ⟨"文件为空: ".toList ++ display, 0, 0, false⟩

/-- One call of `read_file` on a file that the reads give in chunks behind its first bytes. -/
def readFile (display : Str) (hint : TextEncodingName) (req : PageRequest) (totalLines : Option ℕ)
    (rounds : ℕ) (bytes : FileBytes) (reads : List (Except Str ReadChunk)) :
    Option (Except ReadFileBodyError ReadFileLinesResult) :=
  if bytes = [] then some (.ok (readFileBuildEmptyResponse display))
  else
    let head := sniffHeadBytes bytes hint
    let (resolved, note) := resolveTextEncoding guess head hint
    let spec := readFileSpec req totalLines
    let encHeader := formatEncodingHeader note
    match resolved with
    | .utf8Strict => some (readFileUtf8Lines display spec 0 encHeader bytes)
    | .utf8Sig skip => some (readFileUtf8Lines display spec skip encHeader bytes)
    | .decoder _ _ =>
      readFileDecodedLines newDecoder decode spare guess display hint spec encHeader rounds head
        reads

end DecodedLines

end CrabMate
