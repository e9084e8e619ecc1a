import CrabMate.Lib.Json
import CrabMate.Lib.Str

/-! What the text of a tool result says about the call: success, exit code, the two streams and
the error code. -/
namespace CrabMate
open RustStr

/-- The exit codes are those of `i32`. -/
def parseI32? (s : Str) : Option Int :=
  let unsigned (t : Str) : Option Int :=
    if t.isEmpty || t.any fun c => !c.isDigit then none
    else some (t.foldl (fun n c => n * 10 + (c.toNat - 48 : ℕ)) 0)
  let value := match s with
    | '-' :: t => (unsigned t).map fun n => -n
    | '+' :: t => unsigned t
    | t => unsigned t
  value.filter fun n => -2147483648 ≤ n && n ≤ 2147483647

/-- Skips the echoed command, up to its first line break. -/
def stripLeadingCommandInvocationLine (output : Str) : Str :=
  let s := trimStart output
  match splitOnce? ['\n'] s with
  | none => s
  | some (first, rest) => if startsWith "命令：".toList (trim first) then trimStart rest else s

def parseExitCode (firstLine : Str) : Option Int :=
  match stripPrefix? "退出码：".toList firstLine with
  | some rest => parseI32? (trim rest)
  | none =>
    ((splitOnce? "(exit=".toList firstLine).bind fun parts => splitOnce? [')'] parts.2).bind
      fun parts => parseI32? (trim parts.1)

def isStreamMarker (line : Str) : Bool :=
  line = "标准输出：".toList || line = "标准错误：".toList

/-- The exit code before the first stream marker; none without a marker. -/
def exitCodeInHeaderLines : List Str → Option Int → Option Int
  | [], _ => none
  | line :: rest, found =>
    if isStreamMarker (trim line) then found
    else exitCodeInHeaderLines rest (found.or (parseExitCode (trim line)))

def exitCodeInHeaderRegion (output : Str) : Option Int := exitCodeInHeaderLines (lines output) none

def looksLikeFailure (firstLine : Str) : Bool :=
  !firstLine.isEmpty &&
    (startsWith "错误".toList firstLine || startsWith "未知工具".toList firstLine ||
      startsWith "参数解析错误".toList firstLine || startsWith "执行失败".toList firstLine ||
      contains "失败".toList firstLine || contains "超时".toList firstLine)

def extractStreams (output : Str) : Str × Str :=
  let stderrMarker := "标准错误：\n".toList
  let stdout := match splitOnce? "标准输出：\n".toList output with
    | none => []
    | some (_, rest) => trim (((splitOnce? stderrMarker rest).map Prod.fst).getD rest)
  let stderr := match splitOnce? stderrMarker output with
    | none => []
    | some (_, rest) => trim rest
  (stdout, stderr)

/-- The fields of a result's header line that are read back. -/
structure ToolOutputMeta where
  ok : Option Bool
  errorCode : Option Str
  preview : Option Str

/-- A field of a header: absent and `null` are none, another type is an error, as is a field that
is given twice. -/
def metaField {α : Type} (read : JsonValue → Option α) (fields : List (String × JsonValue))
    (name : String) : Option (Option α) :=
  match fields.filter fun f => f.1 == name with
  | [] => some none
  | [(_, .null)] => some none
  | [(_, v)] => (read v).map some
  | _ => none

def metaText (v : JsonValue) : Option Str := v.asStr?.map String.toList

/-- The fields of a header: by name in an object, by position in an array. -/
def metaFields : JsonValue → Option (List (String × JsonValue))
  | .obj fields => some fields
  | .arr xs =>
    if xs.length ≤ 5 then some (["kind", "tool", "ok", "error_code", "preview"].zip xs) else none
  | _ => none

/-- `CrabmateToolOutputMeta::parse_line`. -/
def ToolOutputMeta.parseLine (fromStr : Str → Option JsonValue) (first : Str) :
    Option ToolOutputMeta :=
  ((fromStr first).bind metaFields).bind fun fields => do
    let kind ← (← metaField metaText fields "kind")
    let _ ← metaField metaText fields "tool"
    let ok ← metaField JsonValue.asBool? fields "ok"
    let errorCode ← metaField metaText fields "error_code"
    let preview ← metaField metaText fields "preview"
    if kind = "crabmate_tool_output".toList then some ⟨ok, errorCode, preview⟩ else none

def bodyAfterHeaderLooksLikeFailure (body : Str) : Bool :=
  ((lines body).drop 1).any fun l => looksLikeFailure (trim l)

def structuredHeaderOutputOk (header : ToolOutputMeta) (body : Str) : Bool :=
  match header.ok with
  | some ok => ok
  | none =>
    if header.preview = some "workspace_write_diff".toList then
      !bodyAfterHeaderLooksLikeFailure body
    else true

def extractErrorCodeMarker (firstLine : Str) : Option Str :=
  ((stripPrefix? "错误[".toList firstLine).bind (splitOnce? [']'])).bind fun parts =>
    if parts.1.isEmpty || parts.1.any fun c => !(c.isLower || c.isDigit || c = '_') then none
    else some parts.1

/-- The texts that name an error by what the first line contains, in the order of the checks. -/
def errorCodeTexts : List (String × String) :=
  [("检测到同命令重复失败", "repeated_tool_failure_short_circuit"),
    ("检测到同类失败已发生", "repeated_tool_family_failure_short_circuit"),
    ("参数解析错误", "invalid_args"), ("校验失败（", "write_precheck_failed"),
    ("参数与工具 JSON Schema", "invalid_args"), ("不允许的命令", "command_not_allowed"),
    ("未设置工作区", "workspace_not_set"), ("超时", "timeout")]

def classifyErrorCode (firstLine toolName : Str) : Str :=
  match extractErrorCodeMarker firstLine with
  | some code => code
  | none =>
    match errorCodeTexts.find? fun t => contains t.1.toList firstLine with
    | some t => t.2.toList
    | none =>
      if startsWith "未知工具".toList firstLine then "unknown_tool".toList
      else toolName ++ "_failed".toList

structure ParsedToolOutput where
  ok : Bool
  exitCode : Option Int
  stdout : Str
  stderr : Str
  errorCode : Option Str

def parseToolOutput (fromStr : Str → Option JsonValue) (toolName output : Str) :
    ParsedToolOutput :=
  let body := stripLeadingCommandInvocationLine output
  let first := trim ((lines body).head?.getD [])
  let exitCode := (parseExitCode first).or (exitCodeInHeaderRegion output)
  let header := ToolOutputMeta.parseLine fromStr first
  let ok := match header with
    | some header => structuredHeaderOutputOk header body
    | none =>
      if contains "\"kind\":\"crabmate_tool_output\"".toList first then
        !bodyAfterHeaderLooksLikeFailure body
      else
        match exitCode with
        | some code => code = 0
        | none => !looksLikeFailure first
  let errorCode := if ok then none else
    ((header.bind fun h => h.errorCode).filter fun code => !code.isEmpty).or
      (some (classifyErrorCode first toolName))
  ⟨ok, exitCode, (extractStreams output).1, (extractStreams output).2, errorCode⟩

example : (parseToolOutput (fun _ => none) "run_command".toList
    "命令：make\n退出码：2\n标准错误：\nNo rule".toList).exitCode = some 2 := by decide

end CrabMate
