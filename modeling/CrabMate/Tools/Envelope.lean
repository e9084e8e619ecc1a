import Mathlib
import CrabMate.Tools.ToolOutput

/-! The envelope of a tool result: a JSON object around the output of the tool, written into the
history as one line, read back field by field, and shortened when the output is too long. -/
namespace CrabMate
open RustStr JsonValue Option

section Categories

inductive ToolFailureCategory where
  | invalidInput
  | policyDenied
  | workspace
  | timeout
  | external
  | internal
  | unknown
  deriving DecidableEq

def ToolFailureCategory.asStr : ToolFailureCategory → String
  | .invalidInput => "invalid_input"
  | .policyDenied => "policy_denied"
  | .workspace => "workspace"
  | .timeout => "timeout"
  | .external => "external"
  | .internal => "internal"
  | .unknown => "unknown"

/-- The codes with a category of their own in front of the prefix of the file reader. -/
def firstErrorCodes : List (List String × ToolFailureCategory) :=
  [(["invalid_args", "json_parse", "args_not_array", "missing_command", "unsafe_arg",
      "cd_prefix_invalid"], .invalidInput),
    (["unknown_tool"], .unknown),
    (["command_not_allowed", "command_denied", "approval_denied", "approval_required",
      "repeated_tool_failure_short_circuit", "repeated_tool_family_failure_short_circuit"],
      .policyDenied),
    (["workflow_semaphore_closed", "workflow_node_missing_result", "workflow_tool_join_error"],
      .external),
    (["workspace_not_set", "workspace_no_cargo_toml", "codebase_semantic_unconfigured",
      "git_not_a_repo"], .workspace),
    (["timeout"], .timeout),
    (["cancelled"], .timeout),
    (["http_timeout"], .timeout),
    (["http_network_error", "http_body_read_error"], .external),
    (["http_fetch_url_not_allowed", "http_request_url_not_allowed"], .policyDenied),
    (["http_client_failed"], .external),
    (["weather_api_error", "web_search_api_error"], .external),
    (["weather_city_not_found"], .invalidInput),
    (["web_search_not_configured"], .workspace),
    (["weather_client_failed", "weather_no_current_data", "web_search_client_failed",
      "web_search_browser_unavailable"], .external),
    (["rate_limited"], .policyDenied),
    (["command_not_found", "permission_denied", "spawn_failed", "cargo_spawn_failed"], .external),
    (["read_file_invalid_range", "read_file_count_total_too_large"], .invalidInput),
    (["read_file_not_file", "read_file_io", "read_file_utf8_decode", "read_file_encoding",
      "read_file_internal"], .external)]

/-- The codes behind it. -/
def laterErrorCodes : List (List String × ToolFailureCategory) :=
  [(["read_dir_path_not_dir", "glob_files_path_not_dir", "list_tree_path_not_dir",
      "read_binary_meta_path_not_file"], .invalidInput),
    (["read_dir_sensitive_path"], .policyDenied),
    (["code_nav_path_absolute_not_allowed", "code_nav_path_parent_not_allowed",
      "code_nav_path_outside_workspace"], .policyDenied),
    (["code_nav_path_not_file", "code_nav_path_not_rust_file"], .invalidInput),
    (["code_nav_workspace_resolve_failed"], .workspace),
    (["code_nav_search_failed", "code_nav_read_failed"], .external),
    (["code_nav_regex_failed"], .internal),
    (["codebase_semantic_workspace_resolve_failed", "codebase_semantic_requires_fastembed"],
      .workspace),
    (["codebase_semantic_index_failed"], .external),
    (["python_snippet_temp_path_outside_workspace"], .policyDenied),
    (["read_dir_workspace_resolve_failed", "glob_files_workspace_resolve_failed",
      "glob_files_workspace_root_resolve_failed", "list_tree_workspace_resolve_failed",
      "list_tree_workspace_root_resolve_failed", "read_binary_meta_workspace_resolve_failed"],
      .workspace),
    (["read_dir_io_failed", "glob_files_io_failed", "list_tree_io_failed",
      "read_binary_meta_io_failed"], .external),
    (["write_precheck_failed"], .invalidInput),
    (["search_in_files_invalid_regex", "search_in_files_invalid_glob",
      "regex_test_invalid_regex"], .invalidInput),
    (["search_in_files_workspace_base_resolve_failed",
      "search_in_files_workspace_subpath_resolve_failed",
      "search_in_files_workspace_outside_root", "search_in_files_path_absolute_not_allowed",
      "markdown_check_links_workspace_failed", "structured_diff_path_a_resolve_failed",
      "structured_diff_path_b_resolve_failed", "tool_context_incomplete"], .workspace),
    (["text_diff_io_failed", "table_text_io_failed", "table_text_parse_failed",
      "markdown_check_links_failed", "structured_io_failed", "structured_parse_failed",
      "structured_patch_write_failed", "structured_patch_parse_failed",
      "structured_patch_serialize_failed"], .external),
    (["archive_not_found", "archive_pack_failed", "archive_unpack_failed", "archive_list_failed"],
      .external),
    (["rust_analyzer_file_not_found", "rust_analyzer_read_failed", "rust_analyzer_spawn_failed",
      "rust_analyzer_lsp_failed"], .external),
    (["rust_analyzer_workspace_resolve_failed"], .workspace),
    (["reminder_not_found", "event_not_found"], .invalidInput),
    (["schedule_io_failed", "schedule_parse_failed"], .external)]

def endsWith (suffix s : Str) : Bool := suffix.isSuffixOf s

def failureCategoryForErrorCode (code : Str) : ToolFailureCategory :=
  let listed (table : List (List String × ToolFailureCategory)) : Option ToolFailureCategory :=
    (table.find? fun row => row.1.contains (String.ofList code)).map Prod.snd
  match listed firstErrorCodes with
  | some category => category
  | none =>
    if startsWith "read_file_workspace_".toList code then .workspace
    else
      match listed laterErrorCodes with
      | some category => category
      | none =>
        if endsWith "_serialize_failed".toList code || endsWith "_internal".toList code then
          .internal
        else if endsWith "_failed".toList code then .external
        else .unknown

def toolErrorRetryableHeuristic (errorCode : Option Str) : Bool :=
  ["timeout", "http_timeout", "rate_limited", "workflow_tool_join_error",
    "workflow_semaphore_closed", "workflow_node_missing_result"].any fun code =>
      errorCode = some code.toList

end Categories

section Model

structure ToolEnvelopeContext where
  toolCallId : Str
  executionMode : Str
  parallelBatchId : Option Str

structure NormalizedToolEnvelope where
  envelopeVersion : UInt32
  name : Str
  summary : Str
  output : Str
  ok : Bool
  exitCode : Option Int32
  errorCode : Option Str
  failureCategory : Option Str
  retryable : Option Bool
  toolCallId : Option Str
  executionMode : Option Str
  parallelBatchId : Option Str
  outputTruncated : Bool
  outputOriginalChars : Option UInt64
  outputKeptHeadChars : Option UInt64
  outputKeptTailChars : Option UInt64
  structuredPayload : Option JsonValue
  deriving DecidableEq

def crabmateToolEnvelopeVersionV1 : UInt32 := 1

/-- The category that is derived from the error code of a failure. -/
def derivedCategory (ok : Bool) (errorCode : Option Str) : Option Str :=
  if ok then none
  else errorCode.map fun code => (failureCategoryForErrorCode code).asStr.toList

/-- The JSON reader and printer. -/
structure ToolJson where
  fromStr : Str → Option JsonValue
  toStr : JsonValue → Str

namespace NormalizedToolEnvelope

def fromToolRun (toolName summary : Str) (parsed : ParsedToolOutput) (rawOutput : Str)
    (envelopeCtx : Option ToolEnvelopeContext) (structuredPayload : Option JsonValue) :
    NormalizedToolEnvelope where
  envelopeVersion := crabmateToolEnvelopeVersionV1
  name := toolName
  summary := summary
  output := rawOutput
  ok := parsed.ok
  exitCode := parsed.exitCode.map Int32.ofInt
  errorCode := parsed.errorCode
  failureCategory := derivedCategory parsed.ok parsed.errorCode
  retryable := if parsed.ok then none else some (toolErrorRetryableHeuristic parsed.errorCode)
  toolCallId := envelopeCtx.map (·.toolCallId)
  executionMode := envelopeCtx.map (·.executionMode)
  parallelBatchId := envelopeCtx.bind (·.parallelBatchId)
  outputTruncated := false
  outputOriginalChars := none
  outputKeptHeadChars := none
  outputKeptTailChars := none
  structuredPayload := structuredPayload

def textField (ct : JsonValue) (key : String) : Option Str :=
  ((ct.get? key).bind (·.asStr?)).map String.toList

def boolField (ct : JsonValue) (key : String) : Option Bool := (ct.get? key).bind (·.asBool?)

def u64Field (ct : JsonValue) (key : String) : Option UInt64 :=
  ((ct.get? key).bind (·.asU64?)).map UInt64.ofNat

/-- Without an `ok` of its own the envelope takes the one the output is parsed to. -/
def fromCrabmateObject (serde : ToolJson) (ct : JsonValue) : Option NormalizedToolEnvelope :=
  (textField ct "name").bind fun name => (textField ct "output").map fun output =>
    let ok := (boolField ct "ok").getD (parseToolOutput serde.fromStr name output).ok
    let errorCode := textField ct "error_code"
    { envelopeVersion := (((ct.get? "v").bind (·.asU64?)).map UInt32.ofNat).getD
        crabmateToolEnvelopeVersionV1
      name := name
      summary := (textField ct "summary").getD []
      output := output
      ok := ok
      exitCode := ((ct.get? "exit_code").bind (·.asI64?)).map Int32.ofInt
      errorCode := errorCode
      failureCategory := (textField ct "failure_category").or (derivedCategory ok errorCode)
      retryable := boolField ct "retryable"
      toolCallId := textField ct "tool_call_id"
      executionMode := textField ct "execution_mode"
      parallelBatchId := textField ct "parallel_batch_id"
      outputTruncated := boolField ct "output_truncated" = some true
      outputOriginalChars := u64Field ct "output_original_chars"
      outputKeptHeadChars := u64Field ct "output_kept_head_chars"
      outputKeptTailChars := u64Field ct "output_kept_tail_chars"
      structuredPayload := ct.get? "structured_payload" }

/-- The object below `crabmate_tool`, if the text is such an envelope. -/
def parseToolMessageContent (serde : ToolJson) (content : Str) : Option NormalizedToolEnvelope :=
  ((serde.fromStr (trim content)).bind (·.get? "crabmate_tool")).bind fun ct =>
    match ct with
    | .obj _ => fromCrabmateObject serde ct
    | _ => none

def text (s : Str) : JsonValue := .str (String.ofList s)

def numU64 (n : UInt64) : JsonValue := .num n.toNat.repr

/-- A field that is written when there is a value for it. -/
def insertOpt {α : Type} (key : String) (toJson : α → JsonValue) (v : Option α) :
    List (String × JsonValue) :=
  (v.map fun a => (key, toJson a)).toList

/-- The fields, in the order of their keys. -/
def toCrabmateToolMap (env : NormalizedToolEnvelope) : JsonValue :=
  .obj (insertOpt "error_code" text env.errorCode ++
    insertOpt "execution_mode" text env.executionMode ++
    insertOpt "exit_code" (fun n => .num n.toInt.repr) env.exitCode ++
    insertOpt "failure_category" text env.failureCategory ++
    [("name", text env.name), ("ok", .bool env.ok), ("output", text env.output)] ++
    insertOpt "output_kept_head_chars" numU64 env.outputKeptHeadChars ++
    insertOpt "output_kept_tail_chars" numU64 env.outputKeptTailChars ++
    insertOpt "output_original_chars" numU64 env.outputOriginalChars ++
    (if env.outputTruncated then [("output_truncated", .bool true)] else []) ++
    insertOpt "parallel_batch_id" text env.parallelBatchId ++
    insertOpt "retryable" .bool env.retryable ++
    insertOpt "structured_payload" id env.structuredPayload ++
    [("summary", text env.summary)] ++
    insertOpt "tool_call_id" text env.toolCallId ++
    [("v", .num env.envelopeVersion.toNat.repr)])

def toRoot (env : NormalizedToolEnvelope) : JsonValue :=
  .obj [("crabmate_tool", env.toCrabmateToolMap)]

def encodeToMessageLine (serde : ToolJson) (env : NormalizedToolEnvelope) : Str :=
  serde.toStr env.toRoot

end NormalizedToolEnvelope

end Model

namespace NormalizedToolEnvelope

section RoundTrip

variable {env : NormalizedToolEnvelope} {serde : ToolJson}

theorem get?_insertOpt {α : Type} (key k : String) (toJson : α → JsonValue) (v : Option α) :
    get? key (.obj (insertOpt k toJson v)) = if k = key then v.map toJson else none :=
  get?_obj_toList key k v toJson

/-- A field of the envelope, by its key. -/
theorem get?_toCrabmateToolMap (env : NormalizedToolEnvelope) (key : String) :
    env.toCrabmateToolMap.get? key =
      ((if "v" = key then some (.num env.envelopeVersion.toNat.repr) else none).or <|
      (if "tool_call_id" = key then env.toolCallId.map text else none).or <|
      (if "summary" = key then some (text env.summary) else none).or <|
      (if "structured_payload" = key then env.structuredPayload else none).or <|
      (if "retryable" = key then env.retryable.map .bool else none).or <|
      (if "parallel_batch_id" = key then env.parallelBatchId.map text else none).or <|
      (if env.outputTruncated = true ∧ "output_truncated" = key then some (.bool true)
        else none).or <|
      (if "output_original_chars" = key then env.outputOriginalChars.map numU64 else none).or <|
      (if "output_kept_tail_chars" = key then env.outputKeptTailChars.map numU64 else none).or <|
      (if "output_kept_head_chars" = key then env.outputKeptHeadChars.map numU64 else none).or <|
      (if "output" = key then some (text env.output) else none).or <|
      (if "ok" = key then some (.bool env.ok) else none).or <|
      (if "name" = key then some (text env.name) else none).or <|
      (if "failure_category" = key then env.failureCategory.map text else none).or <|
      (if "exit_code" = key then env.exitCode.map (fun n => .num n.toInt.repr) else none).or <|
      (if "execution_mode" = key then env.executionMode.map text else none).or <|
      if "error_code" = key then env.errorCode.map text else none) := by
  simp only [toCrabmateToolMap, get?_obj_append, get?_insertOpt, get?_obj_cons, get?_obj_nil,
    get?_obj_ite, none_or, Option.or_assoc, map_id_fun, id_eq]

theorem asU64?_numU64 (n : UInt64) : (numU64 n).asU64? = some n.toNat := by
  simp [numU64, asU64?, n.toNat_lt]

theorem asI64?_num (n : Int32) : (JsonValue.num n.toInt.repr).asI64? = some n.toInt := by
  have hlow := n.le_toInt
  have hhigh := n.toInt_lt
  simp only [asI64?, Int.toInt?_repr, filter_some]
  rw [if_pos]
  simp only [decide_eq_true_eq]
  omega

/-- A failure with an error code has a category. -/
def Categorised (env : NormalizedToolEnvelope) : Prop :=
  env.failureCategory = none → derivedCategory env.ok env.errorCode = none

theorem textField_map {ct : JsonValue} {key : String} {v : Option Str}
    (h : ct.get? key = v.map text) : textField ct key = v := by
  rw [textField, h]
  cases v with
  | none => rfl
  | some s => simp [text, asStr?]

theorem u64Field_map {ct : JsonValue} {key : String} {v : Option UInt64}
    (h : ct.get? key = v.map numU64) : u64Field ct key = v := by
  rw [u64Field, h]
  cases v with
  | none => rfl
  | some n => simp [asU64?_numU64]

theorem textField_toCrabmateToolMap (env : NormalizedToolEnvelope) :
    let ct := env.toCrabmateToolMap
    textField ct "name" = some env.name ∧ textField ct "output" = some env.output ∧
      textField ct "summary" = some env.summary ∧ textField ct "error_code" = env.errorCode ∧
      textField ct "failure_category" = env.failureCategory ∧
      textField ct "tool_call_id" = env.toolCallId ∧
      textField ct "execution_mode" = env.executionMode ∧
      textField ct "parallel_batch_id" = env.parallelBatchId := by
  refine ⟨textField_map ?_, textField_map ?_, textField_map ?_, textField_map ?_,
    textField_map ?_, textField_map ?_, textField_map ?_, textField_map ?_⟩ <;>
    simp [get?_toCrabmateToolMap]

theorem u64Field_toCrabmateToolMap (env : NormalizedToolEnvelope) :
    let ct := env.toCrabmateToolMap
    u64Field ct "output_original_chars" = env.outputOriginalChars ∧
      u64Field ct "output_kept_head_chars" = env.outputKeptHeadChars ∧
      u64Field ct "output_kept_tail_chars" = env.outputKeptTailChars := by
  refine ⟨u64Field_map ?_, u64Field_map ?_, u64Field_map ?_⟩ <;> simp [get?_toCrabmateToolMap]

theorem boolField_toCrabmateToolMap (env : NormalizedToolEnvelope) :
    let ct := env.toCrabmateToolMap
    boolField ct "ok" = some env.ok ∧ boolField ct "retryable" = env.retryable ∧
      decide (boolField ct "output_truncated" = some true) = env.outputTruncated := by
  refine ⟨?_, ?_, ?_⟩
  · simp [boolField, get?_toCrabmateToolMap, asBool?]
  · cases hretry : env.retryable <;> simp [boolField, get?_toCrabmateToolMap, asBool?, hretry]
  · cases htrunc : env.outputTruncated <;>
      simp [boolField, get?_toCrabmateToolMap, asBool?, htrunc]

theorem fromCrabmateObject_toCrabmateToolMap (h : env.Categorised) :
    fromCrabmateObject serde env.toCrabmateToolMap = some env := by
  obtain ⟨hname, houtput, hsummary, herror, hcategory, hid, hmode, hbatch⟩ :=
    textField_toCrabmateToolMap env
  obtain ⟨horiginal, hhead, htail⟩ := u64Field_toCrabmateToolMap env
  obtain ⟨hok, hretryable, htruncated⟩ := boolField_toCrabmateToolMap env
  have hversion : (((env.toCrabmateToolMap.get? "v").bind (·.asU64?)).map UInt32.ofNat).getD
      crabmateToolEnvelopeVersionV1 = env.envelopeVersion := by
    have hlt : env.envelopeVersion.toNat < UInt64.size :=
      lt_trans env.envelopeVersion.toNat_lt (by decide)
    have hread : (JsonValue.num env.envelopeVersion.toNat.repr).asU64? =
        some env.envelopeVersion.toNat := by
      rw [asU64?, Nat.toNat?_repr, filter_some, if_pos (decide_eq_true hlt)]
    simp [get?_toCrabmateToolMap, hread]
  have hexit : ((env.toCrabmateToolMap.get? "exit_code").bind (·.asI64?)).map Int32.ofInt =
      env.exitCode := by
    cases hcode : env.exitCode with
    | none => simp [get?_toCrabmateToolMap, hcode]
    | some n => simp [get?_toCrabmateToolMap, hcode, asI64?_num]
  have hpayload : env.toCrabmateToolMap.get? "structured_payload" = env.structuredPayload := by
    simp [get?_toCrabmateToolMap]
  have hfailure : env.failureCategory.or (derivedCategory env.ok env.errorCode) =
      env.failureCategory := by
    cases hcat : env.failureCategory with
    | none => rw [h hcat]; rfl
    | some category => rfl
  simp only [fromCrabmateObject, hname, houtput, hsummary, herror, hcategory, hid, hmode, hbatch,
    horiginal, hhead, htail, hok, hretryable, htruncated, hversion, hexit, hpayload,
    bind_some, map_some, getD_some, hfailure]

/-- The printed value is a line without blanks around it and reads back as itself. -/
structure Faithful (serde : ToolJson) (v : JsonValue) : Prop where
  trimmed : trim (serde.toStr v) = serde.toStr v
  reads : serde.fromStr (serde.toStr v) = some v

theorem parse_of_reads {line : Str} (h : env.Categorised) (htrim : trim line = line)
    (hread : serde.fromStr line = some env.toRoot) :
    parseToolMessageContent serde line = some env := by
  have hobject : env.toRoot.get? "crabmate_tool" = some env.toCrabmateToolMap := by
    simp [toRoot, get?_obj_cons, get?_obj_nil]
  rw [parseToolMessageContent, htrim, hread, bind_some, hobject, bind_some]
  exact fromCrabmateObject_toCrabmateToolMap h

theorem parse_encode (h : env.Categorised) (hserde : Faithful serde env.toRoot) :
    parseToolMessageContent serde (env.encodeToMessageLine serde) = some env :=
  parse_of_reads h hserde.trimmed hserde.reads

/-- The envelope of a tool result is read back as it was written. -/
theorem tool_envelope_round_trip (serde : ToolJson) (toolName summary : Str)
    (parsed : ParsedToolOutput) (rawOutput : Str) (envelopeCtx : Option ToolEnvelopeContext)
    (structuredPayload : Option JsonValue)
    (hserde : Faithful serde
      (fromToolRun toolName summary parsed rawOutput envelopeCtx structuredPayload).toRoot) :
    let env := fromToolRun toolName summary parsed rawOutput envelopeCtx structuredPayload
    parseToolMessageContent serde (env.encodeToMessageLine serde) = some env :=
  parse_encode (fun h => h) hserde

def timedOut : ParsedToolOutput := ⟨false, none, [], [], some "timeout".toList⟩

def timedOutEnvelope : NormalizedToolEnvelope :=
  fromToolRun "run_command".toList "make".toList timedOut "错误：超时".toList none none

def timedOutLine : Str :=
  ("\x7b\"crabmate_tool\":\x7b\"error_code\":\"timeout\",\"failure_category\":\"timeout\"," ++
    "\"name\":\"run_command\",\"ok\":false,\"output\":\"错误：超时\",\"retryable\":true," ++
    "\"summary\":\"make\",\"v\":1\x7d\x7d").toList

/-- The reader and printer on one value and its line. -/
def printedAs (line : Str) (v : JsonValue) : ToolJson where
  fromStr text := if text = line then some v else none
  toStr _ := line

theorem faithful_printedAs {line : Str} (h : ∀ c ∈ line, isWhitespace c = false) (v : JsonValue) :
    Faithful (printedAs line v) v := ⟨trim_eq_self_of_forall h, if_pos rfl⟩

theorem timedOutLine_visible : ∀ c ∈ timedOutLine, isWhitespace c = false := by
  have hvisible : timedOutLine.all (fun c => !isWhitespace c) = true := by
    delta timedOutLine
    rw [String.toList_append, String.toList_append, List.all_append, List.all_append,
      String.toList_ofList]
    decide +kernel
  intro c hc
  rw [← Bool.not_eq_true']
  exact List.all_eq_true.mp hvisible c hc

theorem tool_envelope_round_trip_timedOut :
    parseToolMessageContent (printedAs timedOutLine timedOutEnvelope.toRoot)
        (timedOutEnvelope.encodeToMessageLine
          (printedAs timedOutLine timedOutEnvelope.toRoot)) = some timedOutEnvelope :=
  tool_envelope_round_trip _ "run_command".toList "make".toList timedOut "错误：超时".toList none
    none (faithful_printedAs timedOutLine_visible _)

end RoundTrip

end NormalizedToolEnvelope
end CrabMate
