import CrabMate.Llm.ToolResponses
import CrabMate.Tools.Envelope

/-! The rows of a request to the upstream, made from the rows of a session: private rows go,
reasoning and skill names are stripped, missing tool results are put in, adjacent assistant rows
become one, and for some upstreams the system rows are folded into the user rows behind them. -/
namespace CrabMate
open RustStr

section Stripping

def Message.isChatUiSeparator (m : Message) : Bool :=
  m.role == "system" && m.name == some "crabmate_ui_sep"

def Message.isExcludedFromLlmContextExceptMemory (m : Message) : Bool :=
  m.isChatUiSeparator || m.isChatTimelineMarker || m.isModelContextArtifactMarker

def Message.sentToModel (m : Message) : Bool :=
  !m.isExcludedFromLlmContextExceptMemory && !m.isLongTermMemoryInjection &&
    !m.isWorkspaceChangelistInjection

/-- The texts of the reasoning details, one behind the other. -/
def detailsText (details : List JsonValue) : String :=
  String.join (details.filterMap fun d => (d.get? "text").bind (·.asStr?))

def mergeReasoningDetailsIntoReasoningContent (m : Message) : Message :=
  match m.reasoningDetails with
  | none => m
  | some details =>
    let fromDetails := detailsText details
    let replace := match m.reasoningContent with
      | none => true
      | some rc => rc.isEmpty ||
          (startsWith rc.toList fromDetails.toList && rc.utf8ByteSize ≤ fromDetails.utf8ByteSize)
    { m with
      reasoningDetails := none
      reasoningContent :=
        if !fromDetails.isEmpty && replace then some fromDetails else m.reasoningContent }

/-- Only an assistant row with tool calls may keep its reasoning. -/
def messageCloneStrippingReasoningForApi (preserveReasoning preserveDeepseek : Bool)
    (m : Message) : Message :=
  if (preserveReasoning || preserveDeepseek) && m.callsTools then
    let x := mergeReasoningDetailsIntoReasoningContent m
    { x with reasoningDetails := none, reasoningContent := some (x.reasoningContent.getD "") }
  else { m with reasoningContent := none, reasoningDetails := none }

def reservedSlashHeads : List String :=
  ["?", "agent", "api-base", "api-key", "apikey", "apibase", "branch", "btw", "cd", "clear",
    "config", "conv", "doctor", "export", "help", "mcp", "model", "models", "probe",
    "save-session", "skill", "skills", "tools", "version", "workspace"]

def isReservedSlashHead (head : Str) : Bool :=
  reservedSlashHeads.any fun word => toAsciiLowercase head = word.toList

def looksLikeSkillId (head : Str) : Bool :=
  !head.isEmpty && head.all fun c => c.isAlphanum || c == '_' || c == '-'

def stripExplicitSkillSlashPrefixForModel (raw : String) : String :=
  match stripPrefix? ['/'] (trim raw.toList) with
  | none => raw
  | some rest =>
    let rest := trimStart rest
    let head := rest.takeWhile fun c => !isWhitespace c
    let task := trim (rest.drop (head.length + 1))
    if head.isEmpty || isReservedSlashHead head || !looksLikeSkillId head then raw
    else if task.isEmpty then "请按该技能执行。"
    else String.ofList task

/-- The text of a part of type `text`. -/
def textPart? (part : JsonValue) : Option String :=
  if (part.get? "type").bind (·.asStr?) = some "text" then (part.get? "text").bind (·.asStr?)
  else none

/-- The first text part with its text changed. -/
def mapFirstTextPart (f : String → String) : List JsonValue → List JsonValue
  | [] => []
  | part :: parts =>
    match textPart? part with
    | some t => part.set "text" (.str (f t)) :: parts
    | none => part :: mapFirstTextPart f parts

def stripUserSkillSlashInMessageForApi (m : Message) : Message :=
  if !roleIs "user" m || m.isServerInjectedUserMessage then m
  else
    match m.content with
    | some (.text s) =>
      { m with content := some (.text (stripExplicitSkillSlashPrefixForModel s)) }
    | some (.parts parts) =>
      let parts := mapFirstTextPart stripExplicitSkillSlashPrefixForModel parts
      { m with content := some (.parts parts) }
    | none => m

def messagesForApiStrippingReasoningSkipUiSeparators (preserveReasoning preserveDeepseek : Bool)
    (messages : List Message) : List Message :=
  (messages.filter Message.sentToModel).map fun m =>
    stripUserSkillSlashInMessageForApi
      (messageCloneStrippingReasoningForApi preserveReasoning preserveDeepseek m)

end Stripping

section Merging

/-- The text of a content, trimmed. -/
def trimmedText (content : Option MessageContent) : Str :=
  ((messageContentAsStr content).map fun s => trim s.toList).getD []

def messageContentIsEffectivelyEmpty (m : Message) : Bool :=
  match m.content with
  | none => true
  | some (.text s) => (trim s.toList).isEmpty
  | some (.parts parts) => parts.isEmpty

def mergeAdjacentAssistantText (into other : Message) : Message :=
  let a := trimmedText into.content
  let b := trimmedText other.content
  { into with content :=
      if a.isEmpty && b.isEmpty then none
      else if b.isEmpty then into.content
      else if a.isEmpty then other.content
      else if startsWith a b then other.content
      else if startsWith b a then into.content
      else some (.text (String.ofList (a ++ "\n\n".toList ++ b))) }

/-- Two adjacent assistant rows as one. Calls of the first row stay only when the second calls
too. -/
def squashConsecutiveAssistantPair (into other : Message) : Message :=
  if into.hasNonEmptyToolCalls then
    if other.hasNonEmptyToolCalls then
      { mergeAdjacentAssistantText into other with toolCalls := some (into.calls ++ other.calls) }
    else if messageContentIsEffectivelyEmpty other then { into with toolCalls := none }
    else mergeAdjacentAssistantText { into with toolCalls := none } other
  else if other.hasNonEmptyToolCalls then
    { mergeAdjacentAssistantText into other with toolCalls := other.toolCalls }
  else mergeAdjacentAssistantText into other

/-- The scan from a row on. The source steps back after each merge and scans until nothing merges;
in front of the row there is nothing left to merge, so one scan does it. -/
def mergeFrom (m : Message) : List Message → List Message
  | [] => [m]
  | next :: rest =>
    if roleIs "assistant" m && roleIs "assistant" next then
      mergeFrom (squashConsecutiveAssistantPair { m with role := "assistant" } next) rest
    else m :: mergeFrom next rest

def mergeAllConsecutiveAssistantMessages : List Message → List Message
  | [] => []
  | m :: rest => mergeFrom m rest

/-- An assistant row the upstream does not take: no content and no calls. -/
def assistantLacksOpenaiContentAndToolCalls (m : Message) : Bool :=
  roleIs "assistant" m && !m.hasNonEmptyToolCalls &&
    match messageContentAsStr m.content with
    | some s => (trim s.toList).isEmpty
    | none => messageContentIsEffectivelyEmpty m

def removeAllAssistantsLackingContent (messages : List Message) : List Message :=
  messages.filter fun m => !assistantLacksOpenaiContentAndToolCalls m

/-- The calls of the last row have no answer and go. -/
def clearLastCalls (messages : List Message) : List Message :=
  match messages.getLast? with
  | some last =>
    if last.callsTools then messages.dropLast ++ [{ last with toolCalls := none }] else messages
  | none => messages

def normalizeMessagesForOpenaiCompatibleRequest (messages : List Message) : List Message :=
  removeAllAssistantsLackingContent <| clearLastCalls <| removeAllAssistantsLackingContent <|
    mergeAllConsecutiveAssistantMessages messages

end Merging

section Folding

def joinTexts (texts : List String) : String := String.intercalate "\n\n" texts

def mergeSystemTextPrefixIntoUserContent (m : Message) (text : String) : Message :=
  let text := trimString text
  let before (s : String) : String :=
    let u := trimString s
    if u.isEmpty then text else text ++ "\n\n" ++ u
  if text.isEmpty then m
  else
    { m with content := some <|
        match m.content with
        | none => .text text
        | some (.text s) => .text (before s)
        | some (.parts parts) =>
          match parts with
          | [] => .parts [.obj [("type", .str "text"), ("text", .str text)]]
          | part :: rest =>
            match textPart? part with
            | some t => .parts (part.set "text" (.str (before t)) :: rest)
            | none => .parts (.obj [("type", .str "text"), ("text", .str text)] :: part :: rest) }

/-- The text a system row adds to the next user row. -/
def systemText? (m : Message) : Option String :=
  (messageContentAsStr m.content).bind fun s =>
    if (trimString s).isEmpty then none else some (trimString s)

/-- The texts that wait for a row behind them. -/
def foldPending (pending : List String) : List Message → List Message
  | [] => if pending.isEmpty then [] else [.userOnly (joinTexts pending)]
  | m :: ms =>
    if roleIs "system" m then foldPending (pending ++ (systemText? m).toList) ms
    else if roleIs "user" m then
      (if pending.isEmpty then m else mergeSystemTextPrefixIntoUserContent m (joinTexts pending)) ::
        foldPending [] ms
    else
      (if pending.isEmpty then [] else [.userOnly (joinTexts pending)]) ++ m :: foldPending [] ms

def foldSystemMessagesIntoFollowingUser (messages : List Message) : List Message :=
  foldPending [] messages

end Folding

section Arguments

/-- A control character as a JSON string writes it. -/
def escapeControl (c : Char) : Str :=
  if c = '\n' then ['\\', 'n']
  else if c = '\r' then ['\\', 'r']
  else if c = '\t' then ['\\', 't']
  else if c.toNat < 0x20 then
    ['\\', 'u', '0', '0', hexDigit (c.toNat / 16), hexDigit (c.toNat % 16)]
  else [c]

def escapeRawControlsFrom (inString escape : Bool) : Str → Str
  | [] => []
  | c :: s =>
    if escape then c :: escapeRawControlsFrom inString false s
    else if inString then
      if c = '\\' then '\\' :: escapeRawControlsFrom true true s
      else if c = '"' then '"' :: escapeRawControlsFrom false false s
      else escapeControl c ++ escapeRawControlsFrom true false s
    else c :: escapeRawControlsFrom (c = '"') false s

def escapeRawControlsInsideJsonStringRegions (t : Str) : Str := escapeRawControlsFrom false false t

/-- The scan for an open string: the depth of the braces, and whether it ends in a string and
behind a backslash. -/
structure BraceScan where
  braceDepth : Int
  inString : Bool
  escape : Bool

def BraceScan.step (scan : BraceScan) (c : Char) : BraceScan :=
  if scan.escape then { scan with escape := false }
  else if scan.inString then
    if c = '\\' then { scan with escape := true }
    else if c = '"' then { scan with inString := false }
    else scan
  else if c = '"' then { scan with inString := true }
  else if c = '\x7b' then { scan with braceDepth := scan.braceDepth + 1 }
  else if c = '\x7d' then { scan with braceDepth := scan.braceDepth - 1 }
  else scan

variable (serde : ToolJson)

def tryRepairTruncatedToolArgumentsJson (t : Str) : Option Str :=
  if startsWith ['\x7b'] t then
    let scan := t.foldl BraceScan.step ⟨0, false, false⟩
    if !scan.inString || scan.escape then none
    else
      (serde.fromStr (t ++ '"' :: List.replicate scan.braceDepth.toNat '\x7d')).map serde.toStr
  else none

def repairToolCallArgumentsJson (arguments : Str) : Option Str :=
  let t := trim arguments
  let escaped := escapeRawControlsInsideJsonStringRegions t
  if t.isEmpty then none
  else
    (((serde.fromStr t).map serde.toStr).or ((serde.fromStr escaped).map serde.toStr)).or
      ((tryRepairTruncatedToolArgumentsJson serde escaped).or
        (tryRepairTruncatedToolArgumentsJson serde t))

/-- What a tool is run with: a text that cannot be repaired stays, for the tool to refuse it. -/
def prepareToolCallArgumentsForLocalExecution (arguments : Str) : Str :=
  (repairToolCallArgumentsJson serde arguments).getD
    (if (trim arguments).isEmpty then "\x7b\x7d".toList else trim arguments)

def sanitizeToolCallArgumentsForOpenaiCompat (arguments : String) : String :=
  String.ofList ((repairToolCallArgumentsJson serde arguments.toList).getD "\x7b\x7d".toList)

def sanitizeCall (call : ToolCall) : ToolCall :=
  { call with function := { call.function with
      arguments := sanitizeToolCallArgumentsForOpenaiCompat serde call.function.arguments } }

def sanitizeAssistantToolCallArguments (m : Message) : Message :=
  if roleIs "assistant" m then { m with toolCalls := m.toolCalls.map (·.map (sanitizeCall serde)) }
  else m

end Arguments

section Body

def vendorMissingToolResultPlaceholder : String :=
  "该工具调用在会话历史中没有结果（可能因生成被中断或历史被裁剪），未执行完成，无结果。"

def conversationMessagesToVendorBody (serde : ToolJson) (messages : List Message)
    (foldSystemIntoUser preserveReasoning preserveDeepseek : Bool) : List Message :=
  let stripped :=
    messagesForApiStrippingReasoningSkipUiSeparators preserveReasoning preserveDeepseek messages
  let completed := completeMissingToolResponses vendorMissingToolResultPlaceholder stripped
  let normal := normalizeMessagesForOpenaiCompatibleRequest completed
  let folded := if foldSystemIntoUser then foldSystemMessagesIntoFollowingUser normal else normal
  folded.map (sanitizeAssistantToolCallArguments serde)

end Body
end CrabMate
