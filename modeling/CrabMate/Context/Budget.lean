import CrabMate.Context.Trim
import CrabMate.Context.Rows

/-! Compaction to a token budget: the bodies of older tool results are shortened first, then
whole turn groups go, from the oldest on, until the estimate is within the target. The rows a
summary of the same turn kept are spared while the hard limit allows it. -/
namespace CrabMate
open Positions RustStr List Option

def minRecentTurnGroups : ℕ := 2

def degradeToolMaxChars : ℕ := 2000

section Config

/-- The settings the token budget is made of; the percentages as they are configured. -/
structure TokenSettings where
  llmContextTokens : ℕ
  maxTokens : ℕ
  contextTokenSafetyMarginTokens : ℕ
  contextTokenTriggerPercent : Option ℕ
  contextTokenTargetPercent : Option ℕ

def clamp (low high n : ℕ) : ℕ := max low (min n high)

def TokenSettings.triggerPercent (cfg : TokenSettings) : ℕ :=
  clamp 50 95 (cfg.contextTokenTriggerPercent.getD 85)

def TokenSettings.targetPercent (cfg : TokenSettings) : ℕ :=
  clamp 30 (cfg.triggerPercent - 5) (cfg.contextTokenTargetPercent.getD 70)

def u32Max : ℕ := 2 ^ 32 - 1

structure ContextTokenBudget where
  contextWindowTokens : ℕ
  reservedOutputTokens : ℕ
  safetyMarginTokens : ℕ
  maxInputTokens : ℕ
  triggerTokens : ℕ
  targetTokens : ℕ
  deriving DecidableEq

def ContextTokenBudget.fromConfig (cfg : TokenSettings) : Option ContextTokenBudget :=
  if cfg.llmContextTokens = 0 then none
  else
    let reservedOutputTokens := min cfg.maxTokens (cfg.llmContextTokens - 256)
    let availableAfterOutput := cfg.llmContextTokens - reservedOutputTokens
    let safetyMarginTokens := min cfg.contextTokenSafetyMarginTokens (availableAfterOutput - 128)
    let maxInputTokens := availableAfterOutput - safetyMarginTokens
    some {
      contextWindowTokens := cfg.llmContextTokens
      reservedOutputTokens
      safetyMarginTokens
      maxInputTokens
      triggerTokens := min (maxInputTokens * cfg.triggerPercent) u32Max / 100
      targetTokens := min (maxInputTokens * cfg.targetPercent) u32Max / 100 }

theorem percent_le {n percent : ℕ} (h : percent ≤ 100) : min (n * percent) u32Max / 100 ≤ n := by
  have hle : min (n * percent) u32Max ≤ n * 100 :=
    (Nat.min_le_left _ _).trans (Nat.mul_le_mul_left n h)
  omega

theorem ContextTokenBudget.fromConfig_le {cfg : TokenSettings} {b : ContextTokenBudget}
    (h : fromConfig cfg = some b) :
    b.targetTokens ≤ b.maxInputTokens ∧ b.triggerTokens ≤ b.maxInputTokens := by
  unfold fromConfig at h
  split at h
  · cases h
  · obtain rfl := Option.some.inj h
    have htrigger : cfg.triggerPercent ≤ 95 := by
      unfold TokenSettings.triggerPercent clamp
      omega
    have htarget : cfg.targetPercent ≤ 100 := by
      unfold TokenSettings.targetPercent clamp
      omega
    exact ⟨percent_le htarget, percent_le (by omega)⟩

end Config

section Tools

/-- `maybe_compress_tool_message_content`; `envelope` answers for the JSON envelopes: whether the
text is one, and what it is shortened to. -/
def maybeCompressToolMessageContent (envelope : String → ℕ → Option (Option String))
    (content : String) (maxChars : ℕ) : Option String :=
  let maxChars := max maxChars 256
  let totalChars := content.length
  if totalChars ≤ maxChars then none
  else
    match envelope content maxChars with
    | some shortened => shortened
    | none => some (String.ofList (content.toList.take maxChars) ++
        s!"\n\n[... 已截断，原始约 {totalChars} 字符，保留前 {maxChars} 字符 ...]")

variable (compress : String → Option String)

/-- The row with its tool body shortened, when it is a text the compression shortens. -/
def compressedTool? (m : Message) : Option Message :=
  if m.role = "tool" then
    match m.content with
    | some (.text text) => (compress text).map fun next => { m with content := some (.text next) }
    | _ => none
  else none

def compressTool (m : Message) : Message := (compressedTool? compress m).getD m

/-- Where the most recent groups start. With no more groups than that, the end of the list. -/
def recentGroupsStart (messages : List Message) (keepGroups : ℕ) : ℕ :=
  if keepGroups = 0 then 0
  else
    let groups := conversationTurnGroups messages
    if groups.length ≤ keepGroups then messages.length
    else ((groups[groups.length - keepGroups]?).map ConversationTurnGroup.start).getD 0

def compressOldToolMessages (messages : List Message) (keepGroups : ℕ) : List Message × ℕ :=
  let boundary := recentGroupsStart messages keepGroups
  ((messages.take boundary).map (compressTool compress) ++ messages.drop boundary,
    (messages.take boundary).countP fun m => (compressedTool? compress m).isSome)

end Tools

section Removal

-- The estimate of a request with these messages; tools and model stay the same throughout.
variable (estimate : List Message → ℕ)

structure GroupRemovalOutcome where
  after : ℕ
  turnGroups : ℕ
  messages : ℕ
  removedPrefix : RemovedPrefix

/-- The loop that removes groups until the target is met: the outcome, the list, and whether the
target was met. -/
def removeGroupsUntilTarget (targetTokens tailGuard : ℕ) :
    ℕ → GroupRemovalOutcome → List Message → GroupRemovalOutcome × List Message × Bool
  | 0, outcome, messages => (outcome, messages, decide (outcome.after ≤ targetTokens))
  | fuel + 1, outcome, messages =>
    if targetTokens < outcome.after then
      let groups := conversationTurnGroups messages
      if groups.length ≤ minRecentTurnGroups then (outcome, messages, false)
      else if 0 < tailGuard ∧
          messages.length - ((groups[1]?).map ConversationTurnGroup.start).getD 0 < tailGuard then
        (outcome, messages, false)
      else
        let (next, step) := removeOldestTurnGroup messages minRecentTurnGroups
        if step.isEmpty then (outcome, messages, false)
        else
          removeGroupsUntilTarget targetTokens tailGuard fuel {
            after := estimate next
            turnGroups := outcome.turnGroups + 1
            messages := outcome.messages + step.removed
            removedPrefix := outcome.removedPrefix.union step } next
    else (outcome, messages, true)

structure RemovalBudget where
  targetTokens : ℕ
  hardLimitTokens : Option ℕ
  minTailMessages : ℕ

def removeOldGroupsToTarget (messages : List Message) (after : ℕ) (budget : RemovalBudget) :
    GroupRemovalOutcome × List Message :=
  let (outcome, trimmed, met) := removeGroupsUntilTarget estimate budget.targetTokens
    budget.minTailMessages messages.length ⟨after, 0, 0, .empty⟩ messages
  if met then (outcome, trimmed)
  else
    match budget.hardLimitTokens with
    | some hardLimit =>
      if hardLimit < outcome.after then
        let (outcome, trimmed, _) :=
          removeGroupsUntilTarget estimate hardLimit 0 trimmed.length outcome trimmed
        (outcome, trimmed)
      else (outcome, trimmed)
    | none => (outcome, trimmed)

structure ContextCompactionReport where
  budget : Option ContextTokenBudget
  before : ℕ
  after : ℕ
  removedTurnGroups : ℕ
  removedMessages : ℕ
  tokenTriggered : Bool
  summarizedForTokenBudget : Bool
  compressedOldToolMessages : ℕ
  removedPrefix : RemovedPrefix

variable (compress : String → Option String)

def compactMessagesToTokenBudget (cfg : TokenSettings) (messages : List Message)
    (beforeSummary : ℕ) (summarizedForTokenBudget : Bool) (minTailMessages : ℕ) :
    List Message × ContextCompactionReport :=
  let budget := ContextTokenBudget.fromConfig cfg
  let after := estimate messages
  let tokenTriggered := budget.any fun value =>
    value.triggerTokens < beforeSummary || value.triggerTokens < after
  let report (compressedCount : ℕ) (removal : GroupRemovalOutcome) : ContextCompactionReport := {
    budget
    before := beforeSummary
    after := removal.after
    removedTurnGroups := removal.turnGroups
    removedMessages := removal.messages
    tokenTriggered
    summarizedForTokenBudget
    compressedOldToolMessages := compressedCount
    removedPrefix := removal.removedPrefix }
  match budget with
  | none => (messages, report 0 ⟨after, 0, 0, .empty⟩)
  | some value =>
    if tokenTriggered then
      let (compacted, compressedCount) :=
        if value.targetTokens < after then
          compressOldToolMessages compress messages minRecentTurnGroups
        else (messages, 0)
      let after := if 0 < compressedCount then estimate compacted else after
      let (removal, trimmed) := removeOldGroupsToTarget estimate compacted after
        ⟨value.targetTokens, some value.maxInputTokens, minTailMessages⟩
      (trimmed, report compressedCount removal)
    else (messages, report 0 ⟨after, 0, 0, .empty⟩)

end Removal

section Stage

variable {estimate : List Message → ℕ}

/-- The rows from the first real user on, counted. -/
def tailLen (messages : List Message) : ℕ := (fromFirstUser messages).length

theorem tailLen_eq (messages : List Message) :
    tailLen messages + leading messages = messages.length := by
  have h := takeWhile_append_dropWhile (p := fun m => !realUser m) (l := messages)
  have hlen := congrArg List.length h
  rw [length_append] at hlen
  unfold tailLen fromFirstUser leading
  omega

/-- What one loop asks for: the estimate is over the target, a group beyond the last two is left,
and its removal spares the guarded tail. -/
def asksLoop (estimate : List Message → ℕ) (targetTokens tailGuard : ℕ) (messages : List Message) :
    Prop :=
  targetTokens < estimate messages ∧ 2 < countRealUsers messages ∧
    tailGuard ≤ tailLen (removeOldestTurnGroup messages 2).1

theorem guard_iff {messages head group rest : List Message}
    (hold : OldestGroup messages head group rest) (hmany : 2 < countRealUsers messages)
    (tailGuard : ℕ) :
    (0 < tailGuard ∧ messages.length -
      (((conversationTurnGroups messages)[1]?).map ConversationTurnGroup.start).getD 0 < tailGuard) ↔
      ¬ tailGuard ≤ tailLen (removeOldestTurnGroup messages 2).1 := by
  have hcount := hold.countRealUsers
  have hrest : rest ≠ [] := by
    rintro rfl
    simp only [countRealUsers, countP_nil] at hcount
    unfold countRealUsers at hmany
    omega
  have htail := tailLen_eq (head ++ rest)
  rw [hold.leading.2, length_append] at htail
  have hlen : messages.length = (head ++ group).length + rest.length := by
    rw [hold.split, ← append_assoc, length_append]
  rw [hold.start_second hrest, getD_some, hold.removeOldestTurnGroup hmany, hlen]
  simp only
  omega

/-- The loop drains, keeps its books and says whether the target was met. -/
theorem removeGroupsUntilTarget_drains (targetTokens tailGuard : ℕ) {fuel : ℕ}
    {messages : List Message} (hfuel : countRealUsers messages ≤ fuel) {outcome : GroupRemovalOutcome}
    (hafter : outcome.after = estimate messages) :
    ∃ gs output, Drains (asksLoop estimate targetTokens tailGuard) messages gs output ∧
      removeGroupsUntilTarget estimate targetTokens tailGuard fuel outcome messages =
        ({ after := estimate output
           turnGroups := outcome.turnGroups + gs.length
           messages := outcome.messages + gs.flatten.length
           removedPrefix := unioned (leading messages) gs outcome.removedPrefix },
          output, decide (estimate output ≤ targetTokens)) := by
  induction fuel generalizing messages outcome with
  | zero =>
    refine ⟨[], messages, .stop fun h => ?_, ?_⟩
    · have hmany := h.2.1
      omega
    · rw [removeGroupsUntilTarget, hafter, ← hafter]
      rfl
  | succ fuel ih =>
    have hstop : ∀ met, met = decide (estimate messages ≤ targetTokens) →
        (outcome, messages, met) = (({ after := estimate messages
                                       turnGroups := outcome.turnGroups
                                       messages := outcome.messages
                                       removedPrefix := outcome.removedPrefix } :
          GroupRemovalOutcome), messages, decide (estimate messages ≤ targetTokens)) := by
      intro met hmet
      rw [hmet, ← hafter]
    rw [removeGroupsUntilTarget, hafter]
    split
    · next hover =>
      have hfalse : false = decide (estimate messages ≤ targetTokens) := by
        simpa using hover
      simp only [length_conversationTurnGroups, minRecentTurnGroups]
      split
      · next hfew =>
        exact ⟨[], messages, .stop fun h => by have hmany := h.2.1; omega, hstop false hfalse⟩
      · next hmany =>
        have hsome : 0 < countRealUsers messages := by omega
        obtain ⟨head, group, rest, hold⟩ := exists_oldestGroup hsome
        simp only [guard_iff hold (by omega)]
        split
        · next hguard =>
          exact ⟨[], messages, .stop fun h => hguard h.2.2, hstop false hfalse⟩
        · next hguard =>
          rw [not_not] at hguard
          have hcount := hold.countRealUsers
          have hrest := hold.countRealUsers_rest
          have hpos := hold.group_pos
          have hnot : RemovedPrefix.isEmpty ⟨head.length, group.length⟩ = false := by
            simpa [RemovedPrefix.isEmpty] using hpos.ne'
          have hfuel' : countRealUsers (head ++ rest) ≤ fuel := by omega
          let next : GroupRemovalOutcome :=
            { after := estimate (head ++ rest)
              turnGroups := outcome.turnGroups + 1
              messages := outcome.messages + group.length
              removedPrefix := outcome.removedPrefix.union ⟨head.length, group.length⟩ }
          have hnext : next.after = estimate (head ++ rest) := rfl
          obtain ⟨gs, output, hdrains, heq⟩ := ih hfuel' hnext
          refine ⟨group :: gs, output, .more ⟨hover, by omega, hguard⟩ hold hdrains, ?_⟩
          simp only [hold.removeOldestTurnGroup (show 2 < countRealUsers messages by omega), hnot,
            Bool.false_eq_true, ↓reduceIte]
          change removeGroupsUntilTarget estimate targetTokens tailGuard fuel next (head ++ rest) = _
          rw [heq, hold.leading.2, ← hold.leading.1]
          simp only [next, length_cons, flatten_cons, length_append, unioned,
            foldl_cons, Prod.mk.injEq, GroupRemovalOutcome.mk.injEq, and_true, true_and]
          exact ⟨by omega, by omega, by rw [hold.leading.1]⟩
    · next hunder =>
      exact ⟨[], messages, .stop fun h => hunder h.1, hstop true (by simpa using hunder)⟩

/-- What the two loops together ask for: under the hard limit the guarded tail is spared. -/
def asksStage (estimate : List Message → ℕ) (targetTokens hardLimit minTailMessages : ℕ)
    (messages : List Message) : Prop :=
  targetTokens < estimate messages ∧ 2 < countRealUsers messages ∧
    (minTailMessages ≤ tailLen (removeOldestTurnGroup messages 2).1 ∨
      hardLimit < estimate messages)

theorem Removes.tailLen_le {messages output : List Message} {gs : List (List Message)}
    (h : Removes messages gs output) : tailLen output ≤ tailLen messages := by
  have hlen := h.length
  have hlead := h.leading_eq
  have hout := tailLen_eq output
  have hin := tailLen_eq messages
  omega

theorem Drains.tailLen_next_le {p : List Message → Prop} {messages output : List Message}
    {gs : List (List Message)} (h : Drains p messages gs output)
    (hout : 2 < countRealUsers output) :
    tailLen (removeOldestTurnGroup output 2).1 ≤ tailLen (removeOldestTurnGroup messages 2).1 := by
  cases h with
  | stop => exact le_refl _
  | @more messages head group rest output gs _ oldest later =>
    have hcount := oldest.countRealUsers
    have hrest := oldest.countRealUsers_rest
    have hlater := later.removes.countRealUsers
    have hmany : 2 < countRealUsers messages := by omega
    obtain ⟨head', group', rest', hold'⟩ := exists_oldestGroup (Nat.zero_lt_of_lt hout)
    rw [oldest.removeOldestTurnGroup hmany, hold'.removeOldestTurnGroup hout]
    exact (later.removes.trans (.more hold' (.none _))).tailLen_le

/-- The two loops are one drain, and the report is about its result. -/
theorem removeOldGroupsToTarget_drains (estimate : List Message → ℕ) (messages : List Message)
    {targetTokens hardLimit : ℕ} (hle : targetTokens ≤ hardLimit) (minTailMessages : ℕ) :
    ∃ gs output,
      Drains (asksStage estimate targetTokens hardLimit minTailMessages) messages gs output ∧
      removeOldGroupsToTarget estimate messages (estimate messages)
          ⟨targetTokens, some hardLimit, minTailMessages⟩ =
        ({ after := estimate output
           turnGroups := gs.length
           messages := gs.flatten.length
           removedPrefix := unioned (leading messages) gs .empty }, output) := by
  have hfuel : countRealUsers messages ≤ messages.length := countP_le_length
  have hstart : GroupRemovalOutcome.after ⟨estimate messages, 0, 0, .empty⟩ = estimate messages := rfl
  obtain ⟨gs₁, mid, hdrains₁, heq₁⟩ :=
    removeGroupsUntilTarget_drains targetTokens minTailMessages hfuel hstart
  simp only [Nat.zero_add] at heq₁
  have hasks : ∀ ms, asksLoop estimate targetTokens minTailMessages ms →
      asksStage estimate targetTokens hardLimit minTailMessages ms :=
    fun ms h => ⟨h.1, h.2.1, Or.inl h.2.2⟩
  have hstop₁ := hdrains₁.stops
  simp only [removeOldGroupsToTarget, heq₁]
  by_cases hhard : targetTokens < estimate mid ∧ hardLimit < estimate mid
  · have hmet : decide (estimate mid ≤ targetTokens) = false := by simpa using hhard.1
    have hfuel₂ : countRealUsers mid ≤ mid.length := countP_le_length
    have hsecond : GroupRemovalOutcome.after ⟨estimate mid, gs₁.length, gs₁.flatten.length,
      unioned (leading messages) gs₁ .empty⟩ = estimate mid := rfl
    obtain ⟨gs₂, output, hdrains₂, heq₂⟩ :=
      removeGroupsUntilTarget_drains hardLimit 0 hfuel₂ hsecond
    simp only [hdrains₁.removes.leading_eq] at heq₂
    -- once the guarded tail is reached, no later removal spares it
    have hstop₂ : ¬ asksStage estimate targetTokens hardLimit minTailMessages output := by
      rintro ⟨htarget, hmany, hguard⟩
      have hnot := hdrains₂.stops
      have hunder : ¬ hardLimit < estimate output :=
        fun h => hnot ⟨h, hmany, Nat.zero_le _⟩
      have hmid : 2 < countRealUsers mid := by
        have hcount := hdrains₂.removes.countRealUsers
        omega
      have hnext := hdrains₂.tailLen_next_le hmany
      rcases hguard with hguard | hguard
      · exact hstop₁ ⟨hhard.1, hmid, hguard.trans hnext⟩
      · exact hunder hguard
    have hdrains : Drains (asksStage estimate targetTokens hardLimit minTailMessages) mid gs₂
        output := by
      have h := hdrains₂.append (q := asksStage estimate targetTokens hardLimit minTailMessages)
        (fun ms h => ⟨hle.trans_lt h.1, h.2.1, Or.inr h.1⟩) (.stop hstop₂)
      rwa [append_nil] at h
    refine ⟨gs₁ ++ gs₂, output, hdrains₁.append hasks hdrains, ?_⟩
    simp only [hmet, Bool.false_eq_true, ↓reduceIte, if_pos hhard.2]
    rw [heq₂]
    simp only [length_append, flatten_append, unioned, foldl_append]
  · have hstop : ¬ asksStage estimate targetTokens hardLimit minTailMessages mid := by
      rintro ⟨htarget, hmany, hguard | hover⟩
      · exact hstop₁ ⟨htarget, hmany, hguard⟩
      · exact hhard ⟨htarget, hover⟩
    refine ⟨gs₁, mid, ?_, ?_⟩
    · have h := hdrains₁.append hasks (.stop hstop)
      rwa [append_nil] at h
    · split
      · rfl
      · next hmet =>
        have htarget : targetTokens < estimate mid := by simpa using hmet
        rw [if_neg fun hover => hhard ⟨htarget, hover⟩]

end Stage

section Tools

variable {compress : String → Option String}

/-- Only a tool result is shortened, so the turn groups stay where they are. -/
theorem realUser_compressTool (m : Message) : realUser (compressTool compress m) = realUser m := by
  unfold compressTool compressedTool?
  split
  · next hrole =>
    have hnot : ∀ content, realUser { m with content := content } = false := fun content => by
      simp [realUser, Message.userMessageCountsForBranchTruncation, hrole]
    have hm : realUser m = false := hnot m.content
    split
    · next text _ =>
      cases compress text with
      | none => rfl
      | some next => exact (hnot _).trans hm.symm
    · rfl
  · rfl

theorem compressTool_eq_self {m : Message} (h : (compressedTool? compress m).isSome = false) :
    compressTool compress m = m := by
  rw [isSome_eq_false_iff, isNone_iff_eq_none] at h
  rw [compressTool, h, getD_none]

theorem compressOldToolMessages_eq_self {messages : List Message} {keepGroups : ℕ}
    (h : (compressOldToolMessages compress messages keepGroups).2 = 0) :
    (compressOldToolMessages compress messages keepGroups).1 = messages := by
  have hsame : ∀ m ∈ messages.take (recentGroupsStart messages keepGroups),
      compressTool compress m = m := by
    intro m hm
    apply compressTool_eq_self
    simpa using countP_eq_zero.mp h m hm
  simp only [compressOldToolMessages]
  rw [map_congr_left hsame, List.map_id', take_append_drop]

/-- The list the removal starts from. -/
def degraded (estimate : List Message → ℕ) (compress : String → Option String)
    (budget : ContextTokenBudget) (messages : List Message) : List Message :=
  if budget.targetTokens < estimate messages then
    (compressOldToolMessages compress messages minRecentTurnGroups).1
  else messages

/-- The token budget asks for a compaction. -/
def triggered (estimate : List Message → ℕ) (budget : ContextTokenBudget)
    (messages : List Message) (beforeSummary : ℕ) : Bool :=
  budget.triggerTokens < beforeSummary || budget.triggerTokens < estimate messages

variable {estimate : List Message → ℕ} {cfg : TokenSettings} {messages : List Message}
  {beforeSummary minTailMessages : ℕ} {summarized : Bool}

/-- Without a budget, or below its trigger, nothing is done. -/
theorem compact_idle (h : ∀ b, ContextTokenBudget.fromConfig cfg = some b →
      triggered estimate b messages beforeSummary = false) :
    compactMessagesToTokenBudget estimate compress cfg messages beforeSummary summarized
        minTailMessages =
      (messages, {
        budget := ContextTokenBudget.fromConfig cfg
        before := beforeSummary
        after := estimate messages
        removedTurnGroups := 0
        removedMessages := 0
        tokenTriggered := false
        summarizedForTokenBudget := summarized
        compressedOldToolMessages := 0
        removedPrefix := .empty }) := by
  unfold compactMessagesToTokenBudget
  cases hb : ContextTokenBudget.fromConfig cfg with
  | none => rfl
  | some b =>
    have hnot := h b hb
    unfold triggered at hnot
    simp only [any_some, hnot, Bool.false_eq_true, ↓reduceIte]

/-- Above the trigger the list is degraded and drained. -/
theorem compact_drains (compress : String → Option String) (minTailMessages : ℕ)
    (summarized : Bool) {b : ContextTokenBudget}
    (hb : ContextTokenBudget.fromConfig cfg = some b) (htriggered : triggered estimate b messages beforeSummary = true) :
    ∃ gs output compressedCount,
      Drains (asksStage estimate b.targetTokens b.maxInputTokens minTailMessages)
        (degraded estimate compress b messages) gs output ∧
      compactMessagesToTokenBudget estimate compress cfg messages beforeSummary summarized
          minTailMessages =
        (output, {
          budget := some b
          before := beforeSummary
          after := estimate output
          removedTurnGroups := gs.length
          removedMessages := gs.flatten.length
          tokenTriggered := true
          summarizedForTokenBudget := summarized
          compressedOldToolMessages := compressedCount
          removedPrefix := unioned (leading (degraded estimate compress b messages)) gs .empty }) := by
  obtain ⟨gs, output, hdrains, heq⟩ := removeOldGroupsToTarget_drains estimate
    (degraded estimate compress b messages) (ContextTokenBudget.fromConfig_le hb).1 minTailMessages
  unfold triggered at htriggered
  by_cases hover : b.targetTokens < estimate messages
  · have hdeg : degraded estimate compress b messages =
        (compressOldToolMessages compress messages minRecentTurnGroups).1 := if_pos hover
    have hafter : (if 0 < (compressOldToolMessages compress messages minRecentTurnGroups).2 then
        estimate (compressOldToolMessages compress messages minRecentTurnGroups).1
        else estimate messages) = estimate (degraded estimate compress b messages) := by
      rw [hdeg]
      split
      · rfl
      · next hzero => rw [compressOldToolMessages_eq_self (by omega)]
    refine ⟨gs, output, (compressOldToolMessages compress messages minRecentTurnGroups).2,
      hdrains, ?_⟩
    unfold compactMessagesToTokenBudget
    simp only [hb, any_some, htriggered, ↓reduceIte, if_pos hover]
    rw [hafter, ← hdeg, heq]
  · have hdeg : degraded estimate compress b messages = messages := if_neg hover
    refine ⟨gs, output, 0, hdrains, ?_⟩
    unfold compactMessagesToTokenBudget
    simp only [hb, any_some, htriggered, ↓reduceIte, if_neg hover, Nat.lt_irrefl]
    rw [hdeg] at heq ⊢
    rw [heq]

end Tools
end CrabMate
