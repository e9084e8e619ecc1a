import CrabMate.Context.Budget
import Mathlib.Data.List.Forall2

/-! What a compaction leaves of its input: the removed range it reports, the rows it keeps as they
are, and the limits it keeps to. -/
namespace CrabMate
open Positions List

section Ranges

variable {compress : String → Option String}

/-- The same rows, some of them with their tool body shortened. -/
def SameUpToTools (compress : String → Option String) (input output : List Message) : Prop :=
  List.Forall₂ (fun m m' => m' = m ∨ m' = compressTool compress m) input output

theorem sameUpToTools_refl (messages : List Message) : SameUpToTools compress messages messages :=
  forall₂_same.mpr fun _ _ => Or.inl rfl

theorem sameUpToTools_map (compress : String → Option String) (messages : List Message) :
    SameUpToTools compress messages (messages.map (compressTool compress)) :=
  forall₂_map_right_iff.mpr (forall₂_same.mpr fun _ _ => Or.inr rfl)

theorem SameUpToTools.append {ms₁ ms₂ ms₁' ms₂' : List Message}
    (h₁ : SameUpToTools compress ms₁ ms₁') (h₂ : SameUpToTools compress ms₂ ms₂') :
    SameUpToTools compress (ms₁ ++ ms₂) (ms₁' ++ ms₂') :=
  rel_append h₁ h₂

theorem sameUpToTools_degraded (estimate : List Message → ℕ) (b : ContextTokenBudget)
    (messages : List Message) :
    SameUpToTools compress messages (degraded estimate compress b messages) := by
  unfold degraded
  split
  · have h := (sameUpToTools_map compress
      (messages.take (recentGroupsStart messages minRecentTurnGroups))).append
      (sameUpToTools_refl (messages.drop (recentGroupsStart messages minRecentTurnGroups)))
    rwa [take_append_drop] at h
  · exact sameUpToTools_refl messages

theorem SameUpToTools.eraseRange {input output : List Message}
    (h : SameUpToTools compress input output) (p : RemovedPrefix) :
    SameUpToTools compress (input.take p.start ++ input.drop p.stop)
      (output.take p.start ++ output.drop p.stop) :=
  SameUpToTools.append (forall₂_take _ h) (forall₂_drop _ h)

/-- The input without the range is the output, tool bodies apart. -/
def RemovedPrefix.DenotesUpToTools (compress : String → Option String) (p : RemovedPrefix)
    (input output : List Message) : Prop :=
  SameUpToTools compress (input.take p.start ++ input.drop p.stop) output

variable {estimate : List Message → ℕ} {cfg : TokenSettings} {messages : List Message}
  {beforeSummary minTailMessages : ℕ} {summarized : Bool}

/-- A drain over the degraded list: the accumulated range is exact unless two groups or more
go. -/
theorem denotesUpToTools_unioned_iff {compacted output : List Message}
    {gs : List (List Message)} (hsame : SameUpToTools compress messages compacted)
    (h : Removes compacted gs output) :
    (unioned (leading compacted) gs .empty).DenotesUpToTools compress messages output ↔
      gs.length ≤ 1 := by
  constructor
  · intro hd
    apply h.length_le_one_of_unioned
    rw [← List.Forall₂.length_eq hd]
    exact (List.Forall₂.length_eq (hsame.eraseRange _)).symm
  · intro hone
    have hexact := h.denotes_unioned_iff.mpr hone
    have herase := hsame.eraseRange (unioned (leading compacted) gs .empty)
    rw [hexact] at herase
    exact herase

/-- The stage removes one group at most: it does not ask for a removal, or not for another one
once the oldest group is gone. -/
def asksOnce (estimate : List Message → ℕ) (b : ContextTokenBudget) (minTailMessages : ℕ)
    (messages : List Message) : Prop :=
  ¬ (asksStage estimate b.targetTokens b.maxInputTokens minTailMessages messages ∧
    asksStage estimate b.targetTokens b.maxInputTokens minTailMessages
      (removeOldestTurnGroup messages 2).1)

theorem compact_denotes_iff :
    (compactMessagesToTokenBudget estimate compress cfg messages beforeSummary summarized
        minTailMessages).2.removedPrefix.DenotesUpToTools compress messages
      (compactMessagesToTokenBudget estimate compress cfg messages beforeSummary summarized
        minTailMessages).1 ↔
    ∀ b, ContextTokenBudget.fromConfig cfg = some b →
      triggered estimate b messages beforeSummary = true →
      asksOnce estimate b minTailMessages (degraded estimate compress b messages) := by
  by_cases hidle : ∀ b, ContextTokenBudget.fromConfig cfg = some b →
      triggered estimate b messages beforeSummary = false
  · rw [compact_idle hidle]
    refine iff_of_true ?_ fun b hb htriggered => ?_
    · have herase : messages.take RemovedPrefix.empty.start ++
          messages.drop RemovedPrefix.empty.stop = messages := denotes_empty messages
      rw [RemovedPrefix.DenotesUpToTools, herase]
      exact sameUpToTools_refl messages
    · rw [hidle b hb] at htriggered
      cases htriggered
  · simp only [not_forall, Bool.not_eq_false] at hidle
    obtain ⟨b, hb, htriggered⟩ := hidle
    obtain ⟨gs, output, count, hdrains, heq⟩ :=
      compact_drains compress minTailMessages summarized hb htriggered
    rw [heq]
    simp only
    rw [denotesUpToTools_unioned_iff (sameUpToTools_degraded estimate b messages) hdrains.removes,
      hdrains.length_le_one_iff 2 fun ms h => h.2.1]
    constructor
    · intro h b' hb' _
      obtain rfl := Option.some.inj (hb.symm.trans hb')
      exact h
    · intro h
      exact h b hb htriggered

/-- Of the three removals, the character trim reports its range exactly; the count trim and the
token stage do unless they remove two groups or more. -/
theorem removed_prefix_exact_iff {messages : List Message} (hgroups : 0 < countRealUsers messages)
    (maxAfterSystem budget minMessagesAfterSystem : ℕ) (estimate : List Message → ℕ)
    (compress : String → Option String) (cfg : TokenSettings)
    (beforeSummary minTailMessages : ℕ) (summarized : Bool) :
    ((trimMessagesByCount messages maxAfterSystem).2.Denotes messages
        (trimMessagesByCount messages maxAfterSystem).1 ↔
      maxAfterSystem = 0 ∨ countRealUsers messages ≤ 2 ∨
        (removeOldestTurnGroup messages 1).1.length ≤ maxTotalRows messages maxAfterSystem) ∧
    (trimMessagesByCharBudget messages budget minMessagesAfterSystem).2.Denotes messages
      (trimMessagesByCharBudget messages budget minMessagesAfterSystem).1 ∧
    ((compactMessagesToTokenBudget estimate compress cfg messages beforeSummary summarized
          minTailMessages).2.removedPrefix.DenotesUpToTools compress messages
        (compactMessagesToTokenBudget estimate compress cfg messages beforeSummary summarized
          minTailMessages).1 ↔
      ∀ b, ContextTokenBudget.fromConfig cfg = some b →
        triggered estimate b messages beforeSummary = true →
        asksOnce estimate b minTailMessages (degraded estimate compress b messages)) :=
  ⟨trimMessagesByCount_denotes_iff hgroups maxAfterSystem,
    trimMessagesByCharBudget_denotes hgroups budget minMessagesAfterSystem, compact_denotes_iff⟩

/-- Of two one-row groups the count trim removes the older one and reports it. -/
theorem removed_prefix_exact_two_groups :
    countRealUsers [.userOnly "a", .userOnly "b"] ≤ 2 ∧
    (trimMessagesByCount [.userOnly "a", .userOnly "b"] 1).2.Denotes
      [.userOnly "a", .userOnly "b"] [.userOnly "b"] :=
  ⟨by decide, (removed_prefix_exact_iff (by decide) 1 0 0 (fun _ => 0) (fun _ => none)
    ⟨0, 0, 0, none, none⟩ 0 0 false).1.mpr (Or.inr (Or.inl (by decide)))⟩

/-- Three one-row groups trimmed to one row: two groups go, one row is reported. -/
theorem count_trim_reports_one_of_two_groups :
    ¬ ∀ (messages : List Message) (maxAfterSystem : ℕ), 0 < countRealUsers messages →
      (trimMessagesByCount messages maxAfterSystem).2.Denotes messages
        (trimMessagesByCount messages maxAfterSystem).1 := by
  intro h
  have hbad := h [.userOnly "a", .userOnly "b", .userOnly "c"] 1 (by decide)
  rw [RemovedPrefix.Denotes] at hbad
  exact absurd hbad (by decide)

end Ranges

section Removals

variable {messages output behind : List Message} {gs : List (List Message)}

theorem OldestGroup.append {head group rest : List Message}
    (h : OldestGroup messages head group rest) (hbehind : ∀ x ∈ behind.head?, realUser x = true) :
    OldestGroup (messages ++ behind) head group (rest ++ behind) where
  split := by rw [h.split, append_assoc, append_assoc]
  head := h.head
  group := h.group
  rest := by
    cases rest with
    | nil => exact hbehind
    | cons x rest => exact h.rest

theorem OldestGroup.map {f : Message → Message} (hf : ∀ m, realUser (f m) = realUser m)
    {head group rest : List Message} (h : OldestGroup messages head group rest) :
    OldestGroup (messages.map f) (head.map f) (group.map f) (rest.map f) where
  split := by rw [h.split, map_append, map_append]
  head := by
    rintro m' hm'
    obtain ⟨m, hm, rfl⟩ := mem_map.mp hm'
    rw [hf, h.head m hm]
  group := by
    obtain ⟨g, others, rfl, hg, hothers⟩ := h.group
    refine ⟨f g, others.map f, rfl, by rw [hf, hg], ?_⟩
    rintro m' hm'
    obtain ⟨m, hm, rfl⟩ := mem_map.mp hm'
    rw [hf, hothers m hm]
  rest := by
    cases rest with
    | nil => simp
    | cons x rest => simpa [hf] using h.rest

theorem OldestGroup.unique {head group rest head' group' rest' : List Message}
    (h : OldestGroup messages head group rest) (h' : OldestGroup messages head' group' rest') :
    head ++ rest = head' ++ rest' := by
  have hcount := h.countRealUsers
  have heq := h.removeOldestTurnGroup (show 0 < CrabMate.countRealUsers messages by omega)
  rw [h'.removeOldestTurnGroup (by omega), Prod.mk.injEq] at heq
  exact heq.1.symm

theorem Removes.append (h : Removes messages gs output)
    (hbehind : ∀ x ∈ behind.head?, realUser x = true) :
    Removes (messages ++ behind) gs (output ++ behind) := by
  induction h with
  | none => exact .none _
  | more oldest later ih =>
    rw [append_assoc] at ih
    exact .more (oldest.append hbehind) ih

theorem Removes.map {f : Message → Message} (hf : ∀ m, realUser (f m) = realUser m)
    (h : Removes messages gs output) :
    Removes (messages.map f) (gs.map (List.map f)) (output.map f) := by
  induction h with
  | none => exact .none _
  | more oldest later ih =>
    rw [map_append] at ih
    exact .more (oldest.map hf) ih

theorem Removes.unique (h : Removes messages gs output) {gs' : List (List Message)}
    {output' : List Message} (h' : Removes messages gs' output') (hlen : gs.length = gs'.length) :
    output = output' := by
  induction h generalizing gs' with
  | none =>
    cases h' with
    | none => rfl
    | more => simp at hlen
  | more oldest later ih =>
    cases h' with
    | none => simp at hlen
    | more oldest' later' =>
      rw [← oldest.unique oldest'] at later'
      exact ih later' (by simpa using hlen)

theorem exists_removes {k : ℕ} (hk : k ≤ countRealUsers messages) :
    ∃ gs output, gs.length = k ∧ Removes messages gs output := by
  induction k generalizing messages with
  | zero => exact ⟨[], messages, rfl, .none _⟩
  | succ k ih =>
    obtain ⟨head, group, rest, hold⟩ :=
      exists_oldestGroup (show 0 < countRealUsers messages by omega)
    have hcount := hold.countRealUsers
    have hrest := hold.countRealUsers_rest
    obtain ⟨gs, output, hlen, hremoves⟩ := ih (show k ≤ countRealUsers (head ++ rest) by omega)
    exact ⟨group :: gs, output, by rw [length_cons, hlen], .more hold hremoves⟩

theorem Drains.asked {p : List Message → Prop} (h : Drains p messages gs output)
    {gs' : List (List Message)} {earlier : List Message} (h' : Removes messages gs' earlier)
    (hlt : gs'.length < gs.length) : p earlier := by
  induction h generalizing gs' with
  | stop => simp at hlt
  | more hp oldest later ih =>
    cases h' with
    | none => exact hp
    | more oldest' later' =>
      rw [← oldest.unique oldest'] at later'
      exact ih later' (by simpa using hlt)

end Removals

section Structure

/-- The last two turn groups; with fewer, all of them. -/
def recentTail (messages : List Message) : List Message :=
  messages.drop ((nthRealUserIndex messages (countRealUsers messages - minRecentTurnGroups)).getD
    messages.length)

/-- The rows before the first real user. -/
def leadingRows (messages : List Message) : List Message := messages.take (leading messages)

/-- The output is the input without its `removed` oldest groups; between the leading rows and the
last two groups, which stand as they were, tool bodies are shortened. -/
def KeepsStructure (compress : String → Option String) (messages output : List Message)
    (removed : ℕ) : Prop :=
  ∃ gs mid mid', gs.length = removed ∧
    Removes messages gs (leadingRows messages ++ (mid ++ recentTail messages)) ∧
    output = leadingRows messages ++ (mid' ++ recentTail messages) ∧
    SameUpToTools compress mid mid'

theorem recentTail_split (messages : List Message) :
    ∃ front, messages = front ++ recentTail messages ∧
      countRealUsers front = countRealUsers messages - 2 ∧
      (∀ x ∈ (recentTail messages).head?, realUser x = true) ∧
      (2 < countRealUsers messages → recentGroupsStart messages 2 = front.length) := by
  cases hn : nthRealUserIndex messages (countRealUsers messages - 2) with
  | none =>
    have hle := nthIndex_eq_none_iff.mp hn
    have htail : recentTail messages = [] := by
      rw [recentTail, minRecentTurnGroups, hn, Option.getD_none, drop_length]
    have hcount : messages.countP realUser = countRealUsers messages := rfl
    refine ⟨messages, by rw [htail, append_nil], by omega, by simp [htail], fun h => by omega⟩
  | some i =>
    obtain ⟨pre, u, post, hsplit, hlen, hu, hcount⟩ := nthIndex_eq_some hn
    have htail : recentTail messages = u :: post := by
      rw [recentTail, minRecentTurnGroups, hn, Option.getD_some, hsplit, ← hlen, drop_left]
    refine ⟨pre, by rw [htail, hsplit], hcount, by simp [htail, hu], fun hmany => ?_⟩
    rw [recentGroupsStart, if_neg (by decide)]
    simp only [length_conversationTurnGroups]
    rw [if_neg (by omega), start_conversationTurnGroups, hn, Option.getD_some, hlen]

variable {compress : String → Option String} {messages output : List Message}

theorem leading_front {front behind : List Message} (h : 0 < countRealUsers front) :
    leading (front ++ behind) = leading front ∧
      leadingRows (front ++ behind) = leadingRows front := by
  obtain ⟨head, group, rest, hold⟩ := exists_oldestGroup h
  obtain ⟨g, others, rfl, hg, -⟩ := hold.group
  have hfront : front = head ++ (g :: others ++ rest) := hold.split
  have hlead : leading (front ++ behind) = leading front := by
    rw [hold.leading.1, hfront, append_assoc]
    exact leading_append hold.head (by simp [hg])
  refine ⟨hlead, ?_⟩
  rw [leadingRows, leadingRows, hlead, hold.leading.1, hfront, append_assoc, take_left,
    take_left]

theorem leadingRows_append_recentTail (hfew : countRealUsers messages ≤ 2) :
    leadingRows messages ++ recentTail messages = messages := by
  obtain ⟨front, hsplit, hcount, hhead, -⟩ := recentTail_split messages
  have hfront : ∀ m ∈ front, realUser m = false := by
    have hzero : front.countP realUser = 0 := by
      have h : countRealUsers front = 0 := by omega
      exact h
    simpa [countP_eq_zero] using hzero
  have hlead : leading messages = front.length := by
    conv_lhs => rw [hsplit]
    exact leading_append hfront hhead
  conv_rhs => rw [hsplit]
  rw [leadingRows, hlead]
  congr 1
  conv_lhs => rw [hsplit]
  rw [take_left]

theorem keepsStructure_self (compress : String → Option String) (messages : List Message) :
    KeepsStructure compress messages messages 0 := by
  by_cases hfew : countRealUsers messages ≤ 2
  · have hwhole := leadingRows_append_recentTail hfew
    refine ⟨[], [], [], rfl, ?_, by simp [hwhole], .nil⟩
    rw [nil_append, hwhole]
    exact .none _
  · obtain ⟨front, hsplit, hcount, -, -⟩ := recentTail_split messages
    have hlead : leadingRows messages = leadingRows front := by
      conv_lhs => rw [hsplit]
      exact (leading_front (by omega)).2
    have hfront : leadingRows messages ++ front.drop (leading front) = front := by
      rw [hlead, leadingRows, take_append_drop]
    have hwhole : leadingRows messages ++ (front.drop (leading front) ++ recentTail messages) =
        messages := by
      rw [← append_assoc, hfront, ← hsplit]
    refine ⟨[], front.drop (leading front), front.drop (leading front), rfl, ?_, hwhole.symm,
      sameUpToTools_refl _⟩
    rw [hwhole]
    exact .none _

/-- The bodies the first stage shortens though they stand outside the older groups: those of the
leading rows, and with two groups at most every one. -/
def SparesRecent (compress : String → Option String) (messages : List Message) : Prop :=
  (∀ m ∈ leadingRows messages, compressTool compress m = m) ∧
    (countRealUsers messages ≤ 2 → ∀ m ∈ messages, compressTool compress m = m)

theorem recentGroupsStart_few (hfew : countRealUsers messages ≤ 2) :
    recentGroupsStart messages 2 = messages.length := by
  rw [recentGroupsStart, if_neg (by decide)]
  simp only [length_conversationTurnGroups]
  rw [if_pos hfew]

theorem compressOldToolMessages_few (hfew : countRealUsers messages ≤ 2) :
    (compressOldToolMessages compress messages minRecentTurnGroups).1 =
      messages.map (compressTool compress) := by
  simp only [compressOldToolMessages, minRecentTurnGroups, recentGroupsStart_few hfew,
    take_length, drop_length, append_nil]

theorem countRealUsers_compressOldToolMessages (compress : String → Option String)
    (messages : List Message) (keepGroups : ℕ) :
    countRealUsers (compressOldToolMessages compress messages keepGroups).1 =
      countRealUsers messages := by
  conv_rhs => rw [← take_append_drop (recentGroupsStart messages keepGroups) messages]
  simp only [countRealUsers, compressOldToolMessages, countP_append, countP_map]
  congr 1
  exact countP_congr fun m _ => by rw [Function.comp_apply, realUser_compressTool]

/-- Removing groups from the list with its older tool bodies shortened. -/
theorem keepsStructure_compressed_iff {gs : List (List Message)}
    (hmany : 2 < countRealUsers messages)
    (hremoves : Removes (compressOldToolMessages compress messages minRecentTurnGroups).1 gs output)
    (hkept : 2 ≤ countRealUsers output) :
    KeepsStructure compress messages output gs.length ↔
      ∀ m ∈ leadingRows messages, compressTool compress m = m := by
  obtain ⟨front, hsplit, hcount, hhead, hstart⟩ := recentTail_split messages
  have hcompressed : (compressOldToolMessages compress messages minRecentTurnGroups).1 =
      front.map (compressTool compress) ++ recentTail messages := by
    simp only [compressOldToolMessages, minRecentTurnGroups, hstart hmany]
    conv_lhs => rw [hsplit]
    rw [take_left, drop_left]
  have hlead : leadingRows messages = leadingRows front := by
    conv_lhs => rw [hsplit]
    exact (leading_front (by omega)).2
  have hcountOut := hremoves.countRealUsers
  rw [countRealUsers_compressOldToolMessages] at hcountOut
  have hlen : gs.length ≤ countRealUsers front := by omega
  -- the same number of groups taken out of the front alone
  obtain ⟨gsFront, left, hlenFront, hfront⟩ := exists_removes hlen
  have hboth := (hfront.map (f := compressTool compress) realUser_compressTool).append hhead
  rw [hcompressed] at hremoves
  have hout : output = left.map (compressTool compress) ++ recentTail messages :=
    hremoves.unique hboth (by rw [List.length_map, hlenFront])
  obtain ⟨rest, -, hleft⟩ := hfront.split
  have hleft' : left = leadingRows messages ++ rest := by rw [hlead, leadingRows, hleft]
  constructor
  · rintro ⟨-, -, mid', -, -, hout', -⟩
    have heq := hout.symm.trans hout'
    rw [hleft', map_append, append_assoc] at heq
    have hfixed := (append_inj heq (by rw [List.length_map])).1
    intro m hm
    have hid : (leadingRows messages).map (compressTool compress) =
        (leadingRows messages).map id := by rw [hfixed, map_id]
    exact map_inj_left.mp hid m hm
  · intro hfixed
    have hmapLead : (leadingRows messages).map (compressTool compress) = leadingRows messages := by
      rw [map_congr_left hfixed, map_id']
    refine ⟨gsFront, rest, rest.map (compressTool compress), hlenFront, ?_, ?_,
      sameUpToTools_map compress rest⟩
    · have h := hfront.append hhead
      rwa [← hsplit, hleft', append_assoc] at h
    · rw [hout, hleft', map_append, hmapLead, append_assoc]

theorem keepsStructure_few_iff (hfew : countRealUsers messages ≤ 2) :
    KeepsStructure compress messages output 0 ↔ output = messages := by
  have hwhole := leadingRows_append_recentTail hfew
  constructor
  · rintro ⟨gs, mid, mid', hlen, hremoves, rfl, hsame⟩
    have hkept := (Removes.none messages).unique hremoves (by rw [hlen, length_nil])
    have hmid : mid = [] := by
      have hlength := congrArg List.length (hwhole.trans hkept)
      simp only [length_append] at hlength
      exact length_eq_zero_iff.mp (by omega)
    subst hmid
    cases hsame
    rw [nil_append, hwhole]
  · rintro rfl
    exact keepsStructure_self compress output

/-- What is left of the shortened list after groups went that may go. -/
theorem keepsStructure_degraded_iff {gs : List (List Message)}
    (hremoves : Removes (compressOldToolMessages compress messages minRecentTurnGroups).1 gs output)
    (hkept : min 2 (countRealUsers (compressOldToolMessages compress messages
      minRecentTurnGroups).1) ≤ countRealUsers output) :
    KeepsStructure compress messages output gs.length ↔ SparesRecent compress messages := by
  have hcount := hremoves.countRealUsers
  rw [countRealUsers_compressOldToolMessages] at hcount hkept
  by_cases hfew : countRealUsers messages ≤ 2
  · have hnil : gs = [] := length_eq_zero_iff.mp (by omega)
    subst hnil
    cases hremoves with
    | none =>
      rw [length_nil, keepsStructure_few_iff hfew, compressOldToolMessages_few hfew]
      constructor
      · intro heq
        have hfixed : ∀ m ∈ messages, compressTool compress m = m := by
          have hid : messages.map (compressTool compress) = messages.map id := by
            rw [heq, map_id]
          exact map_inj_left.mp hid
        exact ⟨fun m hm => hfixed m (mem_of_mem_take hm), fun _ => hfixed⟩
      · intro hspares
        rw [map_congr_left (hspares.2 hfew), map_id']
  · rw [keepsStructure_compressed_iff (by omega) hremoves (by omega)]
    exact ⟨fun h => ⟨h, fun hle => absurd hle hfew⟩, fun h => h.1⟩

/-- What a compaction to the token budget promises of its result. -/
structure Compacts (estimate : List Message → ℕ) (compress : String → Option String)
    (messages : List Message) (minTailMessages : ℕ)
    (result : List Message × ContextCompactionReport) : Prop where
  keeps : KeepsStructure compress messages result.1 result.2.removedTurnGroups
  estimated : result.2.after = estimate result.1
  -- the removal ended because nothing more was asked for
  ended : ∀ b, result.2.budget = some b → result.2.tokenTriggered = true →
    ¬ asksStage estimate b.targetTokens b.maxInputTokens minTailMessages result.1
  hardLimit : ∀ b, result.2.budget = some b → b.maxInputTokens < result.2.after →
    countRealUsers result.1 ≤ 2
  untriggered : result.2.tokenTriggered = false → result.1 = messages
  -- of every list the removal passed through
  tail : ∀ b, result.2.budget = some b → ∀ gs earlier group next,
    gs.length < result.2.removedTurnGroups →
    Removes (degraded estimate compress b messages) gs earlier → Removes earlier [group] next →
    tailLen next < minTailMessages → b.maxInputTokens < estimate earlier

variable {estimate : List Message → ℕ} {cfg : TokenSettings} {beforeSummary minTailMessages : ℕ}
  {summarized : Bool}

theorem compacts_idle (compress : String → Option String)
    (h : ∀ b, ContextTokenBudget.fromConfig cfg = some b →
      triggered estimate b messages beforeSummary = false) :
    Compacts estimate compress messages minTailMessages
      (compactMessagesToTokenBudget estimate compress cfg messages beforeSummary summarized
        minTailMessages) := by
  rw [compact_idle h]
  refine ⟨keepsStructure_self compress messages, rfl, fun b hb ht => ?_, fun b hb hover => ?_,
    fun _ => rfl, fun b hb gs earlier group next hlt => ?_⟩
  · cases ht
  · -- the trigger lies below the hard limit
    have hle := (ContextTokenBudget.fromConfig_le hb).2
    have hnot := h b hb
    simp only [triggered, Bool.or_eq_false_iff, decide_eq_false_iff_not] at hnot
    simp only at hover
    omega
  · simp at hlt

/-- Once triggered, only the structure can fail. -/
theorem compacts_drains {b : ContextTokenBudget}
    (hb : ContextTokenBudget.fromConfig cfg = some b) {gs : List (List Message)}
    (hdrains : Drains (asksStage estimate b.targetTokens b.maxInputTokens minTailMessages)
      (degraded estimate compress b messages) gs output)
    {report : ContextCompactionReport} (hbudget : report.budget = some b)
    (hafter : report.after = estimate output) (hcount : report.removedTurnGroups = gs.length)
    (htriggered : report.tokenTriggered = true) :
    Compacts estimate compress messages minTailMessages (output, report) ↔
      KeepsStructure compress messages output gs.length := by
  constructor
  · intro h
    have hkeeps := h.keeps
    rwa [hcount] at hkeeps
  · intro hkeeps
    refine ⟨by rwa [hcount], hafter, fun b' hb' _ => ?_, fun b' hb' hover => ?_, fun hnot => ?_,
      fun b' hb' gs' earlier group next hlt hearlier hnext htail => ?_⟩
    · obtain rfl := Option.some.inj (hbudget.symm.trans hb')
      exact hdrains.stops
    · obtain rfl := Option.some.inj (hbudget.symm.trans hb')
      rw [hafter] at hover
      have hle := (ContextTokenBudget.fromConfig_le hb).1
      by_contra hmany
      have hmany' : 2 < countRealUsers output := Nat.lt_of_not_le hmany
      exact hdrains.stops ⟨hle.trans_lt hover, hmany', Or.inr hover⟩
    · rw [htriggered] at hnot
      cases hnot
    · obtain rfl := Option.some.inj (hbudget.symm.trans hb')
      simp only [hcount] at hlt
      obtain ⟨-, hmany, hguard⟩ := hdrains.asked hearlier hlt
      rcases hguard with hguard | hover
      · cases hnext with
        | more oldest later =>
          cases later with
          | none =>
            rw [oldest.removeOldestTurnGroup hmany] at hguard
            simp only at hguard
            omega
      · exact hover

/-- Once triggered and above the target, everything hangs on the bodies the first stage shortens. -/
theorem compacts_triggered_iff {b : ContextTokenBudget}
    (hb : ContextTokenBudget.fromConfig cfg = some b)
    (htriggered : triggered estimate b messages beforeSummary = true) :
    Compacts estimate compress messages minTailMessages
        (compactMessagesToTokenBudget estimate compress cfg messages beforeSummary summarized
          minTailMessages) ↔
      (b.targetTokens < estimate messages → SparesRecent compress messages) := by
  obtain ⟨gs, output, count, hdrains, heq⟩ :=
    compact_drains compress minTailMessages summarized hb htriggered
  rw [heq, compacts_drains hb hdrains rfl rfl rfl rfl]
  by_cases hover : b.targetTokens < estimate messages
  · have hdeg : degraded estimate compress b messages =
        (compressOldToolMessages compress messages minRecentTurnGroups).1 := if_pos hover
    rw [hdeg] at hdrains
    rw [keepsStructure_degraded_iff hdrains.removes (hdrains.keeps fun ms h => h.2.1)]
    exact ⟨fun h _ => h, fun h => h hover⟩
  · -- below the target nothing is shortened and nothing removed
    have hdeg : degraded estimate compress b messages = messages := if_neg hover
    rw [hdeg] at hdrains
    cases hdrains with
    | stop => exact iff_of_true (keepsStructure_self compress messages) fun h => absurd h hover
    | more h => exact absurd h.1 hover

/-- The compaction keeps all of it unless, above the target, the first stage shortens a tool body
before the first real user, or any at all where there are two groups at most. -/
theorem compaction_keeps_structure_iff (estimate : List Message → ℕ)
    (compress : String → Option String) (cfg : TokenSettings) (messages : List Message)
    (beforeSummary minTailMessages : ℕ) (summarized : Bool) :
    Compacts estimate compress messages minTailMessages
        (compactMessagesToTokenBudget estimate compress cfg messages beforeSummary summarized
          minTailMessages) ↔
      ∀ b, ContextTokenBudget.fromConfig cfg = some b →
        triggered estimate b messages beforeSummary = true →
        b.targetTokens < estimate messages → SparesRecent compress messages := by
  by_cases hidle : ∀ b, ContextTokenBudget.fromConfig cfg = some b →
      triggered estimate b messages beforeSummary = false
  · refine iff_of_true (compacts_idle compress hidle) fun b hb htriggered => ?_
    rw [hidle b hb] at htriggered
    cases htriggered
  · simp only [not_forall, Bool.not_eq_false] at hidle
    obtain ⟨b, hb, htriggered⟩ := hidle
    rw [compacts_triggered_iff hb htriggered]
    constructor
    · intro h b' hb' _
      obtain rfl := Option.some.inj (hb.symm.trans hb')
      exact h
    · intro h
      exact h b hb htriggered

/-- A plain text over the limit is cut and gets the note about it. -/
theorem maybeCompressToolMessageContent_ne (envelope : String → ℕ → Option (Option String))
    {content : String} (hplain : envelope content degradeToolMaxChars = none)
    (hlong : degradeToolMaxChars < content.length) (hline : '\n' ∉ content.toList) :
    ∃ next, maybeCompressToolMessageContent envelope content degradeToolMaxChars = some next ∧
      next ≠ content := by
  have hmax : max degradeToolMaxChars 256 = degradeToolMaxChars := by decide
  simp only [maybeCompressToolMessageContent, hmax, if_neg (Nat.not_le.mpr hlong), hplain]
  refine ⟨_, rfl, fun heq => hline ?_⟩
  rw [← heq]
  simp only [String.toList_append, mem_append, or_assoc]
  exact Or.inr (Or.inl (by decide))

/-- One turn whose only tool result has more than 2000 characters, above the target: the result is
cut, though it stands in the last group. -/
theorem compaction_shortens_last_group :
    ¬ ∀ (estimate : List Message → ℕ) (envelope : String → ℕ → Option (Option String))
        (cfg : TokenSettings) (messages : List Message) (beforeSummary minTailMessages : ℕ),
      Compacts estimate (maybeCompressToolMessageContent envelope · degradeToolMaxChars) messages
        minTailMessages (compactMessagesToTokenBudget estimate
          (maybeCompressToolMessageContent envelope · degradeToolMaxChars) cfg messages
          beforeSummary false minTailMessages) := by
  intro h
  obtain ⟨long, hlong, hline⟩ : ∃ long : String, degradeToolMaxChars < long.length ∧
      '\n' ∉ long.toList := by
    refine ⟨String.ofList (List.replicate 2001 'x'), ?_, ?_⟩
    · rw [String.length_ofList, length_replicate]
      decide
    · rw [String.toList_ofList]
      exact fun hmem => absurd (eq_of_mem_replicate hmem) (by decide)
  let result : Message := ⟨"tool", some (.text long), none, none, none, none, some "c"⟩
  let call : Message := ⟨"assistant", none, none, none,
    some [⟨"c", "function", ⟨"read_file", "\x7b\x7d"⟩⟩], none, none⟩
  let cfg : TokenSettings := ⟨1000, 100, 0, none, none⟩
  have hb : ContextTokenBudget.fromConfig cfg = some ⟨1000, 100, 0, 900, 765, 630⟩ := by decide
  have hcount : countRealUsers [.userOnly "a", call, result] = 1 := rfl
  have hspares := (compacts_triggered_iff hb rfl).mp
    (h (fun ms => 300 * ms.length) (fun _ _ => none) cfg [.userOnly "a", call, result] 900 0)
    (show 630 < 900 by decide)
  have hfixed := hspares.2 (by omega) result (by simp)
  obtain ⟨next, hnext, hne⟩ := maybeCompressToolMessageContent_ne (fun _ _ => none) rfl hlong
    hline
  have hcompressed : compressedTool? (maybeCompressToolMessageContent (fun _ _ => none) ·
      degradeToolMaxChars) result = some { result with content := some (.text next) } := by
    simp [compressedTool?, result, hnext]
  rw [compressTool, hcompressed, Option.getD_some] at hfixed
  have htext := congrArg Message.content hfixed
  simp only [result, Option.some.injEq, MessageContent.text.injEq] at htext
  exact hne htext

end Structure
end CrabMate
