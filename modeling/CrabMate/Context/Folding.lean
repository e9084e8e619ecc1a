import CrabMate.Context.Compaction

/-! Folding the middle of a view into a summary. The kept tail is snapped to whole turn groups,
so that the cleanup of orphaned tool results behind the fold finds nothing to do. -/
namespace CrabMate
open Positions List

section Groups

variable {messages : List Message}

theorem length_conversationTurnGroups (messages : List Message) :
    (conversationTurnGroups messages).length = countRealUsers messages := by
  simp [conversationTurnGroups, length_indices, countRealUsers]

theorem start_conversationTurnGroups (messages : List Message) (k : ℕ) :
    ((conversationTurnGroups messages)[k]?).map ConversationTurnGroup.start =
      nthRealUserIndex messages k := by
  rw [nthRealUserIndex, nthIndex]
  cases hk : (indices realUser messages)[k]? with
  | none =>
    have hlen : (indices realUser messages).length ≤ k := List.getElem?_eq_none_iff.mp hk
    rw [getElem?_eq_none (by simpa [conversationTurnGroups] using hlen), Option.map_none]
  | some i => simp [conversationTurnGroups, getElem?_zipIdx, hk]

theorem firstUser_split (messages : List Message) :
    (∀ m ∈ messages, realUser m = false) ∨
      ∃ head u rest, messages = head ++ u :: rest ∧ (∀ m ∈ head, realUser m = false) ∧
        realUser u = true := by
  induction messages with
  | nil => exact Or.inl (by simp)
  | cons m messages ih =>
    cases hm : realUser m with
    | true => exact Or.inr ⟨[], m, messages, rfl, by simp, hm⟩
    | false =>
      rcases ih with hnone | ⟨head, u, rest, rfl, hhead, hu⟩
      · exact Or.inl (by simpa [hm] using hnone)
      · exact Or.inr ⟨m :: head, u, rest, rfl, by simpa [hm] using hhead, hu⟩

/-- The oldest turn group and what stands around it. -/
structure OldestGroup (messages head group rest : List Message) : Prop where
  split : messages = head ++ (group ++ rest)
  head : ∀ m ∈ head, realUser m = false
  group : ∃ g gs, group = g :: gs ∧ realUser g = true ∧ ∀ m ∈ gs, realUser m = false
  rest : ∀ x ∈ rest.head?, realUser x = true

theorem OldestGroup.countRealUsers {messages head group rest : List Message}
    (h : OldestGroup messages head group rest) :
    countRealUsers messages = countRealUsers rest + 1 := by
  obtain ⟨g, gs, rfl, hg, hgs⟩ := h.group
  have hhead : head.countP realUser = 0 := countP_eq_zero.mpr fun m hm => by simp [h.head m hm]
  have hrest : gs.countP realUser = 0 := countP_eq_zero.mpr fun m hm => by simp [hgs m hm]
  rw [h.split]
  simp only [CrabMate.countRealUsers, countP_append, countP_cons_of_pos hg, hhead, hrest]
  omega

theorem OldestGroup.countRealUsers_rest {messages head group rest : List Message}
    (h : OldestGroup messages head group rest) :
    CrabMate.countRealUsers (head ++ rest) = CrabMate.countRealUsers rest := by
  have hhead : head.countP realUser = 0 := countP_eq_zero.mpr fun m hm => by simp [h.head m hm]
  rw [CrabMate.countRealUsers, countP_append, hhead, Nat.zero_add, CrabMate.countRealUsers]

theorem OldestGroup.indices {messages head group rest : List Message}
    (h : OldestGroup messages head group rest) :
    indices realUser messages = head.length ::
      (indices realUser rest).map (· + (head ++ group).length) := by
  obtain ⟨g, gs, rfl, hg, hgs⟩ := h.group
  rw [h.split, ← append_assoc, indices_append, indices_append_cons hg hgs,
    indices_eq_nil_iff.mpr h.head]
  simp

theorem OldestGroup.head?_conversationTurnGroups {messages head group rest : List Message}
    (h : OldestGroup messages head group rest) :
    (conversationTurnGroups messages).head? =
      some ⟨head.length, head.length + group.length⟩ := by
  have hlen : messages.length = head.length + group.length + rest.length := by
    rw [h.split]
    simp only [length_append]
    omega
  rw [conversationTurnGroups, h.indices]
  simp only [zipIdx_cons, map_cons, head?_cons, Nat.zero_add,
    getElem?_cons_succ, getElem?_map, Option.some.injEq,
    ConversationTurnGroup.mk.injEq, true_and]
  cases rest with
  | nil => simp [hlen]
  | cons x rest =>
    have hx : realUser x = true := h.rest x rfl
    simp [indices_cons, hx]

theorem OldestGroup.start_second {messages head group rest : List Message}
    (h : OldestGroup messages head group rest) (hrest : rest ≠ []) :
    ((conversationTurnGroups messages)[1]?).map ConversationTurnGroup.start =
      some (head ++ group).length := by
  rw [start_conversationTurnGroups, nthRealUserIndex, nthIndex, h.indices]
  cases rest with
  | nil => exact absurd rfl hrest
  | cons x rest =>
    have hx : realUser x = true := h.rest x rfl
    simp [indices_cons, hx]

theorem exists_oldestGroup (h : 0 < countRealUsers messages) :
    ∃ head group rest, OldestGroup messages head group rest := by
  rcases firstUser_split messages with hnone | ⟨head, g, behind, rfl, hhead, hg⟩
  · have hzero : countRealUsers messages = 0 :=
      countP_eq_zero.mpr fun m hm => by simp [hnone m hm]
    omega
  · rcases firstUser_split behind with hnone | ⟨gs, x, rest, rfl, hgs, hx⟩
    · exact ⟨head, g :: behind, [], by simp, hhead, ⟨g, behind, rfl, hg, hnone⟩, by simp⟩
    · exact ⟨head, g :: gs, x :: rest, by simp, hhead, ⟨g, gs, rfl, hg, hgs⟩, by simp [hx]⟩

theorem OldestGroup.take_drop {head group rest : List Message}
    (h : OldestGroup messages head group rest) :
    messages.take head.length ++ messages.drop (head.length + group.length) = head ++ rest := by
  have hstop : head.length + group.length = (head ++ group).length := by simp
  rw [h.split, take_left, ← append_assoc, hstop, drop_left]

theorem OldestGroup.removeOldestTurnGroup {head group rest : List Message}
    (h : OldestGroup messages head group rest) {minGroupsToKeep : ℕ}
    (hlt : minGroupsToKeep < CrabMate.countRealUsers messages) :
    removeOldestTurnGroup messages minGroupsToKeep =
      (head ++ rest, ⟨head.length, group.length⟩) := by
  have hfirst := h.head?_conversationTurnGroups
  have hnot : ¬ (conversationTurnGroups messages).length ≤ minGroupsToKeep := by
    rw [length_conversationTurnGroups]
    omega
  rw [CrabMate.removeOldestTurnGroup, if_neg hnot]
  cases hgroups : conversationTurnGroups messages with
  | nil => simp [hgroups] at hfirst
  | cons oldest others =>
    rw [hgroups, head?_cons, Option.some.injEq] at hfirst
    subst hfirst
    simp only [h.take_drop, Nat.add_sub_cancel_left]

/-- What a removal does: nothing, or it takes the oldest group out and says where it stood. -/
theorem removeOldestTurnGroup_cases (messages : List Message) (minGroupsToKeep : ℕ) :
    (countRealUsers messages ≤ minGroupsToKeep ∧
      removeOldestTurnGroup messages minGroupsToKeep = (messages, ⟨0, 0⟩)) ∨
    (minGroupsToKeep < countRealUsers messages ∧ ∃ head group rest,
      OldestGroup messages head group rest ∧
      removeOldestTurnGroup messages minGroupsToKeep =
        (head ++ rest, ⟨head.length, group.length⟩)) := by
  rcases Nat.lt_or_ge minGroupsToKeep (countRealUsers messages) with hlt | hle
  · obtain ⟨head, group, rest, hold⟩ := exists_oldestGroup (Nat.zero_lt_of_lt hlt)
    exact Or.inr ⟨hlt, head, group, rest, hold, hold.removeOldestTurnGroup hlt⟩
  · refine Or.inl ⟨hle, ?_⟩
    rw [removeOldestTurnGroup, if_pos (by rwa [length_conversationTurnGroups])]

theorem one_le_firstKeptGroup (messages : List Message) (groups : List ConversationTurnGroup) (requestedTail : ℕ)
    {n : ℕ} (hn : 1 ≤ n) : 1 ≤ firstKeptGroup messages groups requestedTail n ∧
      firstKeptGroup messages groups requestedTail n ≤ n := by
  fun_induction firstKeptGroup messages groups requestedTail n with
  | case1 => omega
  | case2 => omega
  | case3 k _ ih =>
    obtain ⟨hpos, hle⟩ := ih (by omega)
    omega
  | case4 => omega

/-- The kept tail starts at a real user with a group before it and another behind it. -/
theorem completeTurnGroupTailLen_groups {requestedTail tail : ℕ}
    (h : completeTurnGroupTailLen messages requestedTail = some tail) :
    ∃ pre u post, messages = pre ++ u :: post ∧ realUser u = true ∧
      tail = (u :: post).length ∧ 1 ≤ countRealUsers pre ∧ 2 ≤ countRealUsers (u :: post) := by
  simp only [completeTurnGroupTailLen] at h
  split at h
  · cases h
  · next hgroups =>
    rw [length_conversationTurnGroups] at h hgroups
    set kept := firstKeptGroup messages (conversationTurnGroups messages) requestedTail
      (countRealUsers messages - 2) with hkept
    obtain ⟨hpos, hle⟩ := one_le_firstKeptGroup messages
      (conversationTurnGroups messages) requestedTail (n := countRealUsers messages - 2) (by omega)
    rw [← hkept] at hpos hle
    obtain ⟨g, hg, rfl⟩ := Option.map_eq_some_iff.mp h
    have hstart : nthRealUserIndex messages kept = some g.start := by
      rw [← start_conversationTurnGroups, hg, Option.map_some]
    obtain ⟨pre, u, post, rfl, hlen, hu, hcount⟩ := nthIndex_eq_some hstart
    have htotal : countRealUsers (pre ++ u :: post) =
        countRealUsers pre + countRealUsers (u :: post) := countP_append
    have hpre : countRealUsers pre = kept := hcount
    refine ⟨pre, u, post, rfl, hu, ?_, by omega, by omega⟩
    rw [length_append, hlen]
    omega

end Groups

section Orphans

/-- Where the cleanup finds nothing to drop, it finds nothing behind a row that is no result. -/
theorem dropOrphansAfter_behind {pre post : List Message} {u : Message} (hu : u.role ≠ "tool")
    {prev : Option Message} (h : dropOrphansAfter prev (pre ++ u :: post) = pre ++ u :: post) :
    dropOrphansAfter prev pre = pre ∧ dropOrphansAfter (some u) post = post := by
  rw [dropOrphansAfter_split hu] at h
  have hpre := dropOrphansAfter_sublist prev pre
  have hpost := dropOrphansAfter_sublist (some u) post
  have hlen := congrArg List.length h
  simp only [length_append, length_cons] at hlen
  have h₁ := hpre.length_le
  have h₂ := hpost.length_le
  exact ⟨hpre.eq_of_length (by omega), hpost.eq_of_length (by omega)⟩

theorem role_head_of_no_orphans {m : Message} {ms : List Message}
    (h : dropOrphanToolMessages (m :: ms) = m :: ms) : m.role ≠ "tool" := by
  intro hrole
  have hlen := (dropOrphansAfter_sublist none ms).length_le
  rw [dropOrphanToolMessages, dropOrphansAfter, if_pos ⟨hrole, rfl⟩] at h
  rw [h, length_cons] at hlen
  omega

theorem role_userContextSummaryInjection (summaryText : String) :
    (Message.userContextSummaryInjection summaryText).role = "user" := rfl

end Orphans

/-- A fold over a list without orphaned results keeps the head row and the tail, which starts
at a real user and holds two groups or more, and puts one summary in place of the rest. -/
theorem summary_fold_keeps_tail {messages : List Message} {requestedTail tail : ℕ}
    (summaryText : String) (horphans : dropOrphanToolMessages messages = messages)
    (htail : completeTurnGroupTailLen messages requestedTail = some tail) :
    let tailStart := messages.length - tail
    ((messages.drop tailStart).head?.any realUser = true ∧ (messages.drop tailStart).length = tail) ∧
    2 ≤ (conversationTurnGroups (messages.drop tailStart)).length ∧
    1 ≤ (conversationTurnGroups (messages.take tailStart)).length ∧
    ((messages.head?.any fun m => m.role == "system") = true →
      1 ≤ (conversationTurnGroups (slice messages 1 tailStart)).length) ∧
    messages = messages.take 1 ++ (slice messages 1 tailStart ++ messages.drop tailStart) ∧
    applyLlmSummaryToMessages messages tail summaryText =
      messages.take 1 ++ .userContextSummaryInjection summaryText :: messages.drop tailStart := by
  obtain ⟨pre, u, post, rfl, hu, rfl, hpre, hpost⟩ := completeTurnGroupTailLen_groups htail
  have hstart : (pre ++ u :: post).length - (u :: post).length = pre.length := by simp
  have htool := role_ne_tool_of_realUser hu
  obtain ⟨m, ms, rfl⟩ : ∃ m ms, pre = m :: ms := by
    cases pre with
    | nil => simp [countRealUsers] at hpre
    | cons m ms => exact ⟨m, ms, rfl⟩
  simp only [hstart, drop_left, take_left, length_conversationTurnGroups]
  have hsplit : (m :: ms) ++ u :: post =
      ((m :: ms) ++ u :: post).take 1 ++ (slice ((m :: ms) ++ u :: post) 1 (m :: ms).length ++
        ((m :: ms) ++ u :: post).drop (m :: ms).length) :=
    (take_slice_drop _ (by simp)).symm
  rw [drop_left] at hsplit
  refine ⟨⟨by simp [hu], trivial⟩, hpost, hpre, ?_, hsplit, ?_⟩
  · intro hsys
    have hrole : m.role = "system" := by simpa using hsys
    have hm : realUser m = false := Message.not_realUser_of_system hrole
    simpa [slice, countRealUsers, hm] using hpre
  · have hm : m.role ≠ "tool" := role_head_of_no_orphans horphans
    have hbehind := (dropOrphansAfter_behind htool horphans).2
    have hsum : (Message.userContextSummaryInjection summaryText).role ≠ "tool" := by
      rw [role_userContextSummaryInjection]
      decide
    rw [applyLlmSummaryToMessages, hstart, drop_left]
    simp only [cons_append, take_succ_cons, take_zero, nil_append,
      dropOrphanToolMessages]
    rw [dropOrphansAfter_of_not_tool hm, dropOrphansAfter_of_not_tool hsum,
      dropOrphansAfter_of_not_tool htool, hbehind]

/-- Three turns with a requested tail of one row: the last two turns are kept. -/
theorem summary_fold_keeps_two_turns :
    completeTurnGroupTailLen ([⟨"system", some (.text "s"), none, none, none, none, none⟩] ++
      [.userOnly "a", .userOnly "b", .userOnly "c"]) 1 = some 2 ∧
    applyLlmSummaryToMessages ([⟨"system", some (.text "s"), none, none, none, none, none⟩] ++
      [.userOnly "a", .userOnly "b", .userOnly "c"]) 2 "x" =
      [⟨"system", some (.text "s"), none, none, none, none, none⟩,
        .userContextSummaryInjection "x", .userOnly "b", .userOnly "c"] :=
  ⟨by decide, (summary_fold_keeps_tail "x" (by decide)
    (show completeTurnGroupTailLen _ 1 = some 2 by decide)).2.2.2.2.2⟩

end CrabMate
