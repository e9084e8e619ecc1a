import CrabMate.Lib.Paired
import CrabMate.Session.Operations

/-! The same conversations in the map and in the tables, and the retention policy on both. -/
namespace CrabMate
open List Table

variable {J : Type}

/-- The settings a load of the row returns. -/
def ConversationRow.settings (row : ConversationRow J) : ActiveState :=
  ⟨nonemptyPersistedColumn row.activeAgentRole, nonemptyPersistedColumn row.activeSessionMode,
    nonemptyPersistedColumn row.activePermissionLevel⟩

def MemoryConversationEntry.settings (e : MemoryConversationEntry) : ActiveState :=
  ⟨e.activeAgentRole, e.activeSessionMode, e.activePermissionLevel⟩

/-- The entry and the row hold the same conversation. -/
structure RowAgrees (wire : Wire J) (e : MemoryConversationEntry) (row : ConversationRow J) :
    Prop where
  id : e.id = row.id
  messages : wire.messagesFromJson row.messagesJson = .ok e.messages
  revision : e.revision = row.revision
  updatedAt : e.updatedAt = nanos row.updatedAtUnix
  settings : e.settings = row.settings

/-- The map and the tables hold the same conversations, and nothing is archived. -/
structure BackendsAgree (wire : Wire J) (map : MemoryMap) (db : Db J) : Prop where
  rows : Table.Paired (RowAgrees wire) map db.conversations
  archive : db.archive = .empty

variable {wire : Wire J} {map map' : MemoryMap} {db : Db J} {r : ConversationRetention} {now : ℤ}
  {id : String} {e : MemoryConversationEntry} {row : ConversationRow J}

theorem nanos_lt_nanos {a b : ℤ} : nanos a < nanos b ↔ a < b := by
  unfold nanos
  omega

/-- Both backends measure the age in full seconds. -/
theorem expired_iff (a b : ℤ) (secs : ℕ) :
    nanos a - nanos b > fromSecs secs ↔ a - b > secs := by
  unfold nanos fromSecs
  omega

theorem RowAgrees.fresh_eq (h : RowAgrees wire e row) :
    e.fresh r now = !decide (0 < r.ttlSecs ∧ row.updatedAtUnix < now - r.ttlSecs) := by
  rw [MemoryConversationEntry.fresh, h.updatedAt, Bool.eq_iff_iff, decide_eq_true_iff,
    Bool.not_eq_true', decide_eq_false_iff_not, not_and, not_lt]
  refine forall_congr' fun _ => ?_
  have hage := expired_iff now row.updatedAtUnix r.ttlSecs
  omega

theorem RowAgrees.stamp_lt (h : RowAgrees wire e row) (bound : ℤ) :
    decide (e.updatedAt < nanos bound) = decide (row.updatedAtUnix < bound) := by
  rw [h.updatedAt, decide_eq_decide, nanos_lt_nanos]

section Drop

/-- The map without its expired entries. -/
def freshEntries (r : ConversationRetention) (now : ℤ) (map : MemoryMap) : MemoryMap :=
  map.deleteWhere fun e => !e.fresh r now

/-- Some second tells the entries that have to go from the others. -/
def DropsBefore (r : ConversationRetention) (now bound : ℤ) (map : MemoryMap) : Prop :=
  (freshEntries r now map).rows.countP (fun e => e.updatedAt < nanos bound) =
    (freshEntries r now map).rows.length - r.maxEntries

theorem freshEntries_eq (map : MemoryMap) :
    (if 0 < r.ttlSecs then
      map.deleteWhere fun e => !decide (nanos now - e.updatedAt ≤ fromSecs r.ttlSecs)
    else map) = freshEntries r now map := by
  split
  · next hpos =>
    apply Table.ext
    simp [freshEntries, MemoryConversationEntry.fresh, hpos]
  · next hpos =>
    have hall : map.rows.countP (fun e => !e.fresh r now) = 0 := by
      simp [MemoryConversationEntry.fresh, hpos]
    exact (deleteWhere_eq_self hall).symm

theorem pruneMemoryLocked_unlimited (iteration : Iteration) (h : r.maxEntries = 0) :
    pruneMemoryLocked iteration map (nanos now) r.ttlSecs r.maxEntries =
      freshEntries r now map := by
  rw [pruneMemoryLocked, freshEntries_eq]
  simp [h]

theorem pruneMemoryLocked_limited (iteration : Iteration) {bound : ℤ} (hmax : 0 < r.maxEntries)
    (h : DropsBefore r now bound map) :
    pruneMemoryLocked iteration map (nanos now) r.ttlSecs r.maxEntries =
      (freshEntries r now map).deleteWhere fun e => decide (e.updatedAt < nanos bound) := by
  rw [pruneMemoryLocked, freshEntries_eq]
  have hclosed : ∀ a b : MemoryConversationEntry, a.updatedAt ≤ b.updatedAt →
      decide (b.updatedAt < nanos bound) = true → decide (a.updatedAt < nanos bound) = true := by
    simp only [decide_eq_true_eq]
    omega
  rw [← dropOldest_eq (iteration.perm _) hclosed h]
  have hne : r.maxEntries ≠ 0 := by omega
  simp only [hne, false_or]

/-- The rows that have not expired. -/
def freshRows (r : ConversationRetention) (now : ℤ) (t : Table (ConversationRow.id (J := J))) :
    Table (ConversationRow.id (J := J)) :=
  t.deleteWhere fun row => decide (0 < r.ttlSecs ∧ row.updatedAtUnix < now - r.ttlSecs)

theorem conversations_dropConversations (db : Db J) (p : ConversationRow J → Bool) :
    (dropConversations db p).conversations = db.conversations.deleteWhere p := by
  apply Table.ext
  refine filter_congr fun row hrow => congrArg not ?_
  rw [Bool.eq_iff_iff, contains_iff_mem, mem_map]
  constructor
  · rintro ⟨other, hother, hid⟩
    obtain ⟨hmem, hp⟩ := mem_filter.mp hother
    rwa [← inj_on_of_nodup_map db.conversations.nodup hmem hrow hid]
  · exact fun hp => ⟨row, mem_filter.mpr ⟨hrow, hp⟩, rfl⟩

theorem archive_dropConversations (p : ConversationRow J → Bool) (h : db.archive = .empty) :
    (dropConversations db p).archive = .empty := by
  rw [dropConversations, Db.archive_deleteConversations, Db.archive_deleteArchive, h]
  rfl

theorem freshRows_eq (db : Db J) :
    (if 0 < r.ttlSecs then pruneExpiredByTtl db (now - r.ttlSecs) else db).conversations =
      freshRows r now db.conversations := by
  split
  · next hpos =>
    rw [pruneExpiredByTtl, conversations_dropConversations]
    apply Table.ext
    simp [freshRows, hpos]
  · next hpos =>
    have hall : db.conversations.rows.countP
        (fun row => decide (0 < r.ttlSecs ∧ row.updatedAtUnix < now - r.ttlSecs)) = 0 := by
      simp [hpos]
    exact (deleteWhere_eq_self hall).symm

theorem conversations_prune (db : Db J) (archiveNow : ℤ) (archiveMaxRows : ℕ) :
    (prune now archiveNow db r.ttlSecs r.maxEntries archiveMaxRows).conversations =
      (pruneConversations now db r.ttlSecs r.maxEntries).conversations :=
  (pruneArchive_pruned _ _ _ _).conversations

theorem conversations_prune_unlimited (db : Db J) (archiveNow : ℤ) (archiveMaxRows : ℕ)
    (h : r.maxEntries = 0) :
    (prune now archiveNow db r.ttlSecs r.maxEntries archiveMaxRows).conversations =
      freshRows r now db.conversations := by
  rw [conversations_prune, pruneConversations, if_neg (by omega), freshRows_eq]

theorem conversations_pruneOverflowEntries (db : Db J) (maxEntries : ℕ) :
    (pruneOverflowEntries db maxEntries).conversations =
      if db.conversations.rows.length ≤ maxEntries then db.conversations
      else db.conversations.deleteWhere fun row =>
        (((db.conversations.rows.insertionSort fun a b => a.updatedAtUnix ≤ b.updatedAtUnix).take
          (db.conversations.rows.length - maxEntries)).map ConversationRow.id).contains row.id := by
  unfold pruneOverflowEntries
  simp only
  split
  · rfl
  · exact conversations_dropConversations _ _

theorem conversations_prune_limited (db : Db J) (archiveNow : ℤ) (archiveMaxRows : ℕ) {bound : ℤ}
    (hmax : 0 < r.maxEntries)
    (h : (freshRows r now db.conversations).rows.countP (fun row => row.updatedAtUnix < bound) =
      (freshRows r now db.conversations).rows.length - r.maxEntries) :
    (prune now archiveNow db r.ttlSecs r.maxEntries archiveMaxRows).conversations =
      (freshRows r now db.conversations).deleteWhere fun row =>
        decide (row.updatedAtUnix < bound) := by
  have hclosed : ∀ a b : ConversationRow J, a.updatedAtUnix ≤ b.updatedAtUnix →
      decide (b.updatedAtUnix < bound) = true → decide (a.updatedAtUnix < bound) = true := by
    simp only [decide_eq_true_eq]
    omega
  rw [← dropOldest_eq (List.Perm.refl _) hclosed h, conversations_prune, pruneConversations,
    if_pos hmax, conversations_pruneOverflowEntries, freshRows_eq]

theorem archive_pruneOverflowEntries (maxEntries : ℕ) (h : db.archive = .empty) :
    (pruneOverflowEntries db maxEntries).archive = .empty := by
  unfold pruneOverflowEntries
  simp only
  split
  · exact h
  · exact archive_dropConversations _ h

theorem archive_prune (archiveNow : ℤ) (ttlSecs maxEntries archiveMaxRows : ℕ)
    (h : db.archive = .empty) :
    (prune now archiveNow db ttlSecs maxEntries archiveMaxRows).archive = .empty := by
  have hconversations : (pruneConversations now db ttlSecs maxEntries).archive = .empty := by
    have hexpired : (if 0 < ttlSecs then pruneExpiredByTtl db (now - ttlSecs) else db).archive =
        .empty := by
      split
      · exact archive_dropConversations _ h
      · exact h
    rw [pruneConversations]
    by_cases hmax : 0 < maxEntries
    · rw [if_pos hmax]
      exact archive_pruneOverflowEntries _ hexpired
    · rwa [if_neg hmax]
  have hsub := (pruneArchive_pruned archiveNow (pruneConversations now db ttlSecs maxEntries)
    ttlSecs archiveMaxRows).archive
  rw [hconversations] at hsub
  exact Table.ext (sublist_nil.mp hsub)

/-- On the same conversations the retention policy drops the same ones, when their seconds
decide. -/
theorem BackendsAgree.prune (h : BackendsAgree wire map db) (iteration : Iteration)
    (archiveNow : ℤ) (archiveMaxRows : ℕ)
    (hdrop : 0 < r.maxEntries → ∃ bound, DropsBefore r now bound map) :
    BackendsAgree wire (pruneMemoryLocked iteration map (nanos now) r.ttlSecs r.maxEntries)
      (prune now archiveNow db r.ttlSecs r.maxEntries archiveMaxRows) where
  archive := archive_prune archiveNow _ _ _ h.archive
  rows := by
    have hfresh : Table.Paired (RowAgrees wire) (freshEntries r now map)
        (freshRows r now db.conversations) :=
      h.rows.deleteWhere fun e row hrow => by rw [hrow.fresh_eq, Bool.not_not]
    by_cases hmax : 0 < r.maxEntries
    · obtain ⟨bound, hbound⟩ := hdrop hmax
      have hcount : (freshRows r now db.conversations).rows.countP
          (fun row => row.updatedAtUnix < bound) =
            (freshRows r now db.conversations).rows.length - r.maxEntries := by
        rw [← hfresh.countP fun e row hrow => hrow.stamp_lt bound, ← hfresh.length_eq]
        exact hbound
      rw [pruneMemoryLocked_limited iteration hmax hbound,
        conversations_prune_limited db archiveNow archiveMaxRows hmax hcount]
      exact hfresh.deleteWhere fun e row hrow => hrow.stamp_lt bound
    · have hzero : r.maxEntries = 0 := by omega
      rwa [pruneMemoryLocked_unlimited iteration hzero,
        conversations_prune_unlimited db archiveNow archiveMaxRows hzero]

end Drop

section Stamped

theorem fresh_of_stamp (h : e.updatedAt = nanos now) : e.fresh r now = true := by
  have hage : nanos now - e.updatedAt ≤ fromSecs r.ttlSecs := by
    unfold fromSecs
    omega
  simp [MemoryConversationEntry.fresh, hage]

/-- After the conversation `id` was stamped, the condition on the other conversations says which
ones go. -/
theorem DropsByStamp.dropsBefore (h : DropsByStamp r now map id) (hrow : map'.lookup id = some e)
    (hstamp : e.updatedAt = nanos now)
    (hothers : map'.rows.filter (fun e => e.id ≠ id) = map.rows.filter fun e => e.id ≠ id)
    (hmax : 0 < r.maxEntries) : ∃ bound, DropsBefore r now bound map' := by
  obtain ⟨bound, hle, hcount⟩ := h hmax
  refine ⟨bound, ?_⟩
  obtain ⟨before, after, hrows, hbefore, hafter⟩ := exists_rows_eq hrow
  have hid : e.id = id := (Table.lookup_eq_some_iff.mp hrow).2
  have hrest : (before ++ after).filter (fun e => e.fresh r now) = otherEntries r now map id := by
    have hkeep : map'.rows.filter (fun e => e.id ≠ id) = before ++ after := by
      rw [hrows]
      have hsplit := filter_delete_split hid hbefore hafter
      simpa using hsplit
    rw [otherEntries, ← hkeep, hothers, filter_filter]
    exact filter_congr fun e _ => Bool.and_comm _ _
  have hall : (freshEntries r now map').rows =
      before.filter (fun e => e.fresh r now) ++ e :: after.filter fun e => e.fresh r now := by
    simp [freshEntries, hrows, fresh_of_stamp hstamp]
  have hlate : ¬ e.updatedAt < nanos bound := by
    rw [hstamp, nanos_lt_nanos]
    omega
  rw [← hrest, filter_append, countP_append, length_append] at hcount
  rw [DropsBefore, hall, countP_append, countP_cons_of_neg (by simpa using hlate),
    length_append, length_cons]
  omega

theorem freshEntries_of_retained (h : Retained r now map) : freshEntries r now map = map := by
  refine deleteWhere_eq_self (countP_eq_zero.mpr fun e he => ?_)
  simp [h.1 e he]

theorem pruneMemoryLocked_of_retained (h : Retained r now map) (iteration : Iteration) :
    pruneMemoryLocked iteration map (nanos now) r.ttlSecs r.maxEntries = map := by
  rw [pruneMemoryLocked, freshEntries_eq, freshEntries_of_retained h]
  simp only
  split
  · rfl
  · next hmany =>
    have hmax := h.2
    omega

theorem exists_early (rows : List MemoryConversationEntry) :
    ∃ bound, ∀ e ∈ rows, ¬ e.updatedAt < nanos bound := by
  induction rows with
  | nil => exact ⟨0, fun e he => absurd he not_mem_nil⟩
  | cons e rows ih =>
    obtain ⟨bound, hbound⟩ := ih
    refine ⟨min bound (min e.updatedAt 0), forall_mem_cons.mpr ⟨?_, fun e' he' => ?_⟩⟩
    · unfold nanos
      omega
    · have hlate := hbound e' he'
      unfold nanos at hlate ⊢
      omega

theorem BackendsAgree.prune_retained (h : BackendsAgree wire map db)
    (hretained : Retained r now map) (archiveNow : ℤ) (archiveMaxRows : ℕ) :
    BackendsAgree wire map
      (CrabMate.prune now archiveNow db r.ttlSecs r.maxEntries archiveMaxRows) := by
  have hdrop : 0 < r.maxEntries → ∃ bound, DropsBefore r now bound map := by
    intro hmax
    obtain ⟨bound, hbound⟩ := exists_early map.rows
    refine ⟨bound, ?_⟩
    have hnone : map.rows.countP (fun e => decide (e.updatedAt < nanos bound)) = 0 := by
      rw [countP_eq_zero]
      exact fun e he => by simpa using hbound e he
    have hfew := hretained.2 hmax
    rw [DropsBefore, freshEntries_of_retained hretained, hnone]
    omega
  have hprune := h.prune ⟨fun entries => entries, fun _ => List.Perm.refl _⟩ archiveNow
    archiveMaxRows hdrop
  rwa [pruneMemoryLocked_of_retained hretained] at hprune

end Stamped
end CrabMate
