import CrabMate.Store.Replay

/-! Branch truncation against the history of a conversation. The tables are run together with
the real users each conversation has seen; the archive tells the truncation how many of them
left the stored row. It does so while pruning takes the first archive row before any other
and a conversation starts without archive rows. -/
namespace CrabMate
open List

variable {J : Type} (wire : Wire J)

/-- The real users in the stored row of a conversation. -/
def storedUsers (db : Db J) (id : String) : List Message :=
  match db.conversations.lookup id with
  | none => []
  | some row =>
    match wire.messagesFromJson row.messagesJson with
    | .ok messages => users messages
    | .error _ => []

/-- The real users readable from a conversation: its archive rows, then its stored row. -/
def remainingUsers (db : Db J) (id : String) : Option (List Message) := do
  let archived ← (loadArchiveMessages wire db id).toOption
  let row ← db.conversations.lookup id
  let stored ← (wire.messagesFromJson row.messagesJson).toOption
  return users (archived ++ stored)

/-- A save replaces the stored end of the history by the prefix it archives and the messages
it stores, a truncation cuts the history at its ordinal. -/
def historyAfter (s : Tracked J) (op : StoreOp J) (id : String) : List Message :=
  match op with
  | .save now archiveNow id' messages active expectedRevision commit codecMinBytes =>
    match saveWithArchiveIfRevision wire now archiveNow s.db id' messages active expectedRevision
      (archiveRowsFromStructuralCommit commit.1) codecMinBytes with
    | .ok (.saved, _) =>
      if id = id' then
        (match s.db.conversations.lookup id with
        | none => []
        | some _ =>
          (s.history id).take ((s.history id).length - (storedUsers wire s.db id).length)) ++
        users commit.1.archivedPrefix ++ users messages
      else s.history id
    | _ => s.history id
  | .truncate now id' userOrdinal expectedRevision =>
    match truncateBeforeUserOrdinalIfRevision wire now s.db id' userOrdinal expectedRevision with
    | .ok (.saved, _) => if id = id' then (s.history id).take userOrdinal else s.history id
    | _ => s.history id
  | _ => s.history id

def trackedStep (s : Tracked J) (op : StoreOp J) : Tracked J :=
  ⟨step wire s.db op, historyAfter wire s op⟩

/-- The archive rows of a kept conversation lose nothing to the archive TTL, or keep some row
but not the first. -/
def TtlKeepsOrder (before after : List (StoredArchiveRow J)) : Prop :=
  after = before ∨ (after ≠ [] ∧ ∀ r ∈ after, r.seq ≠ 0)

/-- A new conversation finds no archive row under its id, and pruning treats the archive of
every conversation it keeps in order. Texts on disk stay as written. -/
def Orderly (s : Tracked J) : StoreOp J → Prop
  | .save _ _ id _ _ expectedRevision _ _ =>
    expectedRevision = none → s.db.conversations.lookup id = none → s.db.archiveOf id = []
  | .prune now archiveNow ttlSecs maxEntries _ =>
    ∀ row ∈ (pruneConversations now s.db ttlSecs maxEntries).conversations.rows,
      TtlKeepsOrder ((pruneConversations now s.db ttlSecs maxEntries).archiveOf row.id)
        ((pruneArchiveByTtl archiveNow (pruneConversations now s.db ttlSecs maxEntries)
          ttlSecs).archiveOf row.id)
  | .damage _ _ => False
  | _ => True

/-- The stored row decodes, and the archive rows account for the users in front of it. -/
def Accounted (s : Tracked J) : Prop :=
  ∀ id row, s.db.conversations.lookup id = some row → ∃ stored archived,
    wire.messagesFromJson row.messagesJson = .ok stored ∧
    s.history id = archived ++ users stored ∧ ArchiveInv wire (s.db.archiveOf id) archived

section Frame

variable {wire}

theorem archiveOf_deleteArchive (db : Db J) (p : StoredArchiveRow J → Bool) (id : String) :
    (db.deleteArchive p).archiveOf id = (db.archiveOf id).filter fun r => !p r := by
  simp only [Db.archiveOf, Db.archive_deleteArchive, Table.rows_deleteWhere, filter_filter]
  apply filter_congr
  intro r _
  rw [Bool.and_comm]

theorem archiveOf_congr {db db' : Db J} (h : db'.archive.rows = db.archive.rows) (id : String) :
    db'.archiveOf id = db.archiveOf id := by
  rw [Db.archiveOf, Db.archiveOf, h]

/-- One conversation is accounted for when its text, archive rows and history are as before. -/
theorem accounted_frame {s : Tracked J} (hs : Accounted wire s) {db' : Db J}
    {history' : List Message} {id : String} {row' : ConversationRow J}
    (hrow : ∃ row, s.db.conversations.lookup id = some row ∧ row'.messagesJson = row.messagesJson)
    (harch : db'.archiveOf id = s.db.archiveOf id) (hhist : history' = s.history id) :
    ∃ stored archived, wire.messagesFromJson row'.messagesJson = .ok stored ∧
      history' = archived ++ users stored ∧ ArchiveInv wire (db'.archiveOf id) archived := by
  obtain ⟨row, hl, hjson⟩ := hrow
  obtain ⟨stored, archived, hdec, hh, hinv⟩ := hs id row hl
  exact ⟨stored, archived, by rw [hjson, hdec], by rw [hhist, hh], harch ▸ hinv⟩

theorem lookup_update_json {db : Db J} {p : ConversationRow J → Bool}
    {f : ConversationRow J → ConversationRow J} {hf : ∀ r, (f r).id = r.id} {id : String}
    {row' : ConversationRow J}
    (h : (db.updateConversations p f hf).conversations.lookup id = some row')
    (hj : ∀ r, (f r).messagesJson = r.messagesJson) :
    ∃ row, db.conversations.lookup id = some row ∧ row'.messagesJson = row.messagesJson := by
  rw [Db.conversations_updateConversations, Table.lookup_updateWhere hf,
    Option.map_eq_some_iff] at h
  obtain ⟨row, hl, rfl⟩ := h
  refine ⟨row, hl, ?_⟩
  split
  · exact hj row
  · rfl

end Frame

section Prune

variable {wire}

theorem ArchiveInv.cap {db : Db J} {id : String} {archived : List Message}
    (h : ArchiveInv wire (db.archiveOf id) archived) {maxRows : ℕ} (hmax : 0 < maxRows)
    (id' : String) : ArchiveInv wire ((capArchiveRows maxRows db id').archiveOf id) archived := by
  unfold capArchiveRows
  split
  · exact h
  · next last hlast =>
    rw [archiveOf_deleteArchive]
    by_cases hid : id' = id
    · subst hid
      set sorted := (db.archiveOf id').insertionSort fun a b => b.seq ≤ a.seq with hsorted
      have hperm : sorted.Perm (db.archiveOf id') := perm_insertionSort _ _
      obtain ⟨hlen, hget⟩ := List.getElem?_eq_some_iff.mp hlast
      have hmem : last ∈ db.archiveOf id' := hperm.mem_iff.mp (hget ▸ getElem_mem hlen)
      have hdesc : sorted.Pairwise fun a b => b.seq ≤ a.seq :=
        pairwise_insertionSort (r := fun a b : StoredArchiveRow J => b.seq ≤ a.seq) _
      have hne : (db.archiveOf id').Pairwise fun a b => a.seq ≠ b.seq :=
        h.increasing.imp fun hab => hab.ne
      have hne' : sorted.Pairwise fun a b => a.seq ≠ b.seq :=
        (hperm.pairwise_iff fun hab => Ne.symm hab).mpr hne
      -- the newest row is strictly above the last deleted one
      have hlt : last.seq < sorted[0].seq := by
        have hle := pairwise_iff_getElem.mp hdesc 0 maxRows (by omega) hlen hmax
        have hneq := pairwise_iff_getElem.mp hne' 0 maxRows (by omega) hlen hmax
        rw [hget] at hle hneq
        omega
      have hnewest : sorted[0] ∈ db.archiveOf id' :=
        hperm.mem_iff.mp (getElem_mem _)
      apply h.filter
      refine .inr ⟨ne_nil_of_mem (mem_filter.mpr ⟨hnewest, ?_⟩), fun r hr => ?_⟩
      · simp [hlt]
      · obtain ⟨hr, hkeep⟩ := mem_filter.mp hr
        have hconv := (Db.mem_archiveOf.mp hr).2
        have hgt : last.seq < r.seq := by simpa [hconv] using hkeep
        have hnonneg := h.nonneg last hmem
        omega
    · apply h.filter
      refine .inl (filter_eq_self.mpr fun r hr => ?_)
      have hconv := (Db.mem_archiveOf.mp hr).2
      simp [hconv, Ne.symm hid]

theorem ArchiveInv.caps {id : String} {archived : List Message} {maxRows : ℕ}
    (hmax : 0 < maxRows) (ids : List String) {db : Db J}
    (h : ArchiveInv wire (db.archiveOf id) archived) :
    ArchiveInv wire ((ids.foldl (capArchiveRows maxRows) db).archiveOf id) archived := by
  induction ids generalizing db with
  | nil => exact h
  | cons id' ids ih => exact ih (h.cap hmax id')

/-- Pruning the archive keeps the account when the TTL keeps the order of its rows. -/
theorem ArchiveInv.prune {db : Db J} {id : String} {archived : List Message}
    (h : ArchiveInv wire (db.archiveOf id) archived) {now : ℤ} {ttlSecs maxRows : ℕ}
    (httl : TtlKeepsOrder (db.archiveOf id) ((pruneArchiveByTtl now db ttlSecs).archiveOf id)) :
    ArchiveInv wire ((pruneArchive now db ttlSecs maxRows).archiveOf id) archived := by
  have hmid : ArchiveInv wire ((pruneArchiveByTtl now db ttlSecs).archiveOf id) archived := by
    unfold pruneArchiveByTtl at httl ⊢
    split at httl
    · next hpos =>
      rw [if_pos hpos]
      rw [archiveOf_deleteArchive] at httl ⊢
      exact h.filter _ httl
    · next hpos =>
      rw [if_neg hpos]
      exact h
  simp only [pruneArchive]
  split
  · exact hmid
  · next hne => exact hmid.caps (Nat.pos_of_ne_zero hne) _

end Prune

section Truncate

variable {wire}

theorem first_row_of_complete {db : Db J} {id : String}
    (hnonneg : ∀ r ∈ db.archiveOf id, 0 ≤ r.seq) (h : archivePrefixIncomplete db id = false) :
    db.archiveOf id = [] ∨ ∃ r ∈ db.archiveOf id, r.seq = 0 := by
  unfold archivePrefixIncomplete archiveMinSeq at h
  cases hm : ((db.archiveOf id).map StoredArchiveRow.seq).min? with
  | none =>
    rw [min?_eq_none_iff, map_eq_nil_iff] at hm
    exact .inl hm
  | some m =>
    obtain ⟨hmem, -⟩ := min?_eq_some_iff.mp hm
    obtain ⟨r, hr, rfl⟩ := mem_map.mp hmem
    have hle : r.seq ≤ 0 := by simpa [hm] using h
    exact .inr ⟨r, hr, le_antisymm hle (hnonneg r hr)⟩

/-- A complete archive reads back as the archived users, with and without artifact rows. -/
theorem ArchiveInv.load {db : Db J} {id : String} {archived : List Message}
    (h : ArchiveInv wire (db.archiveOf id) archived)
    (hc : db.archiveOf id = [] ∨ ∃ r ∈ db.archiveOf id, r.seq = 0) :
    (∃ ms, loadArchiveMessages wire db id = .ok ms ∧ users ms = archived) ∧
    ∃ original, loadArchiveOriginalMessages wire db id = .ok original ∧
      users original = archived := by
  obtain ⟨ms, hms, hu⟩ := h.complete hc
  obtain ⟨original, ho, hou⟩ := users_originals h.artifact hms
  rw [loadArchiveMessages, loadArchiveOriginalMessages, orderBySeq_of_increasing h.increasing,
    orderBySeq_of_increasing (h.increasing.filter _)]
  exact ⟨⟨ms, hms, hu⟩, original, ho, hou.trans hu⟩

/-- What a truncated conversation holds: its archive rows are complete and together with the
stored row they are the first users of the history. -/
theorem truncate_saved {s : Tracked J} (hs : Accounted wire s) {now : ℤ} {id : String}
    {userOrdinal expectedRevision : ℕ} {db' : Db J}
    (h : truncateBeforeUserOrdinalIfRevision wire now s.db id userOrdinal expectedRevision =
      .ok (.saved, db')) :
    (∀ other, other ≠ id → db'.conversations.lookup other = s.db.conversations.lookup other ∧
      db'.archiveOf other = s.db.archiveOf other) ∧
    ∃ row' stored' archived', db'.conversations.lookup id = some row' ∧
      wire.messagesFromJson row'.messagesJson = .ok stored' ∧
      ArchiveInv wire (db'.archiveOf id) archived' ∧
      (db'.archiveOf id = [] ∨ ∃ r ∈ db'.archiveOf id, r.seq = 0) ∧
      archived' ++ users stored' = (s.history id).take userOrdinal := by
  rcases truncate_cases h with ⟨hne, -⟩ | ⟨-, hcomplete, row, canonical, ms, hrow, hdec, hms, hcase⟩
  · exact absurd rfl hne
  obtain ⟨stored, archived, hdec', hhist, hinv⟩ := hs id row hrow
  obtain rfl : canonical = stored := by
    rw [hdec] at hdec'
    exact Except.ok.inj hdec'
  have hfirst := first_row_of_complete hinv.nonneg hcomplete
  obtain ⟨⟨ms', hms', hu⟩, original, horig, hou⟩ := hinv.load hfirst
  obtain rfl : ms = ms' := by
    rw [hms] at hms'
    exact Except.ok.inj hms'
  have hcount : countRealUsers ms = archived.length := by rw [← hu, length_users]
  rcases hcase with ⟨hle, rfl, hcut⟩ | ⟨hle, hpers⟩ | ⟨hlt, original', mid, horig', hpers, rfl⟩
  · refine ⟨fun _ _ => ⟨rfl, rfl⟩, row, canonical, archived, hrow, hdec, hinv, hfirst, ?_⟩
    have hall := countRealUsers_le_of_cut hcut
    rw [hhist, take_of_length_le]
    rw [length_append, length_users]
    omega
  · -- the cut is inside the stored row
    obtain ⟨json, row₀, hjson, hrow₀, -, hrow'⟩ := hpers.row
    have harch : ∀ other, db'.archiveOf other = s.db.archiveOf other :=
      archiveOf_congr (by rw [hpers.archive])
    refine ⟨fun other hne => ⟨hpers.other other hne, harch other⟩, _, _, archived, hrow',
      wire.fromJson_toJson hjson, (harch id).symm ▸ hinv, (harch id).symm ▸ hfirst, ?_⟩
    have htake : archived.take userOrdinal = archived := take_of_length_le (by omega)
    rw [users_take_branchCutIndex, hhist, take_append, hcount, htake]
  · -- the cut is inside the archive, which is replayed
    obtain ⟨json, row₀, hjson, hrow₀, -, hrow'⟩ := hpers.row
    obtain rfl : original = original' := by
      rw [horig] at horig'
      exact Except.ok.inj horig'
    have hnil : (deleteArchiveForConversation mid id).archiveOf id = [] := by
      rw [deleteArchiveForConversation, archiveOf_deleteArchive, filter_eq_nil_iff]
      intro r hr
      simp [(Db.mem_archiveOf.mp hr).2]
    refine ⟨fun other hne => ⟨hpers.other other hne, ?_⟩, _, _, [], hrow',
      wire.fromJson_toJson hjson, hnil.symm ▸ ArchiveInv.nil wire, .inl hnil, ?_⟩
    · rw [deleteArchiveForConversation, archiveOf_deleteArchive, filter_eq_self.mpr]
      · exact archiveOf_congr (by rw [hpers.archive]) other
      · intro r hr
        simp [(Db.mem_archiveOf.mp hr).2, hne]
    · rw [users_take_branchCutIndex, users_reexpand, hou, hhist, nil_append]

end Truncate

section Step

variable {wire} {s : Tracked J}

theorem users_of_artifacts {ms : List Message}
    (h : ∀ m ∈ ms, m.isModelContextArtifactMarker = true) : users ms = [] :=
  filter_eq_nil_iff.mpr fun m hm => by
    simp [realUser, Message.not_realUser_of_system (Message.role_of_artifact (h m hm))]

/-- The rows of a commit archive the users of its prefix; artifact rows hold none. -/
theorem users_archiveRows (commit : RecycledCommit) :
    users ((archiveRowsFromStructuralCommit commit.1).flatMap ArchiveRow.messages) =
      users commit.1.archivedPrefix ∧
    ∀ row ∈ archiveRowsFromStructuralCommit commit.1, row.reason = .artifact →
      users row.messages = [] := by
  obtain ⟨commit, hart⟩ := commit
  have hnil := users_of_artifacts hart
  constructor
  · have hflat : (archiveRowsFromStructuralCommit commit).flatMap ArchiveRow.messages =
        commit.archivedPrefix ++ commit.archivedArtifacts := by
      unfold archiveRowsFromStructuralCommit
      cases commit.archivedPrefix <;> cases commit.archivedArtifacts <;> simp
    rw [hflat, users_append, hnil, append_nil]
  · intro row hrow hreason
    unfold archiveRowsFromStructuralCommit at hrow
    rcases mem_append.mp hrow with hrow | hrow
    · split at hrow
      · cases hrow
      · rw [mem_singleton.mp hrow] at hreason
        simp only at hreason
        split at hreason <;> cases hreason
    · split at hrow
      · cases hrow
      · rw [mem_singleton.mp hrow]
        exact hnil

theorem accounted_truncate (hs : Accounted wire s) (now : ℤ) (id : String)
    (userOrdinal expectedRevision : ℕ) :
    Accounted wire (trackedStep wire s (.truncate now id userOrdinal expectedRevision)) := by
  intro other row' hrow'
  simp only [trackedStep, step, historyAfter] at hrow' ⊢
  cases h : truncateBeforeUserOrdinalIfRevision wire now s.db id userOrdinal expectedRevision with
  | error e =>
    simp only [h, afterwards] at hrow' ⊢
    exact hs other row' hrow'
  | ok res =>
    obtain ⟨outcome, db'⟩ := res
    simp only [h, afterwards] at hrow' ⊢
    cases outcome with
    | saved =>
      obtain ⟨hother, row, stored, archived, hrow, hdec, hinv, -, hcut⟩ := truncate_saved hs h
      by_cases ho : other = id
      · subst ho
        rw [hrow] at hrow'
        cases hrow'
        exact ⟨stored, archived, hdec, by rw [if_pos rfl, hcut], hinv⟩
      · rw [(hother other ho).1] at hrow'
        obtain ⟨stored, archived, hdec, hh, hinv⟩ := hs other row' hrow'
        exact ⟨stored, archived, hdec, by rw [if_neg ho, hh], (hother other ho).2 ▸ hinv⟩
    | conflict =>
      obtain ⟨-, rfl⟩ | ⟨hbad, -⟩ := truncate_cases h
      · exact hs other row' hrow'
      · cases hbad
    | archiveIncomplete =>
      obtain ⟨-, rfl⟩ | ⟨hbad, -⟩ := truncate_cases h
      · exact hs other row' hrow'
      · cases hbad

theorem accounted_save (hs : Accounted wire s) (now archiveNow : ℤ) (id : String)
    (messages : List Message) (active : ActiveState) (expectedRevision : Option ℕ)
    (commit : RecycledCommit) (codecMinBytes : ℕ)
    (hnew : expectedRevision = none → s.db.conversations.lookup id = none →
      s.db.archiveOf id = []) :
    Accounted wire (trackedStep wire s (.save now archiveNow id messages active expectedRevision
      commit codecMinBytes)) := by
  intro other row' hrow'
  simp only [trackedStep, step, historyAfter] at hrow' ⊢
  cases h : saveWithArchiveIfRevision wire now archiveNow s.db id messages active
      expectedRevision (archiveRowsFromStructuralCommit commit.1) codecMinBytes with
  | error e =>
    simp only [h, afterwards] at hrow' ⊢
    exact hs other row' hrow'
  | ok res =>
    obtain ⟨outcome, db'⟩ := res
    simp only [h, afterwards] at hrow' ⊢
    obtain ⟨rfl, rfl⟩ | ⟨rfl, hother, ⟨json, hjson, hrow⟩, stored, hrows, hfrom⟩ := save_cases h
    · exact hs other row' hrow'
    · by_cases ho : other = id
      · -- the saved conversation: its archive grows by the prefix
        subst ho
        rw [if_pos rfl]
        obtain ⟨hpfx, hart⟩ := users_archiveRows commit
        have harch := hfrom.archiveOf_self hrows
        rcases hrow with ⟨row, hl, -, hl'⟩ | ⟨hl, hexp, hl'⟩
        · rw [hl'] at hrow'
          cases hrow'
          obtain ⟨old, archived, hdec, hh, hinv⟩ := hs other row hl
          refine ⟨messages, archived ++ users commit.1.archivedPrefix, wire.fromJson_toJson hjson,
            ?_, ?_⟩
          · have hstored : storedUsers wire s.db other = users old := by
              simp [storedUsers, hl, hdec]
            rw [hl, hh, hstored, length_append, Nat.add_sub_cancel, take_left]
          · rw [harch, ← hpfx]
            exact hinv.append hfrom hart
        · rw [hl'] at hrow'
          cases hrow'
          have hempty := hnew hexp hl
          refine ⟨messages, users commit.1.archivedPrefix, wire.fromJson_toJson hjson, ?_, ?_⟩
          · rw [hl, nil_append]
          · have hinv := (hempty.symm ▸ ArchiveInv.nil wire :
              ArchiveInv wire (s.db.archiveOf other) []).append hfrom hart
            rwa [nil_append, hpfx, ← harch] at hinv
      · rw [hother other ho] at hrow'
        exact accounted_frame hs ⟨row', hrow', rfl⟩ (hfrom.archiveOf_ne hrows ho) (if_neg ho)

theorem accounted_prune (hs : Accounted wire s) (now archiveNow : ℤ)
    (ttlSecs maxEntries archiveMaxRows : ℕ)
    (hok : Orderly s (.prune now archiveNow ttlSecs maxEntries archiveMaxRows)) :
    Accounted wire (trackedStep wire s (.prune now archiveNow ttlSecs maxEntries
      archiveMaxRows)) := by
  intro id row hrow
  simp only [trackedStep, step, historyAfter, prune] at hrow ⊢
  rw [(pruneArchive_pruned _ _ _ _).conversations] at hrow
  obtain ⟨dropped, hd⟩ := pruneConversations_dropped now s.db ttlSecs maxEntries
  have httl := hok row (Table.lookup_eq_some_iff.mp hrow).1
  rw [(Table.lookup_eq_some_iff.mp hrow).2] at httl
  have hkept : dropped id = false := by
    cases hdr : dropped id with
    | false => rfl
    | true =>
      rw [hd.lookup, hdr] at hrow
      cases hrow
  have harch : (pruneConversations now s.db ttlSecs maxEntries).archiveOf id =
      s.db.archiveOf id := by
    rw [Db.archiveOf, hd.archive, filter_filter, Db.archiveOf]
    apply filter_congr
    intro r _
    by_cases hr : r.conversationId = id <;> simp [hr, hkept]
  rw [hd.lookup, hkept] at hrow
  obtain ⟨stored, archived, hdec, hh, hinv⟩ := hs id row hrow
  exact ⟨stored, archived, hdec, hh, ArchiveInv.prune (harch.symm ▸ hinv) httl⟩

theorem accounted_delete (hs : Accounted wire s) {id : String} {row : ConversationRow J}
    {other : String} (h : (deleteById s.db id).conversations.lookup other = some row) :
    ∃ stored archived, wire.messagesFromJson row.messagesJson = .ok stored ∧
      s.history other = archived ++ users stored ∧
      ArchiveInv wire ((deleteById s.db id).archiveOf other) archived := by
  obtain ⟨hmem, hid⟩ := Table.lookup_eq_some_iff.mp h
  have hold : row ∈ s.db.conversations.rows := mem_of_mem_filter hmem
  exact hs other row (Table.lookup_eq_some_iff.mpr ⟨hold, hid⟩)

/-- Every orderly step keeps the conversations accounted for. -/
theorem accounted_step (s : Tracked J) (op : StoreOp J) (hs : Accounted wire s)
    (hok : Orderly s op) : Accounted wire (trackedStep wire s op) := by
  cases op with
  | save now archiveNow id messages active expectedRevision commit codecMinBytes =>
    exact accounted_save hs _ _ _ _ _ _ _ _ hok
  | setActive id active =>
    intro other row' hrow'
    simp only [trackedStep, step, setActiveState] at hrow' ⊢
    split at hrow'
    · next ha =>
      rw [if_pos ha]
      exact accounted_frame hs (lookup_update_json hrow' fun _ => rfl) rfl rfl
    · next ha =>
      rw [if_neg ha]
      exact hs other row' hrow'
  | load now id ttlSecs =>
    intro other row' hrow'
    simp only [trackedStep, step] at hrow' ⊢
    cases hd : loadDrops wire now s.db id ttlSecs with
    | true =>
      rw [load_of_drops wire hd] at hrow' ⊢
      exact accounted_delete hs hrow'
    | false =>
      rcases load_of_not_drops wire hd with ⟨-, hl⟩ | ⟨row, messages, -, -, -, hl⟩
      · rw [hl] at hrow' ⊢
        exact hs other row' hrow'
      · rw [hl] at hrow' ⊢
        exact accounted_frame hs (lookup_update_json hrow' fun _ => rfl) rfl rfl
  | deleteById id =>
    intro other row' hrow'
    exact accounted_delete hs hrow'
  | prune now archiveNow ttlSecs maxEntries archiveMaxRows =>
    exact accounted_prune hs _ _ _ _ _ hok
  | truncate now id userOrdinal expectedRevision => exact accounted_truncate hs _ _ _ _
  | damage id json => exact hok.elim

end Step

section History

variable {wire} {s : Tracked J}

theorem users_take_firstRemoval (view : ModelContextView) (canonical : List Message) :
    users (canonical.take (view.firstRemoval canonical)) = [] :=
  filter_eq_nil_iff.mpr fun m hm => by
    simp [not_realUser_of_mem_take_firstRemoval view canonical m hm]

/-- A commit splits the users of the history between the archived prefix and the rest. -/
theorem users_commit (parseJson : String → Option JsonValue) (view : ModelContextView)
    (canonical : List Message) :
    users (view.commitCurrentTurnTo parseJson canonical).2.archivedPrefix ++
      users (view.commitCurrentTurnTo parseJson canonical).1 = users canonical := by
  cases h : Positions.rposition realUser view.messages with
  | none =>
    rw [view.commit_of_no_anchor parseJson canonical h]
    rfl
  | some viewAnchor =>
    have hadd : (view.additions parseJson viewAnchor).filter realUser = [] := by
      obtain ⟨pre, u, post, hv, rfl, -, hpost⟩ := Positions.rposition_eq_some h
      rw [filter_eq_nil_iff]
      intro m hm
      have hdrop := mem_of_mem_filter hm
      rw [hv, ← singleton_append, ← append_assoc, drop_left' (by simp)] at hdrop
      simp [hpost m hdrop]
    have hfilter := commit_filter parseJson realUser_ignoresSideRows view canonical h
      (users_take_firstRemoval view canonical)
    rwa [hadd, append_nil] at hfilter

/-- Saving a committed turn extends the tracked history by the users the turn added. -/
theorem history_save_commit (hs : Accounted wire s) (parseJson : String → Option JsonValue)
    (view : ModelContextView) {canonical old fresh : List Message} {id : String}
    {row : ConversationRow J} (hrow : s.db.conversations.lookup id = some row)
    (hold : wire.messagesFromJson row.messagesJson = .ok old)
    (hfresh : users canonical = users old ++ fresh) {now archiveNow : ℤ} {active : ActiveState}
    {expectedRevision : Option ℕ} {codecMinBytes : ℕ} {db' : Db J}
    (hsaved : saveWithArchiveIfRevision wire now archiveNow s.db id
      (view.commitCurrentTurnTo parseJson canonical).1 active expectedRevision
      (archiveRowsFromStructuralCommit (view.commitCurrentTurnTo parseJson canonical).2)
      codecMinBytes = .ok (.saved, db')) :
    (trackedStep wire s (.save now archiveNow id (view.commitCurrentTurnTo parseJson canonical).1
      active expectedRevision ⟨(view.commitCurrentTurnTo parseJson canonical).2,
        commit_recycles parseJson view canonical⟩ codecMinBytes)).history id =
      s.history id ++ fresh := by
  obtain ⟨stored, archived, hdec, hh, -⟩ := hs id row hrow
  obtain rfl : old = stored := by
    rw [hold] at hdec
    exact Except.ok.inj hdec
  have hstored : storedUsers wire s.db id = users old := by simp [storedUsers, hrow, hold]
  simp only [trackedStep, historyAfter, hsaved, if_pos, hrow]
  rw [append_assoc, users_commit, hfresh, hh, hstored, length_append,
    Nat.add_sub_cancel, take_left, append_assoc]

end History

/-- Truncation in one state: success leaves the first users of the history, any other result
leaves the tables alone. -/
def CutsHistory (s : Tracked J) : Prop :=
  ∀ now id userOrdinal expectedRevision,
    (∀ db', truncateBeforeUserOrdinalIfRevision wire now s.db id userOrdinal expectedRevision =
        .ok (.saved, db') →
      remainingUsers wire db' id = some ((s.history id).take userOrdinal)) ∧
    ((∀ db', truncateBeforeUserOrdinalIfRevision wire now s.db id userOrdinal expectedRevision ≠
        .ok (.saved, db')) →
      step wire s.db (.truncate now id userOrdinal expectedRevision) = s.db)

theorem Accounted.cutsHistory {wire : Wire J} {s : Tracked J} (hs : Accounted wire s) :
    CutsHistory wire s := by
  intro now id userOrdinal expectedRevision
  constructor
  · intro db' h
    obtain ⟨-, row, stored, archived, hrow, hdec, hinv, hfirst, hcut⟩ := truncate_saved hs h
    obtain ⟨⟨ms, hms, hu⟩, -⟩ := hinv.load hfirst
    simp [remainingUsers, hms, hrow, hdec, Except.toOption, hu, hcut]
  · intro h
    simp only [step]
    cases hres : truncateBeforeUserOrdinalIfRevision wire now s.db id userOrdinal
        expectedRevision with
    | error e => rfl
    | ok res =>
      obtain ⟨outcome, db'⟩ := res
      rcases truncate_cases hres with ⟨-, rfl⟩ | ⟨rfl, -⟩
      · rfl
      · exact absurd hres (h db')

theorem accounted_empty : Accounted wire (Tracked.empty : Tracked J) := by
  intro id row h
  cases h

/-- After every orderly run a truncation cuts where the history says. -/
theorem truncate_cuts_history (ops : List (StoreOp J))
    (hok : Run.AllOk (trackedStep wire) Orderly Tracked.empty ops) :
    CutsHistory wire (Run.run (trackedStep wire) Tracked.empty ops) :=
  (Run.invariant accounted_step (accounted_empty wire) hok).cutsHistory

/-- Two turns; the second one moves the first out of the stored row. -/
def twoTurns : List (StoreOp (Option (List Message))) :=
  [.save 0 0 "c" [.userOnly "u0"] .none none ⟨.empty, by simp [StructuralCommit.empty]⟩ 0,
    .save 0 0 "c" [.userOnly "u1"] .none (some 1)
      ⟨⟨[.userOnly "u0"], false, [], 0, 0, 1⟩, by simp⟩ 0]

theorem truncate_cuts_history_twoTurns :
    remainingUsers plainWire (step plainWire
      (Run.run (trackedStep plainWire) Tracked.empty twoTurns).db (.truncate 5 "c" 1 2)) "c" =
        some [.userOnly "u0"] :=
  ((truncate_cuts_history plainWire twoTurns ⟨fun _ _ => rfl, nofun, trivial⟩ 5 "c" 1 2).1 _
    (by decide +kernel)).trans (by decide +kernel)

/-- A third turn after the archive TTL; pruning keeps the conversation and takes its only
archive row. -/
def thirdTurnAndPrune : List (StoreOp (Option (List Message))) :=
  twoTurns ++ [
    .save 100 100 "c" [.userOnly "u1", .userOnly "u2"] .none (some 2)
      ⟨.empty, by simp [StructuralCommit.empty]⟩ 0,
    .prune 150 150 100 0 256]

/-- Without its archive row the conversation counts as complete and the cut is one turn off. -/
theorem truncate_after_archive_expiry :
    ¬ CutsHistory plainWire (Run.run (trackedStep plainWire) Tracked.empty thirdTurnAndPrune) := by
  intro h
  have hcut := (h 160 "c" 1 3).1
    (step plainWire (Run.run (trackedStep plainWire) Tracked.empty thirdTurnAndPrune).db
      (.truncate 160 "c" 1 3)) (by decide +kernel)
  exact absurd hcut (by decide +kernel)

end CrabMate
