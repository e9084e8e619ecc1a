import CrabMate.Store.Archive
import CrabMate.Context.View

/-! The operations of the conversation store: compare-and-set saves with their archive rows,
loads that drop expired and damaged rows, deletion, pruning and branch truncation. A result
carries the tables after the operation; an error rolls the transaction back. -/
namespace CrabMate
open RustStr

variable {J : Type} (wire : Wire J)

structure LoadedConversation where
  messages : List Message
  revision : ℕ
  activeAgentRole : String
  activeSessionMode : String
  activePermissionLevel : String
  layout : Option JsonValue
  deriving DecidableEq

/-- The three session settings a caller may ask to write. -/
structure ActiveState where
  agentRole : Option String
  sessionMode : Option String
  permissionLevel : Option String
  deriving DecidableEq

def ActiveState.none : ActiveState := ⟨Option.none, Option.none, Option.none⟩

/-- The value a setting column receives; absent or blank keeps the column. -/
def activeStateColumn (raw : Option String) : Option String :=
  (raw.map trimString).filter fun s => !s.isEmpty

/-- The `SET` assignments of the three setting columns. -/
def pushActiveAssigns (active : ActiveState) (row : ConversationRow J) : ConversationRow J :=
  { row with
    activeAgentRole := (activeStateColumn active.agentRole).getD row.activeAgentRole
    activeSessionMode := (activeStateColumn active.sessionMode).getD row.activeSessionMode
    activePermissionLevel :=
      (activeStateColumn active.permissionLevel).getD row.activePermissionLevel }

theorem id_pushActiveAssigns (active : ActiveState) (row : ConversationRow J) :
    (pushActiveAssigns active row).id = row.id := rfl

def hasActiveAssigns (active : ActiveState) : Bool :=
  (activeStateColumn active.agentRole).isSome || (activeStateColumn active.sessionMode).isSome ||
    (activeStateColumn active.permissionLevel).isSome

/-- The row a save over an existing conversation writes. -/
def savedRow (now : ℤ) (messages : List Message) (json : J) (active : ActiveState)
    (row : ConversationRow J) : ConversationRow J :=
  { pushActiveAssigns active row with
    messagesJson := json
    layoutMetaJson := wire.layoutMetaJson messages
    revision := row.revision + 1
    updatedAtUnix := now }

/-- The row of a new conversation. -/
def createdRow (now : ℤ) (id : String) (messages : List Message) (json : J)
    (active : ActiveState) : ConversationRow J where
  id := id
  messagesJson := json
  revision := 1
  updatedAtUnix := now
  activeAgentRole := (activeStateColumn active.agentRole).getD ""
  activeSessionMode := (activeStateColumn active.sessionMode).getD ""
  activePermissionLevel := (activeStateColumn active.permissionLevel).getD ""
  layoutMetaJson := wire.layoutMetaJson messages

def saveIfRevision (now : ℤ) (db : Db J) (id : String) (messages : List Message)
    (active : ActiveState) (expectedRevision : Option ℕ) :
    Except StoreError (SaveConversationOutcome × Db J) :=
  match wire.messagesToJson messages with
  | .error _ => .ok (.conflict, db)
  | .ok json =>
    match expectedRevision with
    | some exp =>
      if db.conversations.rows.any fun r => r.id = id && r.revision = exp then
        .ok (.saved, db.updateConversations (fun r => r.id = id && r.revision = exp)
          (savedRow wire now messages json active) fun _ => rfl)
      else .ok (.conflict, db)
    | none =>
      if db.conversations.rows.any fun r => r.id = id then .ok (.conflict, db)
      else do
        let db ← db.insertConversation (createdRow wire now id messages json active)
        return (.saved, db)

def setActiveState (db : Db J) (id : String) (active : ActiveState) : Bool × Db J :=
  let found := db.conversations.rows.any fun r => r.id = id
  if hasActiveAssigns active then
    (found, db.updateConversations (fun r => r.id = id) (pushActiveAssigns active)
      (id_pushActiveAssigns active))
  else (found, db)

def saveWithArchiveIfRevision (now archiveNow : ℤ) (db : Db J) (id : String)
    (messages : List Message) (active : ActiveState) (expectedRevision : Option ℕ)
    (archiveRows : List ArchiveRow) (codecMinBytes : ℕ) :
    Except StoreError (SaveConversationOutcome × Db J) := do
  let (outcome, db) ← saveIfRevision wire now db id messages active expectedRevision
  if outcome = .saved ∧ archiveRows ≠ [] then
    let db ← appendArchiveRows wire archiveNow db id archiveRows codecMinBytes
    return (outcome, db)
  else return (outcome, db)

def archiveRowsFromStructuralCommit (commit : StructuralCommit) : List ArchiveRow :=
  (if commit.archivedPrefix.isEmpty then []
  else [{
    reason := if commit.prefixSummarized then .summarized else .removedTurnGroup
    rangeStart := commit.rangeStart
    rangeEnd := commit.rangeEnd
    messages := commit.archivedPrefix }]) ++
  (if commit.archivedArtifacts.isEmpty then []
  else [{
    reason := .artifact
    rangeStart := commit.rangeStart
    rangeEnd := commit.rangeEnd
    messages := commit.archivedArtifacts }])

/-- Reads a conversation. An expired or damaged row is deleted and reads as absent. -/
def load (now : ℤ) (db : Db J) (id : String) (ttlSecs : ℕ) : Option LoadedConversation × Db J :=
  match db.conversations.lookup id with
  | none => (none, db)
  | some row =>
    if 0 < ttlSecs ∧ now - row.updatedAtUnix > ttlSecs then
      (none, db.deleteConversations fun r => r.id = id)
    else
      match wire.messagesFromJson row.messagesJson with
      | .error _ => (none, db.deleteConversations fun r => r.id = id)
      | .ok messages =>
        (some {
          messages := messages
          revision := row.revision
          activeAgentRole := row.activeAgentRole
          activeSessionMode := row.activeSessionMode
          activePermissionLevel := row.activePermissionLevel
          layout := wire.layoutMetaFromColumn row.layoutMetaJson },
        db.updateConversations (fun r => r.id = id) (fun r => { r with updatedAtUnix := now })
          fun _ => rfl)

def deleteById (db : Db J) (id : String) : Db J := db.deleteConversations fun r => r.id = id

/-- Deletes the conversations satisfying `p`, their archive rows first. -/
def dropConversations (db : Db J) (p : ConversationRow J → Bool) : Db J :=
  let ids := (db.conversations.rows.filter p).map ConversationRow.id
  (db.deleteArchive fun r => ids.contains r.conversationId).deleteConversations
    fun r => ids.contains r.id

def pruneExpiredByTtl (db : Db J) (cutoff : ℤ) : Db J :=
  dropConversations db fun r => r.updatedAtUnix < cutoff

def pruneOverflowEntries (db : Db J) (maxEntries : ℕ) : Db J :=
  let count := db.conversations.rows.length
  if count ≤ maxEntries then db
  else
    let oldest := ((db.conversations.rows.insertionSort
      fun a b => a.updatedAtUnix ≤ b.updatedAtUnix).take (count - maxEntries)).map
        ConversationRow.id
    dropConversations db fun r => oldest.contains r.id

/-- The part of `prune` that drops whole conversations. -/
def pruneConversations (now : ℤ) (db : Db J) (ttlSecs maxEntries : ℕ) : Db J :=
  let db := if 0 < ttlSecs then pruneExpiredByTtl db (now - ttlSecs) else db
  if 0 < maxEntries then pruneOverflowEntries db maxEntries else db

def prune (now archiveNow : ℤ) (db : Db J)
    (ttlSecs maxEntries archiveMaxRowsPerConversation : ℕ) : Db J :=
  pruneArchive archiveNow (pruneConversations now db ttlSecs maxEntries) ttlSecs
    archiveMaxRowsPerConversation

def loadMessagesAtRevision (db : Db J) (id : String) (expectedRevision : ℕ) :
    Option (List Message) :=
  (db.conversations.lookup id).bind fun row =>
    if row.revision = expectedRevision then (wire.messagesFromJson row.messagesJson).toOption
    else none

def persistMessagesBumpRevision (now : ℤ) (db : Db J) (id : String) (expectedRevision : ℕ)
    (messages : List Message) : SaveConversationOutcome × Db J :=
  match wire.messagesToJson messages with
  | .error _ => (.conflict, db)
  | .ok json =>
    if db.conversations.rows.any fun r => r.id = id && r.revision = expectedRevision then
      (.saved, db.updateConversations (fun r => r.id = id && r.revision = expectedRevision)
        (savedRow wire now messages json .none) fun _ => rfl)
    else (.conflict, db)

/-- The position of the `ordinal`-th real user, or the length of the history. -/
def branchCutIndex (messages : List Message) (ordinal : ℕ) : ℕ :=
  (nthRealUserIndex messages ordinal).getD messages.length

/-- Replays the archived originals in front of the first real user of the history. -/
def reexpandCanonical (canonical archivedOriginal : List Message) : List Message :=
  let stripped := canonical.filter fun m => !m.isContextSummaryInjection
  let insertAt := ((stripped.findIdx? realUser).or
    (stripped.findIdx? fun m => m.role != "system")).getD stripped.length
  stripped.take insertAt ++ archivedOriginal ++ stripped.drop insertAt

def truncateWithinCanonical (now : ℤ) (db : Db J) (id : String) (canonical : List Message)
    (canonicalOrdinal expectedRevision : ℕ) : BranchTruncateOutcome × Db J :=
  let cut := branchCutIndex canonical canonicalOrdinal
  if canonical.length ≤ cut then (.saved, db)
  else
    match persistMessagesBumpRevision wire now db id expectedRevision (canonical.take cut) with
    | (.saved, db') => (.saved, db')
    | (.conflict, _) => (.conflict, db)

def truncateAndClearArchive (now : ℤ) (db : Db J) (id : String) (canonical : List Message)
    (userOrdinal expectedRevision : ℕ) : Except StoreError (BranchTruncateOutcome × Db J) := do
  let archivedOriginal ← loadArchiveOriginalMessages wire db id
  let full := reexpandCanonical canonical archivedOriginal
  let full := full.take (branchCutIndex full userOrdinal)
  match persistMessagesBumpRevision wire now db id expectedRevision full with
  | (.saved, db') => return (.saved, deleteArchiveForConversation db' id)
  | (.conflict, _) => return (.conflict, db)

def truncateBeforeUserOrdinalIfRevision (now : ℤ) (db : Db J) (id : String)
    (userOrdinal expectedRevision : ℕ) : Except StoreError (BranchTruncateOutcome × Db J) :=
  match loadMessagesAtRevision wire db id expectedRevision with
  | none => .ok (.conflict, db)
  | some canonical =>
    if archivePrefixIncomplete db id then .ok (.archiveIncomplete, db)
    else do
      let archivedUsers ← archiveRealUserCount wire db id
      if archivedUsers ≤ userOrdinal then
        return truncateWithinCanonical wire now db id canonical (userOrdinal - archivedUsers)
          expectedRevision
      else truncateAndClearArchive wire now db id canonical userOrdinal expectedRevision

section Save

variable {wire} {now archiveNow : ℤ} {db db' : Db J} {id : String} {messages : List Message}
  {active : ActiveState} {expectedRevision : Option ℕ} {outcome : SaveConversationOutcome}

/-- The row of `id` after a successful save: an update of the row at the expected revision,
or a new row when none was expected and none was there. -/
def SavedRow (wire : Wire J) (now : ℤ) (db db' : Db J) (id : String) (messages : List Message)
    (json : J) (active : ActiveState) (expectedRevision : Option ℕ) : Prop :=
  (∃ row, db.conversations.lookup id = some row ∧ expectedRevision = some row.revision ∧
    db'.conversations.lookup id = some (savedRow wire now messages json active row)) ∨
  (db.conversations.lookup id = none ∧ expectedRevision = none ∧
    db'.conversations.lookup id = some (createdRow wire now id messages json active))

theorem lookup_of_any_revision {exp : ℕ}
    (h : (db.conversations.rows.any fun r => decide (r.id = id) && decide (r.revision = exp)) =
      true) :
    ∃ row, db.conversations.lookup id = some row ∧ row.id = id ∧ row.revision = exp := by
  simp only [List.any_eq_true, Bool.and_eq_true, decide_eq_true_eq] at h
  obtain ⟨row, hmem, hid, hrev⟩ := h
  exact ⟨row, Table.lookup_eq_some_iff.mpr ⟨hmem, hid⟩, hid, hrev⟩

theorem saveIfRevision_cases
    (h : saveIfRevision wire now db id messages active expectedRevision = .ok (outcome, db')) :
    (outcome = .conflict ∧ db' = db) ∨
    (outcome = .saved ∧ db'.archive = db.archive ∧
      (∀ other, other ≠ id → db'.conversations.lookup other = db.conversations.lookup other) ∧
      ∃ json, wire.messagesToJson messages = .ok json ∧
        SavedRow wire now db db' id messages json active expectedRevision) := by
  unfold saveIfRevision at h
  split at h
  · cases h
    exact .inl ⟨rfl, rfl⟩
  · next json hjson =>
    split at h
    · next exp =>
      split at h
      · next hany =>
        cases h
        obtain ⟨row, hrow, hid, hrev⟩ := lookup_of_any_revision hany
        refine .inr ⟨rfl, rfl, fun other hne => ?_, json, hjson, .inl ⟨row, hrow, by rw [hrev], ?_⟩⟩
        · apply Db.lookup_updateConversations_ne
          intro r hr
          simp [hr, hne]
        · apply Db.lookup_updateConversations _ _ hrow
          simp [hid, hrev]
      · cases h
        exact .inl ⟨rfl, rfl⟩
    · split at h
      · cases h
        exact .inl ⟨rfl, rfl⟩
      · next hany =>
        have hnone : db.conversations.lookup id = none := by
          rw [Table.any_key_iff] at hany
          exact Option.eq_none_iff_forall_ne_some.mpr fun r hr => hany ⟨r, hr⟩
        cases hi : db.insertConversation (createdRow wire now id messages json active) with
        | error e => simp [hi, bind, Except.bind] at h
        | ok mid =>
          simp only [hi, bind, Except.bind, pure, Except.pure, Except.ok.injEq,
            Prod.mk.injEq] at h
          obtain ⟨rfl, rfl⟩ := h
          obtain ⟨hins, harch⟩ := Db.insertConversation_eq_ok hi
          refine .inr ⟨rfl, harch, fun other hne => ?_, json, hjson, .inr ⟨hnone, rfl, ?_⟩⟩
          · exact Table.lookup_insert?_ne hins (Ne.symm hne)
          · exact Table.lookup_insert?_self hins

/-- A save either changes nothing or writes its row and appends its archive rows. -/
theorem save_cases {archiveRows : List ArchiveRow} {codecMinBytes : ℕ}
    (h : saveWithArchiveIfRevision wire now archiveNow db id messages active expectedRevision
      archiveRows codecMinBytes = .ok (outcome, db')) :
    (outcome = .conflict ∧ db' = db) ∨
    (outcome = .saved ∧
      (∀ other, other ≠ id → db'.conversations.lookup other = db.conversations.lookup other) ∧
      (∃ json, wire.messagesToJson messages = .ok json ∧
        SavedRow wire now db db' id messages json active expectedRevision) ∧
      ∃ stored, db'.archive.rows = db.archive.rows ++ stored ∧
        StoredFrom wire id (nextSeq db id) archiveRows stored) := by
  unfold saveWithArchiveIfRevision at h
  cases hs : saveIfRevision wire now db id messages active expectedRevision with
  | error e => simp [hs, bind, Except.bind] at h
  | ok res =>
    obtain ⟨out, mid⟩ := res
    simp only [hs, bind, Except.bind, pure, Except.pure] at h
    rcases saveIfRevision_cases hs with ⟨rfl, rfl⟩ | ⟨rfl, harch, hother, json, hjson, hrow⟩
    · simp only [reduceCtorEq, false_and, if_false, Except.ok.injEq, Prod.mk.injEq] at h
      exact .inl ⟨h.1.symm, h.2.symm⟩
    · split at h
      · split at h
        · cases h
        · next last happ =>
          cases h
          obtain ⟨hconv, stored, hrows, hfrom⟩ := appendArchiveRows_eq_ok wire happ
          have hseq : nextSeq mid id = nextSeq db id := by simp [nextSeq, Db.archiveOf, harch]
          refine .inr ⟨rfl, by rwa [hconv], ⟨json, hjson, ?_⟩, stored, by rw [hrows, harch],
            hseq ▸ hfrom⟩
          unfold SavedRow at hrow ⊢
          rwa [hconv]
      · next hempty =>
        cases h
        have hnil : archiveRows = [] := by simpa using hempty
        exact .inr ⟨rfl, hother, ⟨json, hjson, hrow⟩, [], by rw [harch, List.append_nil],
          hnil ▸ trivial⟩

end Save

section Load

variable {now : ℤ} {db : Db J} {id : String} {ttlSecs : ℕ}

/-- The load deletes the row: it is expired, or its text does not decode. -/
def loadDrops (now : ℤ) (db : Db J) (id : String) (ttlSecs : ℕ) : Bool :=
  (db.conversations.lookup id).any fun row =>
    decide (0 < ttlSecs ∧ now - row.updatedAtUnix > ttlSecs) ||
      !(wire.messagesFromJson row.messagesJson).isOk

theorem load_of_drops (h : loadDrops wire now db id ttlSecs = true) :
    load wire now db id ttlSecs = (none, deleteById db id) := by
  unfold loadDrops at h
  cases hl : db.conversations.lookup id with
  | none => simp [hl] at h
  | some row =>
    by_cases ht : 0 < ttlSecs ∧ now - row.updatedAtUnix > ttlSecs
    · simp [load, hl, ht, deleteById]
    · cases hm : wire.messagesFromJson row.messagesJson with
      | error e => simp [load, hl, hm, deleteById]
      | ok messages => simp [hl, ht, hm, Except.isOk, Except.toBool] at h

theorem load_of_not_drops (h : loadDrops wire now db id ttlSecs = false) :
    (db.conversations.lookup id = none ∧ load wire now db id ttlSecs = (none, db)) ∨
    ∃ row messages, db.conversations.lookup id = some row ∧
      wire.messagesFromJson row.messagesJson = .ok messages ∧
      (load wire now db id ttlSecs).1 = some ⟨messages, row.revision, row.activeAgentRole,
        row.activeSessionMode, row.activePermissionLevel,
        wire.layoutMetaFromColumn row.layoutMetaJson⟩ ∧
      (load wire now db id ttlSecs).2 = db.updateConversations (fun r => r.id = id)
        (fun r => { r with updatedAtUnix := now }) fun _ => rfl := by
  unfold loadDrops at h
  cases hl : db.conversations.lookup id with
  | none => exact .inl ⟨rfl, by simp [load, hl]⟩
  | some row =>
    simp only [hl, Option.any_some, Bool.or_eq_false_iff, decide_eq_false_iff_not] at h
    cases hm : wire.messagesFromJson row.messagesJson with
    | error e => simp [hm, Except.isOk, Except.toBool] at h
    | ok messages => exact .inr ⟨row, messages, rfl, hm, by simp [load, hl, h.1, hm]⟩

end Load

section Prune

/-- The tables after a set of conversations was dropped together with its archive rows. -/
structure Dropped (db db' : Db J) (dropped : String → Bool) : Prop where
  lookup : ∀ id, db'.conversations.lookup id =
    if dropped id then none else db.conversations.lookup id
  archive : db'.archive.rows = db.archive.rows.filter fun r => !dropped r.conversationId

theorem Dropped.refl (db : Db J) : Dropped db db fun _ => false where
  lookup _ := by simp
  archive := by simp

theorem Dropped.trans {db₁ db₂ db₃ : Db J} {d e : String → Bool} (h₁ : Dropped db₁ db₂ d)
    (h₂ : Dropped db₂ db₃ e) : Dropped db₁ db₃ fun id => e id || d id where
  lookup id := by
    rw [h₂.lookup, h₁.lookup]
    cases e id <;> simp
  archive := by
    rw [h₂.archive, h₁.archive, List.filter_filter]
    simp [Bool.not_or]

theorem dropConversations_dropped (db : Db J) (p : ConversationRow J → Bool) :
    ∃ d, Dropped db (dropConversations db p) d := by
  refine ⟨((db.conversations.rows.filter p).map ConversationRow.id).contains, fun id => ?_, rfl⟩
  cases hd : ((db.conversations.rows.filter p).map ConversationRow.id).contains id with
  | true =>
    apply Table.lookup_deleteWhere_of
    rintro r rfl
    exact hd
  | false =>
    apply Table.lookup_deleteWhere_of_not
    rintro r rfl
    exact hd

theorem pruneConversations_dropped (now : ℤ) (db : Db J) (ttlSecs maxEntries : ℕ) :
    ∃ d, Dropped db (pruneConversations now db ttlSecs maxEntries) d := by
  have hexp : ∃ d, Dropped db
      (if 0 < ttlSecs then pruneExpiredByTtl db (now - ttlSecs) else db) d := by
    split
    · exact dropConversations_dropped _ _
    · exact ⟨_, Dropped.refl db⟩
  simp only [pruneConversations]
  generalize (if 0 < ttlSecs then pruneExpiredByTtl db (now - ttlSecs) else db) = mid at hexp ⊢
  obtain ⟨d, hd⟩ := hexp
  split
  · simp only [pruneOverflowEntries]
    split
    · exact ⟨d, hd⟩
    · obtain ⟨e, he⟩ := dropConversations_dropped mid _
      exact ⟨_, hd.trans he⟩
  · exact ⟨d, hd⟩

end Prune

section Truncate

variable {wire} {now : ℤ} {db db' : Db J} {id : String} {expectedRevision : ℕ}
  {messages : List Message}

/-- The stored messages of `id` were replaced at the expected revision. -/
structure Persisted (wire : Wire J) (now : ℤ) (db db' : Db J) (id : String)
    (expectedRevision : ℕ) (messages : List Message) : Prop where
  archive : db'.archive = db.archive
  other : ∀ other, other ≠ id →
    db'.conversations.lookup other = db.conversations.lookup other
  row : ∃ json row, wire.messagesToJson messages = .ok json ∧
    db.conversations.lookup id = some row ∧ row.revision = expectedRevision ∧
    db'.conversations.lookup id = some (savedRow wire now messages json .none row)

theorem persist_cases {outcome : SaveConversationOutcome}
    (h : persistMessagesBumpRevision wire now db id expectedRevision messages = (outcome, db')) :
    (outcome = .conflict ∧ db' = db) ∨
      (outcome = .saved ∧ Persisted wire now db db' id expectedRevision messages) := by
  unfold persistMessagesBumpRevision at h
  split at h
  · cases h
    exact .inl ⟨rfl, rfl⟩
  · next json hjson =>
    split at h
    · next hany =>
      cases h
      obtain ⟨row, hrow, hid, hrev⟩ := lookup_of_any_revision hany
      refine .inr ⟨rfl, rfl, fun other hne => ?_, json, row, hjson, hrow, hrev, ?_⟩
      · apply Db.lookup_updateConversations_ne
        intro r hr
        simp [hr, hne]
      · apply Db.lookup_updateConversations _ _ hrow
        simp [hid, hrev]
    · cases h
      exact .inl ⟨rfl, rfl⟩

/-- A truncation that reports success found the revision, a complete archive prefix and
readable archive rows. The cut is past the end, inside the stored history, or inside the
archive; in the last case the archive is replayed and cleared. -/
theorem loadMessagesAtRevision_eq_some {canonical : List Message}
    (h : loadMessagesAtRevision wire db id expectedRevision = some canonical) :
    ∃ row, db.conversations.lookup id = some row ∧
      wire.messagesFromJson row.messagesJson = .ok canonical := by
  obtain ⟨row, hrow, hdec⟩ := Option.bind_eq_some_iff.mp h
  split at hdec
  · refine ⟨row, hrow, ?_⟩
    cases hm : wire.messagesFromJson row.messagesJson with
    | error e => simp [hm, Except.toOption] at hdec
    | ok ms => simpa [hm, Except.toOption] using hdec
  · cases hdec

theorem truncate_cases {userOrdinal : ℕ} {outcome : BranchTruncateOutcome}
    (h : truncateBeforeUserOrdinalIfRevision wire now db id userOrdinal expectedRevision =
      .ok (outcome, db')) :
    (outcome ≠ .saved ∧ db' = db) ∨
    (outcome = .saved ∧ archivePrefixIncomplete db id = false ∧
      ∃ row canonical archived, db.conversations.lookup id = some row ∧
        wire.messagesFromJson row.messagesJson = .ok canonical ∧
        loadArchiveMessages wire db id = .ok archived ∧
        ((countRealUsers archived ≤ userOrdinal ∧ db' = db ∧
            canonical.length ≤ branchCutIndex canonical (userOrdinal - countRealUsers archived)) ∨
          (countRealUsers archived ≤ userOrdinal ∧
            Persisted wire now db db' id expectedRevision (canonical.take
              (branchCutIndex canonical (userOrdinal - countRealUsers archived)))) ∨
          (userOrdinal < countRealUsers archived ∧ ∃ original mid,
            loadArchiveOriginalMessages wire db id = .ok original ∧
            Persisted wire now db mid id expectedRevision
              ((reexpandCanonical canonical original).take
                (branchCutIndex (reexpandCanonical canonical original) userOrdinal)) ∧
            db' = deleteArchiveForConversation mid id))) := by
  unfold truncateBeforeUserOrdinalIfRevision at h
  cases hload : loadMessagesAtRevision wire db id expectedRevision with
  | none =>
    simp only [hload] at h
    cases h
    exact .inl ⟨by simp, rfl⟩
  | some canonical =>
    simp only [hload] at h
    obtain ⟨row, hrow, hmsgs⟩ := loadMessagesAtRevision_eq_some hload
    split at h
    · cases h
      exact .inl ⟨by simp, rfl⟩
    · next hcomplete =>
      simp only [Bool.not_eq_true] at hcomplete
      cases harch : loadArchiveMessages wire db id with
      | error e => simp [archiveRealUserCount, harch, bind, Except.bind] at h
      | ok archived =>
        simp only [archiveRealUserCount, harch, bind, Except.bind, pure, Except.pure] at h
        split at h
        · next hle =>
          -- the cut is inside the stored history
          simp only [Except.ok.injEq] at h
          simp only [truncateWithinCanonical] at h
          split at h
          · next hcut =>
            cases h
            exact .inr ⟨rfl, hcomplete, row, canonical, archived, hrow, hmsgs, rfl,
              .inl ⟨hle, rfl, hcut⟩⟩
          · split at h
            · next mid hp =>
              cases h
              obtain ⟨hbad, -⟩ | ⟨-, hpers⟩ := persist_cases hp
              · cases hbad
              · exact .inr ⟨rfl, hcomplete, row, canonical, archived, hrow, hmsgs, rfl,
                  .inr (.inl ⟨hle, hpers⟩)⟩
            · cases h
              exact .inl ⟨by simp, rfl⟩
        · next hlt =>
          -- the cut is inside the archive
          unfold truncateAndClearArchive at h
          cases horig : loadArchiveOriginalMessages wire db id with
          | error e => simp [horig, bind, Except.bind] at h
          | ok original =>
            simp only [horig, bind, Except.bind, pure, Except.pure] at h
            split at h
            · next mid hp =>
              cases h
              obtain ⟨hbad, -⟩ | ⟨-, hpers⟩ := persist_cases hp
              · cases hbad
              · exact .inr ⟨rfl, hcomplete, row, canonical, archived, hrow, hmsgs, rfl,
                  .inr (.inr ⟨not_le.mp hlt, original, mid, rfl, hpers, rfl⟩)⟩
            · cases h
              exact .inl ⟨by simp, rfl⟩

end Truncate
end CrabMate
