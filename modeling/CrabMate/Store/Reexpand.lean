import CrabMate.Context.Turn
import CrabMate.Store.Replay

/-! Committed turns against the store. Each turn reads its conversation, commits its view and
saves the messages together with the archived prefix; replaying the archive in front of the
stored messages gives back every conversation row that was ever appended. -/
namespace CrabMate
open List

variable {J : Type} (wire : Wire J) (parseJson : String → Option JsonValue)

/-- A conversation turn, or a change of the session settings. -/
inductive TurnEvent where
  | turn (now archiveNow : ℤ) (id : String) (active : ActiveState) (codecMinBytes : ℕ)
      (turn : Turn)
  | setActive (id : String) (active : ActiveState)

/-- Reads the conversation, commits the turn and saves the result at the revision read. -/
def saveTurn (now archiveNow : ℤ) (db : Db J) (id : String) (active : ActiveState)
    (codecMinBytes : ℕ) (turn : Turn) : Except StoreError (SaveConversationOutcome × Db J) :=
  let (loaded, db) := load wire now db id 0
  let stored := (loaded.map LoadedConversation.messages).getD []
  let (messages, commit) := turn.committed parseJson stored
  saveWithArchiveIfRevision wire now archiveNow db id messages active
    (loaded.map LoadedConversation.revision) (archiveRowsFromStructuralCommit commit) codecMinBytes

/-- The tables and the conversation rows appended by the turns that were saved. -/
def turnStep (s : Tracked J) : TurnEvent → Tracked J
  | .turn now archiveNow id active codecMinBytes turn =>
    match saveTurn wire parseJson now archiveNow s.db id active codecMinBytes turn with
    | .ok (.saved, db) => ⟨db, fun other =>
        if other = id then s.history id ++ turn.appended.filter conversationRow
        else s.history other⟩
    | .ok (.conflict, _) => ⟨(load wire now s.db id 0).2, s.history⟩
    | .error _ => ⟨(load wire now s.db id 0).2, s.history⟩
  | .setActive id active => ⟨(setActiveState s.db id active).2, s.history⟩

/-- The conversation rows read back by replaying the archive. -/
def replayedRows (db : Db J) (id : String) : Option (List Message) := do
  let row ← db.conversations.lookup id
  let canonical ← (wire.messagesFromJson row.messagesJson).toOption
  let original ← (loadArchiveOriginalMessages wire db id).toOption
  return (reexpandCanonical canonical original).filter conversationRow

/-- The rows of one conversation: a stored text that starts with a real user, and archive rows
whose originals come before it in the history. -/
structure Replayable (wire : Wire J) (row : ConversationRow J)
    (rows : List (StoredArchiveRow J)) (history : List Message) : Prop where
  increasing : rows.Pairwise fun a b => a.seq < b.seq
  contents : ∃ stored original, wire.messagesFromJson row.messagesJson = .ok stored ∧
    decodeArchiveRows wire (rows.filter fun r => r.reason ≠ .artifact) = .ok original ∧
    original.filter conversationRow ++ stored.filter conversationRow = history ∧
    StartsWithUser (stored.filter conversationRow)

def AllReplayable (s : Tracked J) : Prop :=
  ∀ id, match s.db.conversations.lookup id with
    | none => s.db.archiveOf id = [] ∧ s.history id = []
    | some row => Replayable wire row (s.db.archiveOf id) (s.history id)

theorem Replayable.replay {wire : Wire J} {db : Db J} {id : String} {row : ConversationRow J}
    {history : List Message} (h : Replayable wire row (db.archiveOf id) history)
    (hrow : db.conversations.lookup id = some row) : replayedRows wire db id = some history := by
  obtain ⟨stored, original, hstored, horiginal, hhist, hstart⟩ := h.contents
  have hload : loadArchiveOriginalMessages wire db id = .ok original := by
    rw [loadArchiveOriginalMessages, orderBySeq_of_increasing (h.increasing.filter _), horiginal]
  have hpre : ∀ m ∈ stored.takeWhile (fun m => !realUser m), conversationRow m = false := by
    have hsplit := (takeWhile_append_dropWhile (p := fun m => !realUser m) (l := stored)).symm
    have hnil := hstart.before_user hsplit fun m hm => by simpa using mem_takeWhile_imp hm
    exact fun m hm => by simpa using filter_eq_nil_iff.mp hnil m hm
  simp [replayedRows, hrow, hstored, hload, Except.toOption,
    filter_reexpand conversationRow_ignoresSideRows.summary stored hpre, hhist]

/-- The original rows among the stored rows of one commit hold its archived prefix. -/
theorem StoredFrom.originals {wire : Wire J} {id : String} {seq : ℤ} {commit : StructuralCommit}
    {stored : List (StoredArchiveRow J)}
    (h : StoredFrom wire id seq (archiveRowsFromStructuralCommit commit) stored) :
    decodeArchiveRows wire (stored.filter fun r => r.reason ≠ .artifact) =
      .ok commit.archivedPrefix := by
  have hfilter : ∀ (rows : List ArchiveRow) (seq : ℤ) (stored : List (StoredArchiveRow J)),
      StoredFrom wire id seq rows stored →
      decodeArchiveRows wire (stored.filter fun r => r.reason ≠ .artifact) =
        .ok ((rows.filter fun r => r.reason ≠ .artifact).flatMap ArchiveRow.messages) := by
    intro rows
    induction rows with
    | nil =>
      intro seq stored h
      cases stored with
      | nil => rfl
      | cons => cases h
    | cons row rows ih =>
      intro seq stored h
      cases stored with
      | nil => cases h
      | cons s stored =>
        obtain ⟨⟨-, -, hreason, hdec⟩, hrest⟩ := h
        have hih := ih _ _ hrest
        by_cases ha : row.reason = .artifact
        · simpa [hreason, ha] using hih
        · have hih' : decodeArchiveRows wire
              (stored.filter fun r => !decide (r.reason = .artifact)) =
              .ok ((rows.filter fun r => !decide (r.reason = .artifact)).flatMap
                ArchiveRow.messages) := by simpa using hih
          simp [hreason, ha, decodeArchiveRows, hdec, hih', bind, Except.bind, pure, Except.pure]
  rw [hfilter _ _ _ h]
  unfold archiveRowsFromStructuralCommit
  cases commit.archivedPrefix <;> cases commit.archivedArtifacts <;>
    cases commit.prefixSummarized <;> simp

theorem increasing_append {wire : Wire J} {db : Db J} {id : String} {rows : List ArchiveRow}
    {stored : List (StoredArchiveRow J)}
    (hold : (db.archiveOf id).Pairwise fun a b => a.seq < b.seq)
    (hfrom : StoredFrom wire id (nextSeq db id) rows stored) :
    (db.archiveOf id ++ stored).Pairwise fun a b => a.seq < b.seq :=
  pairwise_append.mpr ⟨hold, hfrom.increasing, fun _ ha _ hb =>
    (lt_nextSeq ha).trans_le (hfrom.mem hb).2.1⟩

section Step

variable {wire parseJson} {s : Tracked J}

theorem AllReplayable.update (hs : AllReplayable wire s) (p : ConversationRow J → Bool)
    {f : ConversationRow J → ConversationRow J} (hf : ∀ r, (f r).id = r.id)
    (hj : ∀ r, (f r).messagesJson = r.messagesJson) :
    AllReplayable wire ⟨s.db.updateConversations p f hf, s.history⟩ := by
  intro id
  have h := hs id
  have hl : (s.db.updateConversations p f hf).conversations.lookup id =
      (s.db.conversations.lookup id).map fun r => if p r then f r else r :=
    Table.lookup_updateWhere hf
  simp only [hl]
  cases hrow : s.db.conversations.lookup id with
  | none =>
    rw [hrow] at h
    exact h
  | some row =>
    rw [hrow] at h
    obtain ⟨stored, original, hstored, hrest⟩ := h.contents
    refine ⟨h.increasing, stored, original, ?_, hrest⟩
    show wire.messagesFromJson (if p row then f row else row).messagesJson = .ok stored
    split
    · rw [hj, hstored]
    · exact hstored

/-- What a turn reads: nothing, or the row with its text and revision. -/
theorem load_replayable (hs : AllReplayable wire s) (now : ℤ) (id : String) :
    AllReplayable wire ⟨(load wire now s.db id 0).2, s.history⟩ ∧
    ((load wire now s.db id 0).2.conversations.lookup id = none ∧
        (load wire now s.db id 0).1 = none ∨
      ∃ row loaded, (load wire now s.db id 0).2.conversations.lookup id = some row ∧
        (load wire now s.db id 0).1 = some loaded ∧
        wire.messagesFromJson row.messagesJson = .ok loaded.messages ∧
        loaded.revision = row.revision) := by
  have hdrops : loadDrops wire now s.db id 0 = false := by
    have h := hs id
    unfold loadDrops
    cases hrow : s.db.conversations.lookup id with
    | none => rfl
    | some row =>
      rw [hrow] at h
      obtain ⟨stored, -, hstored, -⟩ := h.contents
      simp [hstored, Except.isOk, Except.toBool]
  rcases load_of_not_drops wire hdrops with ⟨hnone, hl⟩ | ⟨row, messages, hrow, hdec, hl, hdb⟩
  · rw [hl]
    exact ⟨hs, .inl ⟨hnone, rfl⟩⟩
  · rw [hdb, hl]
    refine ⟨hs.update _ _ fun _ => rfl, .inr ⟨{ row with updatedAtUnix := now }, _, ?_, rfl, hdec,
      rfl⟩⟩
    have hid := (Table.lookup_eq_some_iff.mp hrow).2
    exact Db.lookup_updateConversations _ _ hrow (by simp [hid])

/-- The history splits into the archived originals and the text that was read. -/
theorem AllReplayable.split_history (hs : AllReplayable wire s) {id : String}
    {loaded : Option LoadedConversation}
    (hread : s.db.conversations.lookup id = none ∧ loaded = none ∨
      ∃ row l, s.db.conversations.lookup id = some row ∧ loaded = some l ∧
        wire.messagesFromJson row.messagesJson = .ok l.messages ∧ l.revision = row.revision) :
    ∃ original, decodeArchiveRows wire
        ((s.db.archiveOf id).filter fun r => r.reason ≠ .artifact) = .ok original ∧
      (s.db.archiveOf id).Pairwise (fun a b => a.seq < b.seq) ∧
      original.filter conversationRow ++
        ((loaded.map LoadedConversation.messages).getD []).filter conversationRow =
          s.history id ∧
      StartsWithUser (((loaded.map LoadedConversation.messages).getD []).filter
        conversationRow) := by
  have h := hs id
  rcases hread with ⟨hnone, rfl⟩ | ⟨row, l, hl, rfl, hdec, -⟩
  · rw [hnone] at h
    refine ⟨[], by rw [h.1]; rfl, by rw [h.1]; exact List.Pairwise.nil, ?_, ?_⟩
    · rw [h.2]
      rfl
    · intro m hm
      cases hm
  · rw [hl] at h
    obtain ⟨stored, original, hdec', ho, hh, hst⟩ := h.contents
    obtain rfl : l.messages = stored := by
      rw [hdec] at hdec'
      exact Except.ok.inj hdec'
    exact ⟨original, ho, h.increasing, hh, hst⟩

/-- Saving a committed turn extends the history by the rows of the turn. -/
theorem saved_replayable (hs : AllReplayable wire s) {now archiveNow : ℤ} {id : String}
    {active : ActiveState} {codecMinBytes : ℕ} (turn : Turn) {db' : Db J}
    {loaded : Option LoadedConversation}
    (hread : s.db.conversations.lookup id = none ∧ loaded = none ∨
      ∃ row l, s.db.conversations.lookup id = some row ∧ loaded = some l ∧
        wire.messagesFromJson row.messagesJson = .ok l.messages ∧ l.revision = row.revision)
    (hsave : saveWithArchiveIfRevision wire now archiveNow s.db id
      (turn.committed parseJson ((loaded.map LoadedConversation.messages).getD [])).1 active
      (loaded.map LoadedConversation.revision)
      (archiveRowsFromStructuralCommit
        (turn.committed parseJson ((loaded.map LoadedConversation.messages).getD [])).2)
      codecMinBytes = .ok (.saved, db')) :
    AllReplayable wire ⟨db', fun other =>
      if other = id then s.history id ++ turn.appended.filter conversationRow
      else s.history other⟩ := by
  set stored := (loaded.map LoadedConversation.messages).getD []
  obtain ⟨hbad, -⟩ | ⟨-, hother, ⟨json, hjson, hrow⟩, new, hrows, hfrom⟩ := save_cases hsave
  · cases hbad
  obtain ⟨original, horiginal, hincr, hhist, hstart⟩ := hs.split_history hread
  obtain ⟨hsplit, hstart'⟩ := turn.committed_rows parseJson hstart
  intro other
  by_cases ho : other = id
  · subst ho
    obtain ⟨row', hl', hjson'⟩ : ∃ row', db'.conversations.lookup other = some row' ∧
        row'.messagesJson = json := by
      rcases hrow with ⟨row, -, -, hl'⟩ | ⟨-, -, hl'⟩
      · exact ⟨_, hl', rfl⟩
      · exact ⟨_, hl', rfl⟩
    have harch := hfrom.archiveOf_self hrows
    simp only [hl', if_true]
    refine ⟨harch ▸ increasing_append hincr hfrom, (turn.committed parseJson stored).1,
      original ++ (turn.committed parseJson stored).2.archivedPrefix, ?_, ?_, ?_, hstart'⟩
    · rw [hjson']
      exact wire.fromJson_toJson hjson
    · rw [harch, filter_append]
      exact decodeArchiveRows_append_ok wire horiginal hfrom.originals
    · rw [filter_append, append_assoc, hsplit, ← append_assoc, hhist]
  · have h := hs other
    rw [← hother other ho, ← hfrom.archiveOf_ne hrows ho] at h
    simpa only [if_neg ho] using h

theorem turnStep_replayable (s : Tracked J) (event : TurnEvent) (hs : AllReplayable wire s) :
    AllReplayable wire (turnStep wire parseJson s event) := by
  cases event with
  | turn now archiveNow id active codecMinBytes turn =>
    obtain ⟨hread, hloaded⟩ := load_replayable hs now id
    simp only [turnStep]
    split
    · next db' hsave =>
      simp only [saveTurn] at hsave
      exact saved_replayable hread turn hloaded hsave
    · exact hread
    · exact hread
  | setActive id active =>
    simp only [turnStep, setActiveState]
    split
    · exact hs.update _ _ fun _ => rfl
    · exact hs

end Step

theorem allReplayable_empty : AllReplayable wire (Tracked.empty : Tracked J) :=
  fun _ => ⟨rfl, rfl⟩

/-- After any sequence of turns, replaying the archive into the stored messages of a
conversation gives exactly the conversation rows its saved turns appended. -/
theorem reexpand_restores_history (events : List TurnEvent) (id : String) :
    let s := Run.run (turnStep wire parseJson) (Tracked.empty : Tracked J) events
    (s.db.conversations.lookup id = none ∧ s.history id = []) ∨
      replayedRows wire s.db id = some (s.history id) := by
  intro s
  have hs : AllReplayable wire s :=
    Run.invariant' turnStep_replayable (allReplayable_empty wire) events
  have h := hs id
  cases hrow : s.db.conversations.lookup id with
  | none =>
    rw [hrow] at h
    exact .inl ⟨rfl, h.2⟩
  | some row =>
    rw [hrow] at h
    exact .inr (h.replay hrow)

end CrabMate
