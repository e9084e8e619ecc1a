import CrabMate.Store.Step

/-! Ownership of archive rows. Pruning removes the archive rows of the conversations it
drops; `delete_by_id` and the deletions inside `load` remove the conversation row alone. The
archive stays owned exactly in the runs where these meet no archive row. -/
namespace CrabMate
open List

variable {J : Type} (wire : Wire J)

/-- Every archive row belongs to a conversation that exists. -/
def NoOrphans (db : Db J) : Prop :=
  ∀ row ∈ db.archive.rows, ∃ conversation ∈ db.conversations.rows,
    conversation.id = row.conversationId

/-- A deletion outside pruning meets no archive row of its conversation. -/
def Cascades (db : Db J) : StoreOp J → Prop
  | .deleteById id => db.archiveOf id = []
  | .load now id ttlSecs => loadDrops wire now db id ttlSecs = true → db.archiveOf id = []
  | _ => True

theorem noOrphans_iff {db : Db J} :
    NoOrphans db ↔ ∀ id, db.conversations.lookup id = none → db.archiveOf id = [] := by
  constructor
  · intro h id hn
    rw [Db.archiveOf, filter_eq_nil_iff]
    intro row hrow hid
    obtain ⟨conversation, hc, hk⟩ := h row hrow
    exact Table.lookup_eq_none_iff.mp hn conversation hc (hk.trans (by simpa using hid))
  · intro h row hrow
    cases hl : db.conversations.lookup row.conversationId with
    | none =>
      have hmem : row ∈ db.archiveOf row.conversationId := Db.mem_archiveOf.mpr ⟨hrow, rfl⟩
      rw [h _ hl] at hmem
      cases hmem
    | some conversation => exact ⟨conversation, Table.lookup_eq_some_iff.mp hl⟩

theorem archiveOf_eq_nil_of_sublist {db db' : Db J} {id : String}
    (hsub : db'.archive.rows.Sublist db.archive.rows) (h : db.archiveOf id = []) :
    db'.archiveOf id = [] := by
  have hs := hsub.filter fun r => decide (r.conversationId = id)
  exact sublist_nil.mp (h ▸ hs)

theorem Keeps.noOrphans {db db' : Db J} (hk : Keeps db db') (h : NoOrphans db) :
    NoOrphans db' := by
  rw [noOrphans_iff] at h ⊢
  intro id hn
  exact archiveOf_eq_nil_of_sublist hk.archive (h id (hk.conversations id hn))

theorem Dropped.noOrphans {db db' : Db J} {dropped : String → Bool}
    (hd : Dropped db db' dropped) (h : NoOrphans db) : NoOrphans db' := by
  rw [noOrphans_iff] at h ⊢
  intro id hn
  rw [hd.lookup] at hn
  rw [Db.archiveOf, hd.archive, filter_filter, filter_eq_nil_iff]
  intro row hrow hid
  simp only [Bool.and_eq_true, decide_eq_true_eq, Bool.not_eq_true'] at hid
  rw [← hid.1, hid.2] at hn
  have hmem : row ∈ db.archiveOf row.conversationId := Db.mem_archiveOf.mpr ⟨hrow, rfl⟩
  rw [h _ hn] at hmem
  cases hmem

theorem Pruned.noOrphans {db db' : Db J} (hp : Pruned db db') (h : NoOrphans db) :
    NoOrphans db' :=
  Keeps.noOrphans ⟨fun id hn => by rwa [hp.conversations] at hn, hp.archive⟩ h

theorem save_noOrphans {db : Db J} (h : NoOrphans db) (now archiveNow : ℤ) (id : String)
    (messages : List Message) (active : ActiveState) (expectedRevision : Option ℕ)
    (commit : RecycledCommit) (codecMinBytes : ℕ) :
    NoOrphans (step wire db (.save now archiveNow id messages active expectedRevision commit
      codecMinBytes)) := by
  simp only [step]
  cases hs : saveWithArchiveIfRevision wire now archiveNow db id messages active expectedRevision
      (archiveRowsFromStructuralCommit commit.1) codecMinBytes with
  | error e => exact h
  | ok res =>
    obtain ⟨outcome, db'⟩ := res
    rcases save_cases hs with ⟨-, rfl⟩ | ⟨-, hother, ⟨json, -, hrow⟩, stored, hrows, hfrom⟩
    · exact h
    · rw [noOrphans_iff] at h ⊢
      intro other hn
      have hne : other ≠ id := by
        rintro rfl
        rcases hrow with ⟨row, -, -, hl⟩ | ⟨-, -, hl⟩ <;> simp [afterwards, hl] at hn
      have hold := h other (hother other hne ▸ hn)
      show db'.archiveOf other = []
      rw [hfrom.archiveOf_ne hrows hne, hold]

theorem deleteById_noOrphans_iff {db : Db J} (h : NoOrphans db) (id : String) :
    NoOrphans (deleteById db id) ↔ db.archiveOf id = [] := by
  have hgone : (deleteById db id).conversations.lookup id = none :=
    Table.lookup_deleteWhere_of fun r hr => by simp [hr]
  have hother : ∀ other, other ≠ id →
      (deleteById db id).conversations.lookup other = db.conversations.lookup other :=
    fun other hne => Table.lookup_deleteWhere_of_not fun r hr => by simp [hr, hne]
  rw [noOrphans_iff] at h ⊢
  constructor
  · intro h'
    exact h' id hgone
  · intro hempty other hn
    by_cases ho : other = id
    · exact ho ▸ hempty
    · exact h other (hother other ho ▸ hn)

/-- From an owned archive, a step keeps the archive owned exactly if it cascades. -/
theorem step_noOrphans_iff (db : Db J) (op : StoreOp J) (h : NoOrphans db) :
    NoOrphans (step wire db op) ↔ Cascades wire db op := by
  cases op with
  | save now archiveNow id messages active expectedRevision commit codecMinBytes =>
    exact iff_of_true (save_noOrphans wire h _ _ _ _ _ _ _ _) trivial
  | setActive id active => exact iff_of_true ((setActiveState_keeps db id active).noOrphans h) trivial
  | load now id ttlSecs =>
    cases hd : loadDrops wire now db id ttlSecs with
    | true => simp only [step, load_of_drops wire hd, deleteById_noOrphans_iff h, Cascades, hd,
        forall_const]
    | false =>
      refine iff_of_true ((load_keeps wire hd).noOrphans h) fun hbad => ?_
      rw [hd] at hbad
      cases hbad
  | deleteById id => exact deleteById_noOrphans_iff h id
  | prune now archiveNow ttlSecs maxEntries archiveMaxRows =>
    obtain ⟨dropped, hdropped⟩ := pruneConversations_dropped now db ttlSecs maxEntries
    exact iff_of_true ((pruneArchive_pruned _ _ _ _).noOrphans (hdropped.noOrphans h)) trivial
  | truncate now id userOrdinal expectedRevision =>
    exact iff_of_true ((truncate_keeps wire now db id _ _).noOrphans h) trivial
  | damage id json => exact iff_of_true ((updateConversations_keeps db _ _ _).noOrphans h) trivial

theorem noOrphans_empty : NoOrphans (Db.empty : Db J) := by
  intro row hrow
  cases hrow

/-- The original messages an operation archives for `id`. -/
def archivedBy (id : String) : StoreOp J → List Message
  | .save _ _ id' _ _ _ commit _ => if id' = id then commit.1.archivedPrefix else []
  | _ => []

/-- The archived originals of `id` are among the given messages. -/
def ArchivesOnly (id : String) (db : Db J) (source : List Message) : Prop :=
  ∀ row ∈ db.archive.rows, row.conversationId = id → row.reason ≠ .artifact →
    ∀ part, decodeArchivePayload wire row.seq row.messagesJson row.codec = .ok part →
      ∀ m ∈ part, m ∈ source

theorem original_of_mem_archiveRows {commit : StructuralCommit} {row : ArchiveRow}
    (h : row ∈ archiveRowsFromStructuralCommit commit) (hr : row.reason ≠ .artifact) :
    row.messages = commit.archivedPrefix := by
  unfold archiveRowsFromStructuralCommit at h
  rcases mem_append.mp h with h | h
  · split at h
    · cases h
    · rw [mem_singleton.mp h]
  · split at h
    · cases h
    · rw [mem_singleton.mp h] at hr
      exact absurd rfl hr

theorem save_archivesOnly {id : String} {db : Db J} {source : List Message}
    (h : ArchivesOnly wire id db source) (now archiveNow : ℤ) (id' : String)
    (messages : List Message) (active : ActiveState) (expectedRevision : Option ℕ)
    (commit : RecycledCommit) (codecMinBytes : ℕ) :
    ArchivesOnly wire id (step wire db (.save now archiveNow id' messages active
      expectedRevision commit codecMinBytes))
      (source ++ if id' = id then commit.1.archivedPrefix else []) := by
  have hmono : ArchivesOnly wire id db
      (source ++ if id' = id then commit.1.archivedPrefix else []) :=
    fun row hrow hid hr part hp m hm => mem_append_left _ (h row hrow hid hr part hp m hm)
  simp only [step]
  cases hs : saveWithArchiveIfRevision wire now archiveNow db id' messages active
      expectedRevision (archiveRowsFromStructuralCommit commit.1) codecMinBytes with
  | error e => exact hmono
  | ok res =>
    obtain ⟨outcome, db'⟩ := res
    rcases save_cases hs with ⟨-, rfl⟩ | ⟨-, -, -, stored, hrows, hfrom⟩
    · exact hmono
    · intro row hrow hid hr part hp m hm
      simp only [afterwards, hrows, mem_append] at hrow
      rcases hrow with hrow | hrow
      · exact hmono row hrow hid hr part hp m hm
      · obtain ⟨hid', -, src, hsrc, hreason, hdec⟩ := hfrom.mem hrow
        have hpart : part = src.messages := by
          rw [hdec] at hp
          cases hp
          rfl
        rw [hpart, original_of_mem_archiveRows hsrc (hreason ▸ hr)] at hm
        apply mem_append_right
        rwa [if_pos (hid'.symm.trans hid)]

theorem step_archivesOnly {id : String} {db : Db J} {source : List Message}
    (h : ArchivesOnly wire id db source) (op : StoreOp J) :
    ArchivesOnly wire id (step wire db op) (source ++ archivedBy id op) := by
  have hsub : ∀ {db' : Db J}, db'.archive.rows.Sublist db.archive.rows →
      ArchivesOnly wire id db' (source ++ []) := by
    intro db' hs row hrow hid hr part hp m hm
    rw [append_nil]
    exact h row (hs.subset hrow) hid hr part hp m hm
  cases op with
  | save now archiveNow id' messages active expectedRevision commit codecMinBytes =>
    exact save_archivesOnly wire h _ _ _ _ _ _ _ _
  | setActive id' active => exact hsub (setActiveState_keeps db id' active).archive
  | load now id' ttlSecs =>
    apply hsub
    cases hd : loadDrops wire now db id' ttlSecs with
    | true => rw [step, load_of_drops wire hd]; exact List.Sublist.refl _
    | false => exact (load_keeps wire hd).archive
  | deleteById id' => exact hsub (List.Sublist.refl _)
  | prune now archiveNow ttlSecs maxEntries archiveMaxRows =>
    obtain ⟨dropped, hdropped⟩ := pruneConversations_dropped now db ttlSecs maxEntries
    apply hsub
    refine (pruneArchive_pruned archiveNow _ ttlSecs archiveMaxRows).archive.trans ?_
    rw [hdropped.archive]
    exact filter_sublist
  | truncate now id' userOrdinal expectedRevision =>
    exact hsub (truncate_keeps wire now db id' _ _).archive
  | damage id' json => exact hsub (List.Sublist.refl _)

theorem run_archivesOnly {id : String} {db : Db J} {source : List Message}
    (h : ArchivesOnly wire id db source) (ops : List (StoreOp J)) :
    ArchivesOnly wire id (Run.run (step wire) db ops) (source ++ ops.flatMap (archivedBy id)) := by
  induction ops generalizing db source with
  | nil => simpa using h
  | cons op ops ih =>
    rw [flatMap_cons, ← append_assoc]
    exact ih (step_archivesOnly wire h op)

theorem mem_loadArchiveOriginal {id : String} {db : Db J} {source ms : List Message}
    (h : ArchivesOnly wire id db source) (hl : loadArchiveOriginalMessages wire db id = .ok ms)
    {m : Message} (hm : m ∈ ms) : m ∈ source := by
  obtain ⟨row, hrow, part, hp, hmp⟩ := mem_decodeArchiveRows wire hl hm
  rw [orderBySeq, mem_insertionSort, mem_filter, Db.mem_archiveOf] at hrow
  exact h row hrow.1.1 hrow.1.2 (by simpa using hrow.2) part hp m hmp

/-- In every state of the run the archive is owned, and a conversation that starts after its
id was absent reads back only originals archived since. -/
structure OwnedThroughout (ops : List (StoreOp J)) : Prop where
  owned : ∀ k, NoOrphans (Run.run (step wire) Db.empty (ops.take k))
  fresh : ∀ before after id, ops = before ++ after →
    (Run.run (step wire) Db.empty before).conversations.lookup id = none →
    ∀ ms, loadArchiveOriginalMessages wire (Run.run (step wire) Db.empty ops) id = .ok ms →
      ∀ m ∈ ms, ∃ op ∈ after, m ∈ archivedBy id op

/-- The archive is owned throughout a run exactly if every deletion outside pruning meets no
archive row of its conversation. -/
theorem ownedThroughout_iff (ops : List (StoreOp J)) :
    OwnedThroughout wire ops ↔ Run.AllOk (step wire) (Cascades wire) Db.empty ops := by
  have halways := Run.always_iff (step_noOrphans_iff wire) noOrphans_empty ops
  constructor
  · intro h
    exact halways.mp h.owned
  · intro h
    refine ⟨halways.mpr h, ?_⟩
    rintro before after id rfl hnone ms hl m hm
    have hbefore : NoOrphans (Run.run (step wire) Db.empty before) :=
      Run.invariant (fun s op hs hop => (step_noOrphans_iff wire s op hs).mpr hop)
        noOrphans_empty ((Run.allOk_append _ _ _ _ _).mp h).1
    have hempty := noOrphans_iff.mp hbefore id hnone
    have hstart : ArchivesOnly wire id (Run.run (step wire) Db.empty before) [] := by
      intro row hrow hid
      have hmem := Db.mem_archiveOf.mpr ⟨hrow, hid⟩
      rw [hempty] at hmem
      cases hmem
    have hend := run_archivesOnly wire hstart after
    rw [← Run.run_append] at hend
    simpa using mem_loadArchiveOriginal wire hend hl hm

/-- A conversation with one archived turn is deleted and created again: the new conversation
reads the archived turn of the deleted one. -/
theorem deletedArchive_leaks :
    ¬ ∀ (J : Type) (wire : Wire J) (ops : List (StoreOp J)), OwnedThroughout wire ops := by
  intro h
  let first : StoreOp (Option (List Message)) :=
    .save 0 0 "c" [.userOnly "u1"] .none none
      ⟨⟨[.userOnly "u0"], false, [], 0, 0, 1⟩, by simp⟩ 0
  let again : StoreOp (Option (List Message)) :=
    .save 2 2 "c" [.userOnly "v0"] .none none ⟨.empty, by simp [StructuralCommit.empty]⟩ 0
  have hfresh := (h _ plainWire [first, .deleteById "c", again]).fresh
    [first, .deleteById "c"] [again] "c" rfl (by decide +kernel) [.userOnly "u0"] (by decide +kernel)
    (.userOnly "u0") (by simp)
  simp [again, archivedBy, StructuralCommit.empty] at hfresh

end CrabMate
