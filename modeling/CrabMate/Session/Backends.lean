import CrabMate.Session.Retention

/-! The two backends of the session store give the same results, as long as no step reaches what
they do differently. -/
namespace CrabMate
open Option Table

variable {J : Type}

/-- A map and tables that hold the same conversations. -/
inductive SameSessions (wire : Wire J) : ConversationBacking J → ConversationBacking J → Prop
  | intro {map : MemoryMap} {db : Db J} (h : BackendsAgree wire map db) :
    SameSessions wire (.memory map) (.sqlite db)

section Rows

variable {wire : Wire J} {map : MemoryMap} {db : Db J} {now : ℤ} {id : String}
  {e : MemoryConversationEntry} {row : ConversationRow J}

theorem BackendsAgree.lookup (h : BackendsAgree wire map db) (id : String) :
    Option.Rel (RowAgrees wire) (map.lookup id) (db.conversations.lookup id) :=
  h.rows.lookup (fun _ _ hrow => hrow.id) id

theorem BackendsAgree.lookup_cases (h : BackendsAgree wire map db) (id : String) :
    (map.lookup id = none ∧ db.conversations.lookup id = none) ∨
      ∃ e row, map.lookup id = some e ∧ db.conversations.lookup id = some row ∧
        RowAgrees wire e row := by
  have hrel := h.lookup id
  generalize map.lookup id = found at hrel ⊢
  generalize db.conversations.lookup id = found' at hrel ⊢
  cases hrel with
  | none => exact .inl ⟨rfl, rfl⟩
  | some hrow => exact .inr ⟨_, _, rfl, rfl, hrow⟩

theorem RowAgrees.id_decide (h : RowAgrees wire e row) (id : String) :
    decide (e.id = id) = decide (row.id = id) := by rw [h.id]

theorem BackendsAgree.delete (h : BackendsAgree wire map db) (id : String) :
    BackendsAgree wire (map.deleteWhere fun e => e.id = id) (deleteById db id) where
  rows := h.rows.deleteWhere fun _ _ hrow => hrow.id_decide id
  archive := h.archive

/-- Rewriting the conversation `id` on both sides. -/
theorem BackendsAgree.update (h : BackendsAgree wire map db)
    {f : MemoryConversationEntry → MemoryConversationEntry} (hf : ∀ e, (f e).id = e.id)
    {g : ConversationRow J → ConversationRow J} (hg : ∀ row, (g row).id = row.id)
    {q : ConversationRow J → Bool}
    (hq : ∀ e row, e ∈ map.rows → RowAgrees wire e row → decide (e.id = id) = q row)
    (hfg : ∀ e row, map.lookup id = some e → RowAgrees wire e row →
      RowAgrees wire (f e) (g row)) :
    BackendsAgree wire (map.updateWhere (fun e => e.id = id) f hf)
      (db.updateConversations q g hg) where
  rows := h.rows.updateWhere hf hg hq fun e row hmem hid =>
    hfg e row (lookup_eq_some_iff.mpr ⟨hmem, of_decide_eq_true hid⟩)
  archive := h.archive

end Rows

section Load

variable {wire : Wire J} {map : MemoryMap} {db : Db J}

theorem load_agrees (h : BackendsAgree wire map db) (now : ℤ) (id : String) (ttlSecs : ℕ) :
    let loaded := ConversationBacking.loadSeed wire
      (clockAt (.memory map : ConversationBacking J) now) (.memory map) id ttlSecs
    let loaded' := ConversationBacking.loadSeed wire (clockAt (.sqlite db) now) (.sqlite db) id
      ttlSecs
    loaded.1.map ConversationTurnSeed.view = loaded'.1.map ConversationTurnSeed.view ∧
      SameSessions wire loaded.2 loaded'.2 := by
  intro loaded loaded'
  rcases h.lookup_cases id with ⟨hmap, hdb⟩ | ⟨e, row, hmap, hdb, hrow⟩
  · have hm : loaded = (none, .memory map) := by
      simp [loaded, ConversationBacking.loadSeed, hmap]
    have hd : loaded' = (none, .sqlite db) := by
      simp [loaded', ConversationBacking.loadSeed, load, hdb]
    rw [hm, hd]
    exact ⟨rfl, .intro h⟩
  · have hage := expired_iff now row.updatedAtUnix ttlSecs
    rw [← hrow.updatedAt] at hage
    by_cases hold : 0 < ttlSecs ∧ now - row.updatedAtUnix > ttlSecs
    · have hold' : 0 < ttlSecs ∧ nanos now - e.updatedAt > fromSecs ttlSecs := by rwa [hage]
      have hm : loaded = (none, .memory (map.deleteWhere fun e => e.id = id)) := by
        simp only [loaded, ConversationBacking.loadSeed, clockAt, hmap]
        exact if_pos hold'
      have hd : loaded' = (none, .sqlite (deleteById db id)) := by
        have hload : load wire now db id ttlSecs = (none, deleteById db id) := by
          rw [load, hdb]
          exact if_pos hold
        simp only [loaded', ConversationBacking.loadSeed, clockAt, hload]
        rfl
      rw [hm, hd]
      exact ⟨rfl, .intro (h.delete id)⟩
    · have hold' : ¬(0 < ttlSecs ∧ nanos now - e.updatedAt > fromSecs ttlSecs) := by rwa [hage]
      have hupdate : BackendsAgree wire
          (map.updateWhere (fun e => e.id = id) (fun e => { e with updatedAt := nanos now })
            fun _ => rfl)
          (db.updateConversations (fun r => r.id = id) (fun r => { r with updatedAtUnix := now })
            fun _ => rfl) :=
        h.update _ _ (fun _ _ _ hrow => hrow.id_decide id) fun _ _ _ hrow =>
          { hrow with updatedAt := rfl }
      have hm : loaded = (some {
          messages := e.messages
          expectedRevision := some e.revision
          persistedActiveAgentRole := e.activeAgentRole
          persistedActiveSessionMode := e.activeSessionMode
          persistedActivePermissionLevel := e.activePermissionLevel
          layout := e.layout }, .memory (map.updateWhere (fun e => e.id = id)
            (fun e => { e with updatedAt := nanos now }) fun _ => rfl)) := by
        simp only [loaded, ConversationBacking.loadSeed, clockAt, hmap]
        exact if_neg hold'
      have hload : load wire now db id ttlSecs = (some {
          messages := e.messages
          revision := row.revision
          activeAgentRole := row.activeAgentRole
          activeSessionMode := row.activeSessionMode
          activePermissionLevel := row.activePermissionLevel
          layout := wire.layoutMetaFromColumn row.layoutMetaJson },
          db.updateConversations (fun r => r.id = id) (fun r => { r with updatedAtUnix := now })
            fun _ => rfl) := by
        rw [load, hdb]
        refine (if_neg hold).trans ?_
        rw [hrow.messages]
      have hsettings : e.settings = row.settings := hrow.settings
      rw [hm]
      simp only [loaded', ConversationBacking.loadSeed, clockAt, hload]
      refine ⟨?_, .intro hupdate⟩
      simp only [map_some, ConversationTurnSeed.view, hrow.revision]
      rw [← MemoryConversationEntry.settings, hsettings]
      rfl

end Load

section Settings

variable {wire : Wire J} {map : MemoryMap} {db : Db J} {e : MemoryConversationEntry}
  {row : ConversationRow J}

theorem nonemptyPersistedColumn_of_column {raw : Option String} {value : String}
    (h : activeStateColumn raw = some value) : nonemptyPersistedColumn value = some value := by
  rw [activeStateColumn, filter_eq_some_iff, map_eq_some_iff] at h
  obtain ⟨⟨text, -, rfl⟩, hne⟩ := h
  rw [nonemptyPersistedColumn, RustStr.trimString_trimString, if_neg (by simpa using hne)]

theorem nonemptyPersistedColumn_getD (raw : Option String) (column : String) :
    nonemptyPersistedColumn ((activeStateColumn raw).getD column) =
      (activeStateColumn raw).or (nonemptyPersistedColumn column) := by
  cases h : activeStateColumn raw with
  | none => rw [getD_none, none_or]
  | some value =>
    rw [getD_some, some_or]
    exact nonemptyPersistedColumn_of_column h

theorem activeStateColumn_column (raw : Option String) :
    activeStateColumn (activeStateColumn raw) = activeStateColumn raw := by
  cases h : activeStateColumn raw with
  | none => rfl
  | some value =>
    have hvalue := nonemptyPersistedColumn_of_column h
    rw [nonemptyPersistedColumn] at hvalue
    split at hvalue
    · cases hvalue
    · next hne =>
      rw [Option.some.injEq] at hvalue
      rw [hvalue] at hne
      simpa [activeStateColumn, hvalue] using hne

theorem settings_applyActiveState (h : RowAgrees wire e row) (active : ActiveState) :
    (e.applyActiveState active).settings = (pushActiveAssigns active row).settings := by
  have hsettings := h.settings
  simp only [MemoryConversationEntry.settings, ConversationRow.settings, ActiveState.mk.injEq]
    at hsettings
  obtain ⟨hrole, hmode, hlevel⟩ := hsettings
  simp only [MemoryConversationEntry.settings, ConversationRow.settings,
    MemoryConversationEntry.applyActiveState, pushActiveAssigns, nonemptyPersistedColumn_getD,
    hrole, hmode, hlevel]

theorem applyActiveState_owned (e : MemoryConversationEntry) (active : ActiveState) :
    e.applyActiveState (ownedActiveState active) = e.applyActiveState active := by
  simp only [MemoryConversationEntry.applyActiveState, ownedActiveState, activeStateColumn_column]

theorem pushActiveAssigns_none {active : ActiveState} (h : hasActiveAssigns active = false)
    (row : ConversationRow J) : pushActiveAssigns active row = row := by
  simp only [hasActiveAssigns, Bool.or_eq_false_iff, isSome_eq_false_iff,
    isNone_iff_eq_none] at h
  obtain ⟨⟨hrole, hmode⟩, hlevel⟩ := h
  simp only [pushActiveAssigns, hrole, hmode, hlevel, getD_none]

/-- Without a value to write, the update that is left out would change nothing. -/
theorem setActiveState_db (db : Db J) (id : String) (active : ActiveState) :
    (setActiveState db id active).2 = db.updateConversations (fun r => r.id = id)
      (pushActiveAssigns active) (id_pushActiveAssigns active) := by
  unfold setActiveState
  cases h : hasActiveAssigns active with
  | true => rfl
  | false =>
    have hrows : db.conversations.updateWhere (fun r => r.id = id) (pushActiveAssigns active)
        (id_pushActiveAssigns active) = db.conversations := by
      apply Table.ext
      simp [pushActiveAssigns_none h]
    rw [Db.updateConversations, hrows]
    rfl

theorem setActive_agrees (h : BackendsAgree wire map db) (id : String) (active : ActiveState) :
    let set := ConversationBacking.setActiveState (.memory map : ConversationBacking J) id active
    let set' := ConversationBacking.setActiveState (.sqlite db) id active
    set.1 = set'.1 ∧ SameSessions wire set.2 set'.2 := by
  intro set set'
  have hfound : (map.lookup id).isSome = (setActiveState db id active).1 := by
    have hany : (setActiveState db id active).1 = db.conversations.rows.any fun r => r.id = id := by
      unfold setActiveState
      split <;> rfl
    rw [hany, Bool.eq_iff_iff, any_key_iff, isSome_iff_exists]
    rcases h.lookup_cases id with ⟨hmap, hdb⟩ | ⟨e, row, hmap, hdb, -⟩
    · simp [hmap, hdb]
    · simp [hmap, hdb]
  have hset : set' = ((setActiveState db id active).1, .sqlite (setActiveState db id active).2) :=
    rfl
  rw [hset, setActiveState_db]
  refine ⟨hfound, .intro ?_⟩
  refine h.update _ _ (fun _ _ _ hrow => hrow.id_decide id) fun e row _ hrow => ?_
  exact {
    id := hrow.id
    messages := hrow.messages
    revision := hrow.revision
    updatedAt := hrow.updatedAt
    settings := settings_applyActiveState hrow active }

end Settings

section Save

variable {wire : Wire J} {map : MemoryMap} {db : Db J} {now : ℤ} {id : String}
  {messages : List Message} {active : ActiveState} {expectedRevision : Option ℕ} {json : J}

/-- What a successful compare-and-set of `id` leaves: the conversation stamped, the others as they
were. -/
structure Stamped (now : ℤ) (id : String) (map map' : MemoryMap) : Prop where
  stamped : ∃ e, map'.lookup id = some e ∧ e.updatedAt = nanos now
  others : map'.rows.filter (fun e => e.id ≠ id) = map.rows.filter fun e => e.id ≠ id

theorem stamped_updateWhere {e : MemoryConversationEntry} (h : map.lookup id = some e)
    {f : MemoryConversationEntry → MemoryConversationEntry} (hf : ∀ e, (f e).id = e.id)
    (hstamp : ∀ e, (f e).updatedAt = nanos now) :
    Stamped now id map (map.updateWhere (fun e => e.id = id) f hf) where
  stamped := by
    refine ⟨f e, lookup_updateWhere_key hf h ?_, hstamp e⟩
    simpa using (lookup_eq_some_iff.mp h).2
  others := filter_ne_updateWhere map id f hf

/-- The entry that a save writes over an existing one. -/
def savedEntry (wire : Wire J) (now : ℤ) (messages : List Message) (active : ActiveState)
    (e : MemoryConversationEntry) : MemoryConversationEntry :=
  { e.applyActiveState (ownedActiveState active) with
    layout := some (wire.layoutMetaFromMessages messages)
    messages := messages
    revision := e.revision + 1
    updatedAt := nanos now }

theorem savedRow_agrees (hjson : wire.messagesToJson messages = .ok json)
    {e : MemoryConversationEntry} {row : ConversationRow J} (h : RowAgrees wire e row) :
    RowAgrees wire (savedEntry wire now messages active e)
      (savedRow wire now messages json active row) where
  id := h.id
  messages := wire.fromJson_toJson hjson
  revision := congrArg (· + 1) h.revision
  updatedAt := rfl
  settings := by
    show (e.applyActiveState (ownedActiveState active)).settings = _
    rw [applyActiveState_owned]
    exact settings_applyActiveState h active

/-- The entry of a new conversation. -/
def createdEntry (wire : Wire J) (now : ℤ) (id : String) (messages : List Message)
    (active : ActiveState) : MemoryConversationEntry where
  id := id
  messages := messages
  activeAgentRole := activeStateColumn active.agentRole
  activeSessionMode := activeStateColumn active.sessionMode
  activePermissionLevel := activeStateColumn active.permissionLevel
  layout := some (wire.layoutMetaFromMessages messages)
  revision := 1
  updatedAt := nanos now

theorem createdRow_agrees (hjson : wire.messagesToJson messages = .ok json) :
    RowAgrees wire (createdEntry wire now id messages active)
      (createdRow wire now id messages json active) where
  id := rfl
  messages := wire.fromJson_toJson hjson
  revision := rfl
  updatedAt := rfl
  settings := by
    have hblank : nonemptyPersistedColumn "" = none := rfl
    simp only [MemoryConversationEntry.settings, ConversationRow.settings, createdEntry, createdRow,
      nonemptyPersistedColumn_getD, hblank, or_none]

theorem any_revision_iff {exp : ℕ} :
    (db.conversations.rows.any fun r => r.id = id && r.revision = exp) = true ↔
      (db.conversations.lookup id).map ConversationRow.revision = some exp := by
  simp only [List.any_eq_true, Bool.and_eq_true, decide_eq_true_eq, map_eq_some_iff,
    lookup_eq_some_iff, and_assoc]

theorem revision_eq (h : BackendsAgree wire map db) (id : String) :
    (db.conversations.lookup id).map ConversationRow.revision =
      (map.lookup id).map MemoryConversationEntry.revision := by
  rcases h.lookup_cases id with ⟨hmap, hdb⟩ | ⟨e, row, hmap, hdb, hrow⟩
  · rw [hmap, hdb]
    rfl
  · rw [hmap, hdb, map_some, map_some, hrow.revision]

/-- A compare-and-set that fails on one side fails on the other. -/
theorem cas_conflict (hjson : wire.messagesToJson messages = .ok json)
    (h : BackendsAgree wire map db)
    (hrev : (map.lookup id).map MemoryConversationEntry.revision ≠ expectedRevision) :
    casMemory wire (nanos now) map id messages active expectedRevision = (.conflict, map) ∧
      saveIfRevision wire now db id messages active expectedRevision = .ok (.conflict, db) := by
  have hrev' := revision_eq h id
  constructor
  · unfold casMemory
    cases hmap : map.lookup id with
    | none =>
      rw [hmap, map_none] at hrev
      exact if_pos (isSome_iff_ne_none.mpr hrev.symm)
    | some e =>
      rw [hmap, map_some] at hrev
      exact if_neg hrev.symm
  · unfold saveIfRevision
    simp only [hjson]
    cases expectedRevision with
    | none =>
      have hsome : (db.conversations.rows.any fun r => r.id = id) = true := by
        rw [any_key_iff, ← isSome_iff_exists]
        rw [← hrev', ne_eq, map_eq_none_iff] at hrev
        exact isSome_iff_ne_none.mpr hrev
      exact if_pos hsome
    | some exp => exact if_neg fun hany => hrev (hrev'.symm.trans (any_revision_iff.mp hany))

/-- The row that SQLite finds under the id and the revision is the one under the id. -/
theorem RowAgrees.revision_decide {e e' : MemoryConversationEntry} {row' : ConversationRow J}
    (hrow : RowAgrees wire e' row') (hmap : map.lookup id = some e) (hmem : e' ∈ map.rows) :
    decide (e'.id = id) = (decide (row'.id = id) && decide (row'.revision = e.revision)) := by
  rw [hrow.id_decide, Bool.eq_iff_iff, Bool.and_eq_true, decide_eq_true_iff, decide_eq_true_iff]
  refine ⟨fun hid => ⟨hid, ?_⟩, And.left⟩
  have hlookup : map.lookup id = some e' :=
    lookup_eq_some_iff.mpr ⟨hmem, hrow.id.trans hid⟩
  obtain rfl : e = e' := Option.some.inj (hmap.symm.trans hlookup)
  exact hrow.revision.symm

theorem cas_update (hjson : wire.messagesToJson messages = .ok json)
    (h : BackendsAgree wire map db) {e : MemoryConversationEntry} (hmap : map.lookup id = some e) :
    ∃ map' db', casMemory wire (nanos now) map id messages active (some e.revision) =
        (.saved, map') ∧
      saveIfRevision wire now db id messages active (some e.revision) = .ok (.saved, db') ∧
      BackendsAgree wire map' db' ∧ Stamped now id map map' := by
  have hany : (db.conversations.rows.any fun r => r.id = id && r.revision = e.revision) = true := by
    rw [any_revision_iff, revision_eq h, hmap]
    rfl
  refine ⟨map.updateWhere (fun e => e.id = id) (savedEntry wire now messages active) fun _ => rfl,
    db.updateConversations (fun r => r.id = id && r.revision = e.revision)
      (savedRow wire now messages json active) fun _ => rfl, ?_, ?_, ?_,
    stamped_updateWhere hmap (f := savedEntry wire now messages active) (fun _ => rfl)
      fun _ => rfl⟩
  · rw [casMemory, hmap]
    exact if_pos rfl
  · rw [saveIfRevision, hjson]
    exact if_pos hany
  · exact h.update _ _ (fun e' row' hmem hrow' => hrow'.revision_decide hmap hmem)
      fun e' row' _ hrow' => savedRow_agrees hjson hrow'

theorem cas_insert (hjson : wire.messagesToJson messages = .ok json)
    (h : BackendsAgree wire map db) (hmap : map.lookup id = none) :
    ∃ map' db', casMemory wire (nanos now) map id messages active none = (.saved, map') ∧
      saveIfRevision wire now db id messages active none = .ok (.saved, db') ∧
      BackendsAgree wire map' db' ∧ Stamped now id map map' := by
  have hnone : ¬(db.conversations.rows.any fun r => r.id = id) = true := by
    rw [any_key_iff, ← isSome_iff_exists]
    have hrev := revision_eq h id
    rw [hmap, map_none, map_eq_none_iff] at hrev
    simp [hrev]
  have hcreated : RowAgrees wire (createdEntry wire now id messages active)
      (createdRow wire now id messages json active) := createdRow_agrees hjson
  have hinsert := h.rows.insert? (fun _ _ hrow => hrow.id) hcreated
  generalize hm : map.insert? (createdEntry wire now id messages active) = found at hinsert
  generalize hd : db.conversations.insert? (createdRow wire now id messages json active) = found'
    at hinsert
  cases hinsert with
  | none =>
    have hfree : map.insert? (createdEntry wire now id messages active) ≠ none := by
      have hkey : id ∉ map.rows.map MemoryConversationEntry.id := by
        simpa using lookup_eq_none_iff.mp hmap
      simp [Table.insert?, createdEntry, hkey]
    exact absurd hm hfree
  | @some map' conversations hpair =>
    refine ⟨map', ⟨conversations, db.archive⟩, ?_, ?_, ⟨hpair, h.archive⟩, ?_⟩
    · simp only [casMemory, hmap]
      rw [← createdEntry, hm]
      rfl
    · rw [saveIfRevision, hjson]
      refine (if_neg hnone).trans ?_
      rw [Db.insertConversation, hd]
      rfl
    · exact ⟨⟨_, lookup_insert?_self hm, rfl⟩, filter_ne_insert? hm⟩

/-- The compare-and-set on both sides. -/
theorem cas_agrees (hjson : wire.messagesToJson messages = .ok json)
    (h : BackendsAgree wire map db) :
    (casMemory wire (nanos now) map id messages active expectedRevision = (.conflict, map) ∧
      saveIfRevision wire now db id messages active expectedRevision = .ok (.conflict, db)) ∨
    ((map.lookup id).map MemoryConversationEntry.revision = expectedRevision ∧
      ∃ map' db', casMemory wire (nanos now) map id messages active expectedRevision =
          (.saved, map') ∧
        saveIfRevision wire now db id messages active expectedRevision = .ok (.saved, db') ∧
        BackendsAgree wire map' db' ∧ Stamped now id map map') := by
  by_cases hrev : (map.lookup id).map MemoryConversationEntry.revision = expectedRevision
  · right
    refine ⟨hrev, ?_⟩
    subst hrev
    cases hmap : map.lookup id with
    | none => exact cas_insert hjson h hmap
    | some e => exact cas_update hjson h hmap
  · exact .inl (cas_conflict hjson h hrev)

theorem saveWithArchive_nil (archiveNow : ℤ) (codecMinBytes : ℕ) :
    saveWithArchiveIfRevision wire now archiveNow db id messages active expectedRevision []
      codecMinBytes = saveIfRevision wire now db id messages active expectedRevision := by
  unfold saveWithArchiveIfRevision
  cases saveIfRevision wire now db id messages active expectedRevision with
  | error e => rfl
  | ok saved => simp [bind, Except.bind, pure, Except.pure]

theorem save_agrees (hjson : wire.messagesToJson messages = .ok json)
    (h : BackendsAgree wire map db) (iteration : Iteration) (r : ConversationRetention)
    (hdrop : (map.lookup id).map MemoryConversationEntry.revision = expectedRevision →
      DropsByStamp r now map id) :
    let saved := ConversationBacking.saveIfRevision wire
      (clockAt (.memory map : ConversationBacking J) now) iteration (.memory map) id messages active
      expectedRevision [] r
    let saved' := ConversationBacking.saveIfRevision wire (clockAt (.sqlite db) now) iteration
      (.sqlite db) id messages active expectedRevision [] r
    saved.1 = saved'.1 ∧ SameSessions wire saved.2 saved'.2 := by
  intro saved saved'
  rcases @cas_agrees J wire map db now id messages active expectedRevision json hjson h with
    ⟨hm, hd⟩ | ⟨hrev, map', db', hm, hd, hagree, ⟨e, hrow, hstamp⟩, hothers⟩
  · have hsaved : saved = (.conflict, .memory map) := by
      simp only [saved, ConversationBacking.saveIfRevision, ConversationBacking.cas, clockAt, hm]
    have hsaved' : saved' = (.conflict, .sqlite db) := by
      simp only [saved', ConversationBacking.saveIfRevision, ConversationBacking.cas, clockAt,
        saveWithArchive_nil, hd]
    rw [hsaved, hsaved']
    exact ⟨rfl, .intro h⟩
  · have hsaved : saved = (.saved, .memory (pruneMemoryLocked iteration map' (nanos now) r.ttlSecs
        r.maxEntries)) := by
      simp only [saved, ConversationBacking.saveIfRevision, ConversationBacking.cas, clockAt, hm,
        ConversationBacking.prune]
    have hsaved' : saved' = (.saved, .sqlite (prune now now db' r.ttlSecs r.maxEntries
        r.archiveMaxRowsPerConversation)) := by
      simp only [saved', ConversationBacking.saveIfRevision, ConversationBacking.cas, clockAt,
        saveWithArchive_nil, hd, ConversationBacking.prune]
    rw [hsaved, hsaved']
    refine ⟨rfl, .intro (hagree.prune iteration now _ fun hmax => ?_)⟩
    exact (hdrop hrev).dropsBefore hrow hstamp hothers hmax

end Save

section Truncate

variable {wire : Wire J} {map : MemoryMap} {db : Db J} {now : ℤ} {id : String}
  {e : MemoryConversationEntry} {row : ConversationRow J}

/-- The entry that a truncation writes. -/
def truncatedEntry (wire : Wire J) (now : ℤ) (cut : ℕ) (e : MemoryConversationEntry) :
    MemoryConversationEntry :=
  { e with
    messages := e.messages.take cut
    layout := some (wire.layoutMetaFromMessages (e.messages.take cut))
    revision := e.revision + 1
    updatedAt := nanos now }

/-- Without archive rows the ordinal counts in the conversation itself. -/
theorem truncate_of_no_archive (h : db.archive = .empty) (userOrdinal expectedRevision : ℕ) :
    truncateBeforeUserOrdinalIfRevision wire now db id userOrdinal expectedRevision =
      match loadMessagesAtRevision wire db id expectedRevision with
      | none => .ok (.conflict, db)
      | some canonical =>
        .ok (truncateWithinCanonical wire now db id canonical userOrdinal expectedRevision) := by
  have hnone : db.archiveOf id = [] := by rw [Db.archiveOf, h]; rfl
  have hcomplete : archivePrefixIncomplete db id = false := by
    rw [archivePrefixIncomplete, archiveMinSeq, hnone]
    rfl
  have hcount : archiveRealUserCount wire db id = .ok 0 := by
    rw [archiveRealUserCount, loadArchiveMessages, hnone]
    rfl
  unfold truncateBeforeUserOrdinalIfRevision
  cases loadMessagesAtRevision wire db id expectedRevision with
  | none => rfl
  | some canonical =>
    simp only [hcomplete, hcount]
    rfl

theorem loadMessagesAtRevision_eq (h : RowAgrees wire e row)
    (hdb : db.conversations.lookup id = some row) (expectedRevision : ℕ) :
    loadMessagesAtRevision wire db id expectedRevision =
      if e.revision = expectedRevision then some e.messages else none := by
  rw [loadMessagesAtRevision, hdb, h.revision]
  show (if _ then _ else _) = _
  rw [h.messages]
  rfl

theorem truncatedRow_agrees {messages : List Message} {json : J} {cut : ℕ}
    (hjson : wire.messagesToJson messages = .ok json) (hcut : e.messages.take cut = messages)
    (h : RowAgrees wire e row) :
    RowAgrees wire (truncatedEntry wire now cut e) (savedRow wire now messages json .none row) where
  id := h.id
  messages := by
    subst hcut
    exact wire.fromJson_toJson hjson
  revision := congrArg (· + 1) h.revision
  updatedAt := rfl
  settings := h.settings

theorem touch_eq_self (hmap : map.lookup id = some e) (hstamp : e.updatedAt = nanos now) :
    map.updateWhere (fun e => e.id = id) (fun e => { e with updatedAt := nanos now })
      (fun _ => rfl) = map := by
  apply Table.ext
  rw [rows_updateWhere]
  conv_rhs => rw [← List.map_id map.rows]
  refine List.map_congr_left fun e' he' => ?_
  split
  · next hid =>
    have hlookup : map.lookup id = some e' :=
      lookup_eq_some_iff.mpr ⟨he', of_decide_eq_true hid⟩
    obtain rfl : e = e' := Option.some.inj (hmap.symm.trans hlookup)
    rw [← hstamp]
    rfl
  · rfl

/-- A cut before the end on both sides. -/
theorem cut_agrees (now : ℤ) {json : J} {cut : ℕ}
    (hjson : wire.messagesToJson (e.messages.take cut) = .ok json)
    (h : BackendsAgree wire map db) (hmap : map.lookup id = some e) :
    ∃ db', persistMessagesBumpRevision wire now db id e.revision (e.messages.take cut) =
        (.saved, db') ∧
      BackendsAgree wire (map.updateWhere (fun e => e.id = id) (truncatedEntry wire now cut)
        fun _ => rfl) db' := by
  have hany : (db.conversations.rows.any fun r => r.id = id && r.revision = e.revision) = true := by
    rw [any_revision_iff, revision_eq h, hmap]
    rfl
  have hsame : ∀ e', map.lookup id = some e' → e' = e := fun e' he' =>
    Option.some.inj (he'.symm.trans hmap)
  refine ⟨db.updateConversations (fun r => r.id = id && r.revision = e.revision)
    (savedRow wire now (e.messages.take cut) json .none) fun _ => rfl, ?_, ?_⟩
  · rw [persistMessagesBumpRevision, hjson]
    exact if_pos hany
  · refine h.update _ _ (fun e' row' hmem hrow' => ?_) fun e' row' hlookup hrow' => ?_
    · exact hrow'.revision_decide hmap hmem
    · rw [hsame e' hlookup] at hrow' ⊢
      exact truncatedRow_agrees hjson rfl hrow'

variable (iteration : Iteration) {r : ConversationRetention} {userOrdinal : ℕ}

/-- A cut at the end of a conversation in time: the map touches it, the tables are pruned. -/
theorem truncate_end (h : BackendsAgree wire map db) (hmap : map.lookup id = some e)
    (hdb : db.conversations.lookup id = some row) (hrow : RowAgrees wire e row)
    (hage : ¬(0 < r.ttlSecs ∧ nanos now - e.updatedAt > fromSecs r.ttlSecs))
    (hend : e.messages.length ≤ branchCutIndex e.messages userOrdinal) :
    ConversationBacking.truncateBeforeUserOrdinalIfRevision wire
        (clockAt (.memory map : ConversationBacking J) now) iteration (.memory map) id userOrdinal
        e.revision r =
      (.saved, .memory (map.updateWhere (fun e => e.id = id)
        (fun e => { e with updatedAt := nanos now }) fun _ => rfl)) ∧
    ConversationBacking.truncateBeforeUserOrdinalIfRevision wire (clockAt (.sqlite db) now)
        iteration (.sqlite db) id userOrdinal e.revision r =
      (.saved, .sqlite (prune now now db r.ttlSecs r.maxEntries
        r.archiveMaxRowsPerConversation)) := by
  constructor
  · simp only [ConversationBacking.truncateBeforeUserOrdinalIfRevision, clockAt, hmap]
    exact (if_neg hage).trans ((if_neg (not_not.mpr rfl)).trans (if_pos hend))
  · have hload := loadMessagesAtRevision_eq hrow hdb e.revision
    rw [if_pos rfl] at hload
    simp only [ConversationBacking.truncateBeforeUserOrdinalIfRevision, clockAt,
      truncate_of_no_archive h.archive, hload, truncateWithinCanonical, if_pos hend,
      ConversationBacking.prune]

/-- A cut inside a conversation in time. -/
theorem truncate_inside (hjson : ∀ messages, ∃ json, wire.messagesToJson messages = .ok json)
    (h : BackendsAgree wire map db) (hmap : map.lookup id = some e)
    (hdb : db.conversations.lookup id = some row) (hrow : RowAgrees wire e row)
    (hage : ¬(0 < r.ttlSecs ∧ nanos now - e.updatedAt > fromSecs r.ttlSecs))
    (hinside : ¬ e.messages.length ≤ branchCutIndex e.messages userOrdinal) :
    ∃ map' db', ConversationBacking.truncateBeforeUserOrdinalIfRevision wire
        (clockAt (.memory map : ConversationBacking J) now) iteration (.memory map) id userOrdinal
        e.revision r =
      (.saved, .memory (pruneMemoryLocked iteration map' (nanos now) r.ttlSecs r.maxEntries)) ∧
    ConversationBacking.truncateBeforeUserOrdinalIfRevision wire (clockAt (.sqlite db) now)
        iteration (.sqlite db) id userOrdinal e.revision r =
      (.saved, .sqlite (prune now now db' r.ttlSecs r.maxEntries
        r.archiveMaxRowsPerConversation)) ∧
    BackendsAgree wire map' db' ∧ Stamped now id map map' := by
  obtain ⟨json, hjson⟩ := hjson (e.messages.take (branchCutIndex e.messages userOrdinal))
  obtain ⟨db', hpersist, hagree⟩ := cut_agrees now hjson h hmap
  refine ⟨_, db', ?_, ?_, hagree,
    stamped_updateWhere hmap (f := truncatedEntry wire now _) (fun _ => rfl) fun _ => rfl⟩
  · simp only [ConversationBacking.truncateBeforeUserOrdinalIfRevision, clockAt, hmap]
    exact (if_neg hage).trans ((if_neg (not_not.mpr rfl)).trans (if_neg hinside))
  · have hload := loadMessagesAtRevision_eq hrow hdb e.revision
    rw [if_pos rfl] at hload
    simp only [ConversationBacking.truncateBeforeUserOrdinalIfRevision, clockAt,
      truncate_of_no_archive h.archive, hload, truncateWithinCanonical, if_neg hinside, hpersist,
      ConversationBacking.prune]

theorem truncate_agrees (hjson : ∀ messages, ∃ json, wire.messagesToJson messages = .ok json)
    (h : BackendsAgree wire map db) (expectedRevision : ℕ)
    (hok : ∀ e, map.lookup id = some e → e.fresh r now = true ∧
      (e.revision = expectedRevision →
        if e.messages.length ≤ branchCutIndex e.messages userOrdinal then
          e.updatedAt = nanos now ∧ Retained r now map
        else DropsByStamp r now map id)) :
    let cut := ConversationBacking.truncateBeforeUserOrdinalIfRevision wire
      (clockAt (.memory map : ConversationBacking J) now) iteration (.memory map) id userOrdinal
      expectedRevision r
    let cut' := ConversationBacking.truncateBeforeUserOrdinalIfRevision wire
      (clockAt (.sqlite db) now) iteration (.sqlite db) id userOrdinal expectedRevision r
    cut.1 = cut'.1 ∧ SameSessions wire cut.2 cut'.2 := by
  intro cut cut'
  rcases h.lookup_cases id with ⟨hmap, hdb⟩ | ⟨e, row, hmap, hdb, hrow⟩
  · have hcut : cut = (.conflict, .memory map) := by
      simp only [cut, ConversationBacking.truncateBeforeUserOrdinalIfRevision, hmap]
    have hcut' : cut' = (.conflict, .sqlite db) := by
      simp only [cut', ConversationBacking.truncateBeforeUserOrdinalIfRevision, clockAt,
        truncate_of_no_archive h.archive, loadMessagesAtRevision, hdb, bind_none]
    rw [hcut, hcut']
    exact ⟨rfl, .intro h⟩
  · obtain ⟨hfresh, hrest⟩ := hok e hmap
    have hage : ¬(0 < r.ttlSecs ∧ nanos now - e.updatedAt > fromSecs r.ttlSecs) := by
      rw [MemoryConversationEntry.fresh, decide_eq_true_iff] at hfresh
      exact fun hold => absurd (hfresh hold.1) (not_le.mpr hold.2)
    by_cases hrev : e.revision = expectedRevision
    · have hdetermined := hrest hrev
      subst hrev
      by_cases hend : e.messages.length ≤ branchCutIndex e.messages userOrdinal
      · rw [if_pos hend] at hdetermined
        obtain ⟨hcut, hcut'⟩ := truncate_end iteration h hmap hdb hrow hage hend
        rw [touch_eq_self hmap hdetermined.1] at hcut
        change cut = _ at hcut
        change cut' = _ at hcut'
        rw [hcut, hcut']
        exact ⟨rfl, .intro (h.prune_retained hdetermined.2 now _)⟩
      · rw [if_neg hend] at hdetermined
        obtain ⟨map', db', hcut, hcut', hagree, ⟨e', hrow', hstamp⟩, hothers⟩ :=
          truncate_inside iteration hjson h hmap hdb hrow hage hend
        change cut = _ at hcut
        change cut' = _ at hcut'
        rw [hcut, hcut']
        refine ⟨rfl, .intro (hagree.prune iteration now _ fun hmax => ?_)⟩
        exact hdetermined.dropsBefore hrow' hstamp hothers hmax
    · have hload := loadMessagesAtRevision_eq hrow hdb expectedRevision
      rw [if_neg hrev] at hload
      have hcut : cut = (.conflict, .memory map) := by
        simp only [cut, ConversationBacking.truncateBeforeUserOrdinalIfRevision, clockAt, hmap]
        exact (if_neg hage).trans (if_pos hrev)
      have hcut' : cut' = (.conflict, .sqlite db) := by
        simp only [cut', ConversationBacking.truncateBeforeUserOrdinalIfRevision, clockAt,
          truncate_of_no_archive h.archive, hload]
      rw [hcut, hcut']
      exact ⟨rfl, .intro h⟩

end Truncate

section Runs

variable {wire : Wire J}

/-- A step that does not reach the differences gives the same result and keeps the backends
alike. -/
theorem sessionStep_agrees (hjson : ∀ messages, ∃ json, wire.messagesToJson messages = .ok json)
    {backing backing' : ConversationBacking J} (h : SameSessions wire backing backing')
    {s : SessionStep} (hok : StepDetermined backing s) :
    (sessionStep wire backing s).1 = (sessionStep wire backing' s).1 ∧
      SameSessions wire (sessionNext wire backing s) (sessionNext wire backing' s) := by
  obtain @⟨map, db, h⟩ := h
  obtain ⟨now, r, iteration, op⟩ := s
  cases op with
  | load id =>
    obtain ⟨hseed, hnext⟩ := load_agrees h now id r.ttlSecs
    exact ⟨congrArg SessionOutcome.loaded hseed, hnext⟩
  | save id messages active expectedRevision =>
    obtain ⟨json, hjson⟩ := hjson messages
    obtain ⟨hsaved, hnext⟩ := save_agrees hjson h iteration r hok
    exact ⟨congrArg SessionOutcome.saved hsaved, hnext⟩
  | setActive id active =>
    obtain ⟨hfound, hnext⟩ := setActive_agrees h id active
    exact ⟨congrArg SessionOutcome.activeSet hfound, hnext⟩
  | truncate id userOrdinal expectedRevision =>
    obtain ⟨hcut, hnext⟩ := truncate_agrees iteration hjson h expectedRevision hok
    exact ⟨congrArg SessionOutcome.truncated hcut, hnext⟩
  | delete id => exact ⟨rfl, .intro (h.delete id)⟩

theorem sessionOutcomes_agree
    (hjson : ∀ messages, ∃ json, wire.messagesToJson messages = .ok json)
    {backing backing' : ConversationBacking J} (h : SameSessions wire backing backing')
    {steps : List SessionStep} (hok : Run.AllOk (sessionNext wire) StepDetermined backing steps) :
    sessionOutcomes wire backing steps = sessionOutcomes wire backing' steps := by
  induction steps generalizing backing backing' with
  | nil => rfl
  | cons s steps ih =>
    obtain ⟨hs, hsteps⟩ := hok
    obtain ⟨houtcome, hnext⟩ := sessionStep_agrees hjson h hs
    rw [sessionOutcomes, sessionOutcomes, houtcome]
    exact congrArg _ (ih hnext hsteps)

theorem sameSessions_empty :
    SameSessions wire ConversationBacking.memoryDefault (.sqlite Db.empty) :=
  .intro ⟨paired_empty, rfl⟩

/-- From empty backends, in every history whose steps do not reach the differences, both backends
return the same at each step. -/
theorem backends_agree (hjson : ∀ messages, ∃ json, wire.messagesToJson messages = .ok json)
    (steps : List SessionStep)
    (hok : Run.AllOk (sessionNext wire) StepDetermined ConversationBacking.memoryDefault steps) :
    sessionOutcomes wire ConversationBacking.memoryDefault steps =
      sessionOutcomes wire (.sqlite Db.empty) steps :=
  sessionOutcomes_agree hjson sameSessions_empty hok

def dayRetention : ConversationRetention := ⟨86400, 512, 256, 4096⟩

def asIs : Iteration := ⟨fun entries => entries, fun _ => List.Perm.refl _⟩

/-- A first turn at second 0, its truncation at a later second. -/
def saveAndTruncate (later : ℤ) : List SessionStep :=
  [⟨0, dayRetention, asIs, .save "c" [.userOnly "u0", .userOnly "u1"] .none none⟩,
    ⟨later, dayRetention, asIs, .truncate "c" 1 1⟩]

theorem backends_agree_inTime :
    sessionOutcomes plainWire ConversationBacking.memoryDefault (saveAndTruncate 86400) =
      sessionOutcomes plainWire (.sqlite Db.empty) (saveAndTruncate 86400) := by
  refine backends_agree (fun messages => ⟨some messages, rfl⟩) _ ⟨?_, ?_, trivial⟩
  · exact fun _ _ => ⟨0, by decide, by decide⟩
  · intro e he
    have hrow : e = createdEntry plainWire 0 "c" [.userOnly "u0", .userOnly "u1"] .none :=
      (Option.some.inj he).symm
    subst hrow
    refine ⟨by decide, fun _ => ?_⟩
    rw [if_neg (by decide +kernel)]
    exact fun _ => ⟨0, by decide, by decide +kernel⟩

/-- A second later the map has forgotten the conversation, the tables still truncate it. -/
theorem expired_truncation_differs :
    ¬∀ steps : List SessionStep, (steps.map SessionStep.now).Pairwise (· ≤ ·) →
      sessionOutcomes plainWire ConversationBacking.memoryDefault steps =
        sessionOutcomes plainWire (.sqlite Db.empty) steps := by
  intro h
  exact absurd (h (saveAndTruncate 86401) (by decide)) (by decide +kernel)

end Runs
end CrabMate
