import CrabMate.Lib.Cas
import CrabMate.Session.Backing

/-! What the operations of the session store do to the revision, the settings and the messages
of each conversation. The two backends have the same specification. -/
namespace CrabMate
open Option Table

inductive SettingField where
  | agentRole
  | sessionMode
  | permissionLevel
  deriving DecidableEq

/-- The columns an intent writes. -/
def ActiveState.change (active : ActiveState) : SettingField → Option String
  | .agentRole => activeStateColumn active.agentRole
  | .sessionMode => activeStateColumn active.sessionMode
  | .permissionLevel => activeStateColumn active.permissionLevel

/-- An empty setting column counts as unset. -/
def columnValue (column : String) : Option String :=
  if column.isEmpty then none else some column

def ConversationRow.setting {J : Type} (row : ConversationRow J) : SettingField → Option String
  | .agentRole => columnValue row.activeAgentRole
  | .sessionMode => columnValue row.activeSessionMode
  | .permissionLevel => columnValue row.activePermissionLevel

def MemoryConversationEntry.setting (entry : MemoryConversationEntry) :
    SettingField → Option String
  | .agentRole => entry.activeAgentRole
  | .sessionMode => entry.activeSessionMode
  | .permissionLevel => entry.activePermissionLevel

theorem activeStateColumn_self (raw : Option String) :
    activeStateColumn (activeStateColumn raw) = activeStateColumn raw := by
  cases raw with
  | none => rfl
  | some s =>
    show Option.filter _ (Option.map _ (Option.filter _ (some (RustStr.trimString s)))) =
      Option.filter _ (some (RustStr.trimString s))
    rw [filter_some]
    split
    · next h => rw [map_some, RustStr.trimString_trimString, filter_some, if_pos h]
    · rfl

theorem columnValue_getD (raw : Option String) (column : String) :
    columnValue ((activeStateColumn raw).getD column) =
      (activeStateColumn raw).or (columnValue column) := by
  cases h : activeStateColumn raw with
  | none => rfl
  | some s =>
    have hs : s.isEmpty = false := by
      unfold activeStateColumn at h
      rw [filter_eq_some_iff] at h
      simpa using h.2
    simp [columnValue, hs]

theorem setting_applyActiveState (entry : MemoryConversationEntry) (active : ActiveState) :
    (entry.applyActiveState active).setting = Cas.merge entry.setting active.change := by
  funext field
  cases field <;> rfl

theorem change_ownedActiveState (active : ActiveState) :
    (ownedActiveState active).change = active.change := by
  funext field
  cases field <;> exact activeStateColumn_self _

theorem setting_pushActiveAssigns {J : Type} (active : ActiveState) (row : ConversationRow J) :
    (pushActiveAssigns active row).setting = Cas.merge row.setting active.change := by
  funext field
  cases field <;> exact columnValue_getD _ _

variable {J : Type} (wire : Wire J)

namespace ConversationBacking

/-- The revision, the settings and the stored messages of a conversation. -/
def view (backing : ConversationBacking J) (id : String) :
    Option (ℕ × (SettingField → Option String)) :=
  match backing with
  | .memory map => (map.lookup id).map fun e => (e.revision, e.setting)
  | .sqlite db => (db.conversations.lookup id).map fun r => (r.revision, r.setting)

def revision (backing : ConversationBacking J) (id : String) : Option ℕ :=
  (backing.view id).map Prod.fst

def setting (backing : ConversationBacking J) (id : String) (field : SettingField) :
    Option String :=
  (backing.view id).bind fun v => v.2 field

def messagesOf (backing : ConversationBacking J) (id : String) :
    Option (Except String (List Message)) :=
  match backing with
  | .memory map => (map.lookup id).map fun e => .ok e.messages
  | .sqlite db => (db.conversations.lookup id).map fun r => wire.messagesFromJson r.messagesJson

def ids : ConversationBacking J → List String
  | .memory map => map.rows.map MemoryConversationEntry.id
  | .sqlite db => db.conversations.rows.map ConversationRow.id

theorem mem_ids {backing : ConversationBacking J} {id : String}
    (h : backing.view id ≠ none) : id ∈ backing.ids := by
  cases backing with
  | memory map =>
    cases hl : map.lookup id with
    | none => simp [view, hl] at h
    | some e =>
      obtain ⟨hmem, rfl⟩ := lookup_eq_some_iff.mp hl
      exact List.mem_map_of_mem hmem
  | sqlite db =>
    cases hl : db.conversations.lookup id with
    | none => simp [view, hl] at h
    | some r =>
      obtain ⟨hmem, rfl⟩ := lookup_eq_some_iff.mp hl
      exact List.mem_map_of_mem hmem

/-- Some conversations are gone, the others are as they were. -/
def Drops (backing backing' : ConversationBacking J) : Prop :=
  ∀ id, backing'.view id = backing.view id ∨ backing'.view id = none

theorem Drops.refl (backing : ConversationBacking J) : Drops backing backing := fun _ => .inl rfl

theorem Drops.trans {b₁ b₂ b₃ : ConversationBacking J} (h₁ : Drops b₁ b₂) (h₂ : Drops b₂ b₃) :
    Drops b₁ b₃ := by
  intro id
  rcases h₂ id with h | h
  · rcases h₁ id with h' | h'
    · exact .inl (h.trans h')
    · exact .inr (h.trans h')
  · exact .inr h

theorem drops_deleteWhere (map : MemoryMap) (p : MemoryConversationEntry → Bool) :
    Drops (J := J) (.memory map) (.memory (map.deleteWhere p)) := by
  intro id
  simp only [view, lookup_deleteWhere]
  cases map.lookup id with
  | none => exact .inl rfl
  | some e =>
    rw [filter_some]
    split
    · exact .inl rfl
    · exact .inr rfl

theorem drops_deleteConversations (db : Db J) (p : ConversationRow J → Bool) :
    Drops (.sqlite db) (.sqlite (db.deleteConversations p)) := by
  intro id
  simp only [view, Db.conversations_deleteConversations, lookup_deleteWhere]
  cases db.conversations.lookup id with
  | none => exact .inl rfl
  | some r =>
    rw [filter_some]
    split
    · exact .inl rfl
    · exact .inr rfl

theorem prune_drops (clock : Clock) (iteration : Iteration) (r : ConversationRetention)
    (backing : ConversationBacking J) : Drops backing (backing.prune clock iteration r) := by
  cases backing with
  | memory map =>
    have hexpired : Drops (J := J) (.memory map) (.memory (if 0 < r.ttlSecs then
        map.deleteWhere fun e => !decide (clock.now - e.updatedAt ≤ fromSecs r.ttlSecs)
        else map)) := by
      split
      · exact drops_deleteWhere _ _
      · exact .refl _
    simp only [prune, pruneMemoryLocked]
    generalize (if 0 < r.ttlSecs then
      map.deleteWhere fun e => !decide (clock.now - e.updatedAt ≤ fromSecs r.ttlSecs)
      else map) = kept at hexpired ⊢
    split
    · exact hexpired
    · exact hexpired.trans (drops_deleteWhere _ _)
  | sqlite db =>
    obtain ⟨d, hd⟩ := pruneConversations_dropped clock.prune db r.ttlSecs r.maxEntries
    have harch := pruneArchive_pruned clock.pruneArchive
      (pruneConversations clock.prune db r.ttlSecs r.maxEntries) r.ttlSecs
      r.archiveMaxRowsPerConversation
    intro id
    simp only [prune, view, CrabMate.prune]
    rw [harch.conversations, hd.lookup]
    split
    · exact .inr rfl
    · exact .inl rfl

/-- A load drops the row or leaves it, and reports the revision it left. -/
theorem loadSeed_spec (clock : Clock) (backing : ConversationBacking J) (id : String)
    (ttlSecs : ℕ) :
    Drops backing (backing.loadSeed wire clock id ttlSecs).2 ∧
      (backing.loadSeed wire clock id ttlSecs).2.revision id =
        (backing.loadSeed wire clock id ttlSecs).1.bind fun seed => seed.expectedRevision := by
  cases backing with
  | memory map =>
    simp only [loadSeed]
    split
    · next hnone => exact ⟨.refl _, by simp [revision, view, hnone]⟩
    · next entry hentry =>
      split
      · refine ⟨drops_deleteWhere _ _, ?_⟩
        simp only [revision, view]
        rw [lookup_deleteWhere_of (by simp)]
        rfl
      · refine ⟨fun other => .inl ?_, ?_⟩
        · simp only [view, lookup_updateWhere, map_map]
          congr 1
          funext e
          show (fun e => (e.revision, e.setting)) (if decide (e.id = id) = true then
            { e with updatedAt := clock.now } else e) = _
          split
          · exact Prod.ext rfl (funext fun field => by cases field <;> rfl)
          · rfl
        · simp only [revision, view]
          rw [lookup_updateWhere_key _ hentry
            (by simp [(lookup_eq_some_iff.mp hentry).2])]
          rfl
  | sqlite db =>
    cases hd : loadDrops wire clock.now db id ttlSecs with
    | true =>
      simp only [loadSeed, load_of_drops wire hd]
      refine ⟨drops_deleteConversations _ _, ?_⟩
      simp only [revision, view, deleteById, Db.conversations_deleteConversations]
      rw [lookup_deleteWhere_of (by simp)]
      rfl
    | false =>
      rcases load_of_not_drops wire hd with ⟨hnone, hload⟩ | ⟨row, messages, hrow, -, hload, hdb⟩
      · simp only [loadSeed, hload]
        exact ⟨.refl _, by simp [revision, view, hnone]⟩
      · simp only [loadSeed, hload, hdb]
        refine ⟨fun other => .inl ?_, ?_⟩
        · simp only [view, Db.conversations_updateConversations, lookup_updateWhere,
            map_map]
          congr 1
          funext r
          show (fun r => (r.revision, r.setting)) (if decide (r.id = id) = true then
            { r with updatedAtUnix := clock.now } else r) = _
          split
          · exact Prod.ext rfl (funext fun field => by cases field <;> rfl)
          · rfl
        · simp only [revision, view]
          rw [Db.lookup_updateConversations _ _ hrow
            (by simp [(lookup_eq_some_iff.mp hrow).2])]
          rfl

/-- The conversation after an accepted write on `base`. -/
structure Written (backing backing' : ConversationBacking J) (id : String) (base : Option ℕ)
    (change : SettingField → Option String) : Prop where
  base_eq : backing.revision id = base
  view_eq : backing'.view id = some (Cas.next base, Cas.merge (backing.setting id) change)
  other : ∀ other, other ≠ id → backing'.view other = backing.view other

variable {wire} {clock : Clock} {backing backing' : ConversationBacking J} {id : String}
  {messages : List Message} {active : ActiveState} {expectedRevision : Option ℕ}
  {archiveRows : List ArchiveRow} {r : ConversationRetention} {outcome : SaveConversationOutcome}

theorem casMemory_cases {now : ℤ} {map map' : MemoryMap}
    (h : casMemory wire now map id messages active expectedRevision = (outcome, map')) :
    (outcome = .conflict ∧ map' = map) ∨
      (outcome = .saved ∧
        Written (J := J) (.memory map) (.memory map') id expectedRevision active.change) := by
  unfold casMemory at h
  split at h
  · next entry hentry =>
    split at h
    · next hrev =>
      cases h
      refine .inr ⟨rfl, by simp [revision, view, hentry, hrev], ?_, fun other hne => ?_⟩
      · have hid : decide (entry.id = id) = true := by
          simp [(lookup_eq_some_iff.mp hentry).2]
        have hsetting : setting (J := J) (.memory map) id = entry.setting := by
          funext field
          simp [setting, view, hentry]
        refine (congrArg (Option.map _) (lookup_updateWhere_key _ hentry hid)).trans ?_
        rw [hsetting, ← change_ownedActiveState, ← setting_applyActiveState, hrev]
        exact congrArg some (Prod.ext rfl (funext fun field => by cases field <;> rfl))
      · exact congrArg (Option.map _)
          (lookup_updateWhere_of_not _ (by rintro e rfl; simpa using hne))
    · cases h
      exact .inl ⟨rfl, rfl⟩
  · next hnone =>
    split at h
    · cases h
      exact .inl ⟨rfl, rfl⟩
    · next hexp =>
      have hexp : expectedRevision = none := by simpa using hexp
      split at h
      · next hins =>
        cases h
        refine .inr ⟨rfl, by simp [revision, view, hnone, hexp], ?_, fun other hne => ?_⟩
        · have hself := lookup_insert?_self hins
          simp only [view]
          rw [hself, hexp]
          have hsetting : setting (J := J) (.memory map) id = fun _ => none := by
            funext field
            simp [setting, view, hnone]
          rw [hsetting, Cas.merge_unset]
          exact congrArg some (Prod.ext rfl (funext fun field => by cases field <;> rfl))
        · simp only [view]
          rw [lookup_insert?_ne hins (Ne.symm hne)]
      · cases h
        exact .inl ⟨rfl, rfl⟩

/-- A compare-and-set either changes nothing or writes on the expected revision. -/
theorem cas_cases
    (h : backing.cas wire clock id messages active expectedRevision archiveRows r =
      (outcome, backing')) :
    (outcome = .conflict ∧ backing' = backing) ∨
      (outcome = .saved ∧ Written backing backing' id expectedRevision active.change) := by
  cases backing with
  | memory map =>
    simp only [cas] at h
    cases h
    rcases casMemory_cases rfl with ⟨ho, hmap⟩ | hsaved
    · exact .inl ⟨ho, congrArg _ hmap⟩
    · exact .inr hsaved
  | sqlite db =>
    simp only [cas] at h
    split at h
    · next out db' hs =>
      cases h
      obtain ⟨ho, rfl⟩ | ⟨ho, hother, ⟨json, -, hrow⟩, -⟩ := save_cases hs
      · exact .inl ⟨ho, rfl⟩
      · rcases hrow with ⟨row, hrow, hexp, hrow'⟩ | ⟨hnone, hexp, hrow'⟩
        · refine .inr ⟨ho, by simp [revision, view, hrow, hexp], ?_, fun other hne => ?_⟩
          · have hsetting : setting (.sqlite db) id = row.setting := by
              funext field
              simp [setting, view, hrow]
            simp only [view]
            rw [hrow', hsetting, ← setting_pushActiveAssigns, hexp]
            exact congrArg some (Prod.ext rfl (funext fun field => by cases field <;> rfl))
          · simp only [view]
            rw [hother other hne]
        · refine .inr ⟨ho, by simp [revision, view, hnone, hexp], ?_, fun other hne => ?_⟩
          · simp only [view]
            rw [hrow', hexp]
            have hsetting : setting (.sqlite db) id = fun _ => none := by
              funext field
              simp [setting, view, hnone]
            rw [hsetting, Cas.merge_unset]
            refine congrArg some (Prod.ext rfl (funext fun field => ?_))
            cases field <;> exact (columnValue_getD _ "").trans or_none
          · simp only [view]
            rw [hother other hne]
    · cases h
      exact .inl ⟨rfl, rfl⟩

theorem change_of_not_hasActiveAssigns {active : ActiveState}
    (h : hasActiveAssigns active = false) : active.change = fun _ => none := by
  simp only [hasActiveAssigns, Bool.or_eq_false_iff, isSome_eq_false_iff,
    isNone_iff_eq_none] at h
  funext field
  cases field with
  | agentRole => exact h.1.1
  | sessionMode => exact h.1.2
  | permissionLevel => exact h.2

/-- Writing settings changes neither the revision nor the messages of any conversation. -/
theorem setActiveState_spec (wire : Wire J) (backing : ConversationBacking J) (id : String)
    (active : ActiveState) :
    (backing.setActiveState id active).1 = (backing.view id).isSome ∧
      (∀ other, (backing.setActiveState id active).2.view other = (backing.view other).map
        fun v => (v.1, if other = id then Cas.merge v.2 active.change else v.2)) ∧
      ∀ other, (backing.setActiveState id active).2.messagesOf wire other =
        backing.messagesOf wire other := by
  cases backing with
  | memory map =>
    simp only [setActiveState, view, messagesOf, lookup_updateWhere]
    refine ⟨by simp, fun other => ?_, fun other => ?_⟩
    · cases he : map.lookup other with
      | none => rfl
      | some e =>
        obtain ⟨-, rfl⟩ := lookup_eq_some_iff.mp he
        by_cases hid : e.id = id
        · simp only [map_some, hid, decide_true, if_true, setting_applyActiveState]
          rfl
        · simp [hid]
    · cases map.lookup other with
      | none => rfl
      | some e =>
        by_cases hid : e.id = id
        · simp [hid, MemoryConversationEntry.applyActiveState]
        · simp [hid]
  | sqlite db =>
    have hfound : (db.conversations.rows.any fun r => r.id = id) =
        (db.conversations.lookup id).isSome := by
      rw [Bool.eq_iff_iff, any_key_iff, isSome_iff_exists]
    simp only [setActiveState, CrabMate.setActiveState]
    cases hassigns : hasActiveAssigns active with
    | false =>
      have hchange := change_of_not_hasActiveAssigns hassigns
      refine ⟨by simp [view, hfound], fun other => ?_, fun other => rfl⟩
      cases h : db.conversations.lookup other with
      | none => simp [view, h]
      | some row =>
        have hmerge : Cas.merge row.setting (fun _ => none) = row.setting := rfl
        simp [view, h, hchange, hmerge]
    | true =>
      simp only [if_true, view, messagesOf, Db.conversations_updateConversations,
        lookup_updateWhere]
      refine ⟨by simp [hfound], fun other => ?_, fun other => ?_⟩
      · cases hr : db.conversations.lookup other with
        | none => rfl
        | some row =>
          obtain ⟨-, rfl⟩ := lookup_eq_some_iff.mp hr
          by_cases hid : row.id = id
          · simp only [map_some, hid, decide_true, if_true, setting_pushActiveAssigns]
            rfl
          · simp [hid]
      · cases db.conversations.lookup other with
        | none => rfl
        | some row =>
          by_cases hid : row.id = id
          · simp [hid, pushActiveAssigns]
          · simp [hid]

end ConversationBacking
end CrabMate
