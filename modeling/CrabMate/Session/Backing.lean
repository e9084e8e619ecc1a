import CrabMate.Store.Step

/-! The session store behind the web server: one interface over an in-memory map and the
SQLite tables. Saving is a compare-and-set on the revision followed by the retention policy. -/
namespace CrabMate

variable {J : Type} (wire : Wire J)

/-- An entry of the in-memory map, with its key. -/
structure MemoryConversationEntry where
  id : String
  messages : List Message
  activeAgentRole : Option String
  activeSessionMode : Option String
  activePermissionLevel : Option String
  layout : Option JsonValue
  revision : ℕ
  updatedAt : ℤ
  deriving DecidableEq

structure ConversationTurnSeed where
  messages : List Message
  expectedRevision : Option ℕ
  persistedActiveAgentRole : Option String
  persistedActiveSessionMode : Option String
  persistedActivePermissionLevel : Option String
  layout : Option JsonValue
  deriving DecidableEq

structure ConversationRetention where
  ttlSecs : ℕ
  maxEntries : ℕ
  archiveMaxRowsPerConversation : ℕ
  archiveCodecMinBytes : ℕ

/-- The clock readings of one operation: seconds for SQLite, nanoseconds for the map, which
reads its clock once. -/
structure Clock where
  now : ℤ
  archive : ℤ
  prune : ℤ
  pruneArchive : ℤ

/-- The map hands its entries out in some order. -/
structure Iteration where
  order : List MemoryConversationEntry → List MemoryConversationEntry
  perm : ∀ entries, (order entries).Perm entries

abbrev MemoryMap := Table MemoryConversationEntry.id

inductive ConversationBacking (J : Type) where
  | memory (map : MemoryMap)
  | sqlite (db : Db J)

def nonemptyPersistedColumn (raw : String) : Option String :=
  if (RustStr.trimString raw).isEmpty then none else some (RustStr.trimString raw)

/-- `Duration::from_secs` in nanoseconds. -/
def fromSecs (secs : ℕ) : ℤ := secs * 1000000000

namespace MemoryConversationEntry

def applyActiveState (entry : MemoryConversationEntry) (active : ActiveState) :
    MemoryConversationEntry :=
  { entry with
    activeAgentRole := (activeStateColumn active.agentRole).or entry.activeAgentRole
    activeSessionMode := (activeStateColumn active.sessionMode).or entry.activeSessionMode
    activePermissionLevel :=
      (activeStateColumn active.permissionLevel).or entry.activePermissionLevel }

theorem id_applyActiveState (active : ActiveState) (entry : MemoryConversationEntry) :
    (entry.applyActiveState active).id = entry.id := rfl

end MemoryConversationEntry

def pruneMemoryLocked (iteration : Iteration) (map : MemoryMap) (now : ℤ)
    (ttlSecs maxEntries : ℕ) : MemoryMap :=
  let map :=
    if 0 < ttlSecs then map.deleteWhere fun e => !decide (now - e.updatedAt ≤ fromSecs ttlSecs)
    else map
  if maxEntries = 0 ∨ map.rows.length ≤ maxEntries then map
  else
    let order := (iteration.order map.rows).insertionSort fun a b => a.updatedAt ≤ b.updatedAt
    let dropped := (order.take (map.rows.length - maxEntries)).map MemoryConversationEntry.id
    map.deleteWhere fun e => dropped.contains e.id

/-- The settings a save of the map writes: trimmed, blank ones absent. -/
def ownedActiveState (active : ActiveState) : ActiveState :=
  ⟨activeStateColumn active.agentRole, activeStateColumn active.sessionMode,
    activeStateColumn active.permissionLevel⟩

/-- The compare-and-set of the in-memory save. -/
def casMemory (now : ℤ) (map : MemoryMap) (id : String) (messages : List Message)
    (active : ActiveState) (expectedRevision : Option ℕ) : SaveConversationOutcome × MemoryMap :=
  match map.lookup id with
  | some entry =>
    if expectedRevision = some entry.revision then
      (.saved, map.updateWhere (fun e => e.id = id)
        (fun e => { e.applyActiveState (ownedActiveState active) with
          layout := some (wire.layoutMetaFromMessages messages)
          messages := messages
          revision := e.revision + 1
          updatedAt := now }) fun _ => rfl)
    else (.conflict, map)
  | none =>
    if expectedRevision.isSome then (.conflict, map)
    else
      match map.insert? {
          id := id
          messages := messages
          activeAgentRole := activeStateColumn active.agentRole
          activeSessionMode := activeStateColumn active.sessionMode
          activePermissionLevel := activeStateColumn active.permissionLevel
          layout := some (wire.layoutMetaFromMessages messages)
          revision := 1
          updatedAt := now } with
      | some map => (.saved, map)
      | none => (.conflict, map)

namespace ConversationBacking

def memoryDefault : ConversationBacking J := .memory .empty

def prune (clock : Clock) (iteration : Iteration) (r : ConversationRetention) :
    ConversationBacking J → ConversationBacking J
  | .memory map => .memory (pruneMemoryLocked iteration map clock.now r.ttlSecs r.maxEntries)
  | .sqlite db => .sqlite (CrabMate.prune clock.prune clock.pruneArchive db r.ttlSecs r.maxEntries
      r.archiveMaxRowsPerConversation)

def loadSeed (clock : Clock) (backing : ConversationBacking J) (id : String) (ttlSecs : ℕ) :
    Option ConversationTurnSeed × ConversationBacking J :=
  match backing with
  | .memory map =>
    match map.lookup id with
    | none => (none, .memory map)
    | some entry =>
      if 0 < ttlSecs ∧ clock.now - entry.updatedAt > fromSecs ttlSecs then
        (none, .memory (map.deleteWhere fun e => e.id = id))
      else
        (some {
          messages := entry.messages
          expectedRevision := some entry.revision
          persistedActiveAgentRole := entry.activeAgentRole
          persistedActiveSessionMode := entry.activeSessionMode
          persistedActivePermissionLevel := entry.activePermissionLevel
          layout := entry.layout },
        .memory (map.updateWhere (fun e => e.id = id) (fun e => { e with updatedAt := clock.now })
          fun _ => rfl))
  | .sqlite db =>
    let (loaded, db) := load wire clock.now db id ttlSecs
    (loaded.map fun row => {
      messages := row.messages
      expectedRevision := some row.revision
      persistedActiveAgentRole := nonemptyPersistedColumn row.activeAgentRole
      persistedActiveSessionMode := nonemptyPersistedColumn row.activeSessionMode
      persistedActivePermissionLevel := nonemptyPersistedColumn row.activePermissionLevel
      layout := row.layout }, .sqlite db)

/-- The compare-and-set of a save with its archive rows. A failed transaction reports a
conflict. -/
def cas (clock : Clock) (backing : ConversationBacking J) (id : String) (messages : List Message)
    (active : ActiveState) (expectedRevision : Option ℕ) (archiveRows : List ArchiveRow)
    (r : ConversationRetention) : SaveConversationOutcome × ConversationBacking J :=
  match backing with
  | .memory map =>
    let (outcome, map) := casMemory wire clock.now map id messages active expectedRevision
    (outcome, .memory map)
  | .sqlite db =>
    match saveWithArchiveIfRevision wire clock.now clock.archive db id messages active
      expectedRevision archiveRows r.archiveCodecMinBytes with
    | .ok (outcome, db) => (outcome, .sqlite db)
    | .error _ => (.conflict, .sqlite db)

/-- The statements of the database succeed here; in the source a prune that fails behind a committed
save answers `conflict`. -/
def saveIfRevision (clock : Clock) (iteration : Iteration) (backing : ConversationBacking J)
    (id : String) (messages : List Message) (active : ActiveState) (expectedRevision : Option ℕ)
    (archiveRows : List ArchiveRow) (r : ConversationRetention) :
    SaveConversationOutcome × ConversationBacking J :=
  match backing.cas wire clock id messages active expectedRevision archiveRows r with
  | (.saved, backing) => (.saved, backing.prune clock iteration r)
  | (.conflict, backing) => (.conflict, backing)

def setActiveState (backing : ConversationBacking J) (id : String) (active : ActiveState) :
    Bool × ConversationBacking J :=
  match backing with
  | .memory map =>
    ((map.lookup id).isSome, .memory (map.updateWhere (fun e => e.id = id)
      (fun e => e.applyActiveState active)
      (MemoryConversationEntry.id_applyActiveState active)))
  | .sqlite db =>
    let (found, db) := CrabMate.setActiveState db id active
    (found, .sqlite db)

/-- The map has no archive; it drops an expired conversation first, and leaves the retention
policy out when the cut is at the end. -/
def truncateBeforeUserOrdinalIfRevision (clock : Clock) (iteration : Iteration)
    (backing : ConversationBacking J) (id : String) (userOrdinal expectedRevision : ℕ)
    (r : ConversationRetention) : BranchTruncateOutcome × ConversationBacking J :=
  match backing with
  | .memory map =>
    match map.lookup id with
    | none => (.conflict, .memory map)
    | some entry =>
      if 0 < r.ttlSecs ∧ clock.now - entry.updatedAt > fromSecs r.ttlSecs then
        (.conflict, .memory (map.deleteWhere fun e => e.id = id))
      else if entry.revision ≠ expectedRevision then (.conflict, .memory map)
      else
        let cut := branchCutIndex entry.messages userOrdinal
        if entry.messages.length ≤ cut then
          (.saved, .memory (map.updateWhere (fun e => e.id = id)
            (fun e => { e with updatedAt := clock.now }) fun _ => rfl))
        else
          (.saved, prune clock iteration r (.memory (map.updateWhere (fun e => e.id = id)
            (fun e => { e with
              messages := e.messages.take cut
              layout := some (wire.layoutMetaFromMessages (e.messages.take cut))
              revision := e.revision + 1
              updatedAt := clock.now }) fun _ => rfl)))
  | .sqlite db =>
    match CrabMate.truncateBeforeUserOrdinalIfRevision wire clock.now db id userOrdinal
      expectedRevision with
    | .ok (.saved, db) => (.saved, prune clock iteration r (.sqlite db))
    | .ok (outcome, db) => (outcome, .sqlite db)
    | .error _ => (.conflict, .sqlite db)

def delete (backing : ConversationBacking J) (id : String) : ConversationBacking J :=
  match backing with
  | .memory map => .memory (map.deleteWhere fun e => e.id = id)
  | .sqlite db => .sqlite (deleteById db id)

end ConversationBacking
end CrabMate
