import CrabMate.Session.Backing

/-! Histories of the session store: one operation after the other, each at some second, and what
each of them returns. -/
namespace CrabMate

variable {J : Type}

inductive SessionOp where
  | load (id : String)
  | save (id : String) (messages : List Message) (active : ActiveState)
      (expectedRevision : Option ℕ)
  | setActive (id : String) (active : ActiveState)
  | truncate (id : String) (userOrdinal expectedRevision : ℕ)
  | delete (id : String)

/-- An operation at the second `now`, with the settings in force and the order in which the map
hands its entries out. -/
structure SessionStep where
  now : ℤ
  retention : ConversationRetention
  iteration : Iteration
  op : SessionOp

/-- What a caller sees of a loaded conversation. -/
structure SeedView where
  messages : List Message
  revision : Option ℕ
  active : ActiveState
  deriving DecidableEq

inductive SessionOutcome where
  | loaded (seed : Option SeedView)
  | saved (outcome : SaveConversationOutcome)
  | activeSet (found : Bool)
  | truncated (outcome : BranchTruncateOutcome)
  | deleted
  deriving DecidableEq

def ConversationTurnSeed.view (seed : ConversationTurnSeed) : SeedView where
  messages := seed.messages
  revision := seed.expectedRevision
  active := ⟨seed.persistedActiveAgentRole, seed.persistedActiveSessionMode,
    seed.persistedActivePermissionLevel⟩

/-- The nanoseconds of a clock that stands at full seconds. -/
def nanos (secs : ℤ) : ℤ := secs * 1000000000

/-- SQLite reads seconds, the map nanoseconds. -/
def clockAt (backing : ConversationBacking J) (now : ℤ) : Clock :=
  match backing with
  | .memory _ => ⟨nanos now, nanos now, nanos now, nanos now⟩
  | .sqlite _ => ⟨now, now, now, now⟩

variable (wire : Wire J)

def sessionStep (backing : ConversationBacking J) (s : SessionStep) :
    SessionOutcome × ConversationBacking J :=
  let clock := clockAt backing s.now
  match s.op with
  | .load id =>
    let (seed, backing) := backing.loadSeed wire clock id s.retention.ttlSecs
    (.loaded (seed.map ConversationTurnSeed.view), backing)
  | .save id messages active expectedRevision =>
    let (outcome, backing) := backing.saveIfRevision wire clock s.iteration id messages active
      expectedRevision [] s.retention
    (.saved outcome, backing)
  | .setActive id active =>
    let (found, backing) := backing.setActiveState id active
    (.activeSet found, backing)
  | .truncate id userOrdinal expectedRevision =>
    let (outcome, backing) := backing.truncateBeforeUserOrdinalIfRevision wire clock s.iteration id
      userOrdinal expectedRevision s.retention
    (.truncated outcome, backing)
  | .delete id => (.deleted, backing.delete id)

/-- The results of a history, in order. -/
def sessionOutcomes (backing : ConversationBacking J) : List SessionStep → List SessionOutcome
  | [] => []
  | s :: steps =>
    (sessionStep wire backing s).1 :: sessionOutcomes (sessionStep wire backing s).2 steps

/-- The backing after a step. -/
def sessionNext (backing : ConversationBacking J) (s : SessionStep) : ConversationBacking J :=
  (sessionStep wire backing s).2

section Determined

variable (r : ConversationRetention) (now : ℤ) (map : MemoryMap)

/-- The entry is no older than the retention allows. -/
def MemoryConversationEntry.fresh (e : MemoryConversationEntry) : Bool :=
  decide (0 < r.ttlSecs → nanos now - e.updatedAt ≤ fromSecs r.ttlSecs)

/-- The entries of the other conversations that are not expired. -/
def otherEntries (id : String) : List MemoryConversationEntry :=
  map.rows.filter fun e => e.id ≠ id && e.fresh r now

/-- Which conversations go when there are too many is decided by their seconds: no two of the same
second are told apart. -/
def DropsByStamp (id : String) : Prop :=
  0 < r.maxEntries → ∃ bound ≤ now,
    (otherEntries r now map id).countP (fun e => e.updatedAt < nanos bound) =
      (otherEntries r now map id).length + 1 - r.maxEntries

/-- The retention has nothing to drop. -/
def Retained : Prop :=
  (∀ e ∈ map.rows, e.fresh r now = true) ∧ (0 < r.maxEntries → map.rows.length ≤ r.maxEntries)

end Determined

/-- The step does not reach what the two backends do differently: a truncation of an expired
conversation, a truncation at the end that would touch the conversation or drop others, and too
many conversations with the same second. -/
def Determined (map : MemoryMap) (s : SessionStep) : Prop :=
  match s.op with
  | .save id _ _ expectedRevision =>
    (map.lookup id).map MemoryConversationEntry.revision = expectedRevision →
      DropsByStamp s.retention s.now map id
  | .truncate id userOrdinal expectedRevision =>
    ∀ e, map.lookup id = some e → e.fresh s.retention s.now = true ∧
      (e.revision = expectedRevision →
        if e.messages.length ≤ branchCutIndex e.messages userOrdinal then
          e.updatedAt = nanos s.now ∧ Retained s.retention s.now map
        else DropsByStamp s.retention s.now map id)
  | _ => True

/-- `Determined` on a backing; it is about the map. -/
def StepDetermined (backing : ConversationBacking J) (s : SessionStep) : Prop :=
  match backing with
  | .memory map => Determined map s
  | .sqlite _ => True

end CrabMate
