import CrabMate.Lib.Run
import CrabMate.Store.Conversation

/-! The conversation store as a transition system over its tables. -/
namespace CrabMate

/-- A commit whose recycled rows are artifact rows, as the artifact recycling returns them. -/
abbrev RecycledCommit :=
  { commit : StructuralCommit //
    ∀ m ∈ commit.archivedArtifacts, m.isModelContextArtifactMarker = true }

/-- The operations on the store, each with the clock readings it makes. `damage` is not an
operation of the store: a stored text changed on disk. SQL that fails is left out. -/
inductive StoreOp (J : Type) where
  | save (now archiveNow : ℤ) (id : String) (messages : List Message) (active : ActiveState)
      (expectedRevision : Option ℕ) (commit : RecycledCommit) (codecMinBytes : ℕ)
  | setActive (id : String) (active : ActiveState)
  | load (now : ℤ) (id : String) (ttlSecs : ℕ)
  | deleteById (id : String)
  | prune (now archiveNow : ℤ) (ttlSecs maxEntries archiveMaxRows : ℕ)
  | truncate (now : ℤ) (id : String) (userOrdinal expectedRevision : ℕ)
  | damage (id : String) (json : J)

variable {J : Type} (wire : Wire J)

/-- The tables after an operation; an error rolls back. -/
def afterwards {A : Type} (db : Db J) : Except StoreError (A × Db J) → Db J
  | .ok (_, db') => db'
  | .error _ => db

def damage (db : Db J) (id : String) (json : J) : Db J :=
  db.updateConversations (fun r => r.id = id) (fun r => { r with messagesJson := json })
    fun _ => rfl

def step (db : Db J) : StoreOp J → Db J
  | .save now archiveNow id messages active expectedRevision commit codecMinBytes =>
    afterwards db (saveWithArchiveIfRevision wire now archiveNow db id messages active
      expectedRevision (archiveRowsFromStructuralCommit commit.1) codecMinBytes)
  | .setActive id active => (setActiveState db id active).2
  | .load now id ttlSecs => (load wire now db id ttlSecs).2
  | .deleteById id => deleteById db id
  | .prune now archiveNow ttlSecs maxEntries archiveMaxRows =>
    prune now archiveNow db ttlSecs maxEntries archiveMaxRows
  | .truncate now id userOrdinal expectedRevision =>
    afterwards db (truncateBeforeUserOrdinalIfRevision wire now db id userOrdinal expectedRevision)
  | .damage id json => damage db id json

/-- The commit of a view recycles artifact rows only. -/
theorem commit_recycles (parseJson : String → Option JsonValue) (view : ModelContextView)
    (canonical : List Message) :
    ∀ m ∈ (view.commitCurrentTurnTo parseJson canonical).2.archivedArtifacts,
      m.isModelContextArtifactMarker = true := by
  intro m hm
  cases h : Positions.rposition realUser view.messages with
  | none =>
    rw [view.commit_of_no_anchor parseJson canonical h] at hm
    cases hm
  | some viewAnchor =>
    rw [view.commit_of_anchor parseJson canonical h] at hm
    rcases artifact_split (view.joined parseJson canonical viewAnchor) with
      hnone | ⟨pre, a, post, hj, ha, hp⟩
    · rw [enforceSingleArtifact_none hnone] at hm
      cases hm
    · rw [hj, enforceSingleArtifact_split ha hp] at hm
      exact (List.mem_filter.mp hm).2

/-- The tables after operations that lose no conversation and add no archive row. -/
structure Keeps (db db' : Db J) : Prop where
  conversations : ∀ id, db'.conversations.lookup id = none → db.conversations.lookup id = none
  archive : db'.archive.rows.Sublist db.archive.rows

theorem Keeps.refl (db : Db J) : Keeps db db := ⟨fun _ h => h, List.Sublist.refl _⟩

theorem updateConversations_keeps (db : Db J) (p : ConversationRow J → Bool)
    (f : ConversationRow J → ConversationRow J) (hf : ∀ r, (f r).id = r.id) :
    Keeps db (db.updateConversations p f hf) := by
  refine ⟨fun id h => ?_, List.Sublist.refl _⟩
  rw [Db.conversations_updateConversations, Table.lookup_updateWhere hf] at h
  simpa using h

theorem setActiveState_keeps (db : Db J) (id : String) (active : ActiveState) :
    Keeps db (setActiveState db id active).2 := by
  simp only [setActiveState]
  split
  · exact updateConversations_keeps db _ _ _
  · exact Keeps.refl db

theorem load_keeps {now : ℤ} {db : Db J} {id : String} {ttlSecs : ℕ}
    (h : loadDrops wire now db id ttlSecs = false) : Keeps db (load wire now db id ttlSecs).2 := by
  rcases load_of_not_drops wire h with ⟨-, hl⟩ | ⟨row, messages, -, -, -, hl⟩
  · rw [hl]
    exact Keeps.refl db
  · rw [hl]
    exact updateConversations_keeps db _ _ _

variable {wire}

theorem Persisted.keeps {now : ℤ} {db db' : Db J} {id : String} {expectedRevision : ℕ}
    {messages : List Message} (h : Persisted wire now db db' id expectedRevision messages) :
    Keeps db db' := by
  refine ⟨fun other hn => ?_, h.archive ▸ List.Sublist.refl _⟩
  obtain ⟨json, row, -, -, -, hrow⟩ := h.row
  by_cases ho : other = id
  · rw [ho, hrow] at hn
    cases hn
  · rwa [h.other other ho] at hn

variable (wire)

theorem truncate_keeps (now : ℤ) (db : Db J) (id : String) (userOrdinal expectedRevision : ℕ) :
    Keeps db (step wire db (.truncate now id userOrdinal expectedRevision)) := by
  simp only [step]
  cases h : truncateBeforeUserOrdinalIfRevision wire now db id userOrdinal expectedRevision with
  | error e => exact Keeps.refl db
  | ok res =>
    obtain ⟨outcome, db'⟩ := res
    rcases truncate_cases h with ⟨-, rfl⟩ | ⟨-, -, row, canonical, archived, -, -, -, hcase⟩
    · exact Keeps.refl _
    · rcases hcase with ⟨-, rfl, -⟩ | ⟨-, hp⟩ | ⟨-, original, mid, -, hp, rfl⟩
      · exact Keeps.refl _
      · exact hp.keeps
      · exact ⟨hp.keeps.conversations, List.filter_sublist.trans hp.keeps.archive⟩

end CrabMate
