import CrabMate.Lib.Table
import CrabMate.Types.Message
import Mathlib.Data.List.Sort
import Mathlib.Data.Int.Order.Basic

/-! The two tables of the conversation store and the text codecs of their columns. -/
namespace CrabMate

inductive SaveConversationOutcome where
  | saved
  | conflict
  deriving DecidableEq

inductive BranchTruncateOutcome where
  | saved
  | conflict
  | archiveIncomplete
  deriving DecidableEq

inductive ArchiveReason where
  | summarized
  | removedTurnGroup
  | artifact
  deriving DecidableEq

/-- One range of original messages on its way into the archive. -/
structure ArchiveRow where
  reason : ArchiveReason
  rangeStart : ℤ
  rangeEnd : ℤ
  messages : List Message
  deriving DecidableEq

/-- A row that cannot be decoded, or a violated primary key. -/
inductive StoreError where
  | decode (seq : ℤ) (reason : String)
  | constraint
  deriving DecidableEq

/-- The text codecs of the store: JSON, compression and the layout column. `J` is the type
of stored texts. -/
structure Wire (J : Type) where
  messagesToJson : List Message → Except String J
  messagesFromJson : J → Except String (List Message)
  gzip : J → Except String J
  gunzip : J → Except String J
  size : J → ℕ
  layoutMetaFromMessages : List Message → JsonValue
  layoutMetaToJson : JsonValue → J
  layoutMetaFromColumn : J → Option JsonValue
  fromJson_toJson : ∀ {ms j}, messagesToJson ms = .ok j → messagesFromJson j = .ok ms
  gunzip_gzip : ∀ {j payload}, gzip j = .ok payload → gunzip payload = .ok j

def Wire.layoutMetaJson {J : Type} (wire : Wire J) (messages : List Message) : J :=
  wire.layoutMetaToJson (wire.layoutMetaFromMessages messages)

structure ConversationRow (J : Type) where
  id : String
  messagesJson : J
  revision : ℕ
  updatedAtUnix : ℤ
  activeAgentRole : String
  activeSessionMode : String
  activePermissionLevel : String
  layoutMetaJson : J
  deriving DecidableEq

structure StoredArchiveRow (J : Type) where
  conversationId : String
  seq : ℤ
  reason : ArchiveReason
  rangeStart : ℤ
  rangeEnd : ℤ
  messagesJson : J
  codec : String
  createdAtUnix : ℤ
  deriving DecidableEq

def StoredArchiveRow.key {J : Type} (row : StoredArchiveRow J) : String × ℤ :=
  (row.conversationId, row.seq)

structure Db (J : Type) where
  conversations : Table (ConversationRow.id (J := J))
  archive : Table (StoredArchiveRow.key (J := J))

instance {J : Type} [DecidableEq J] : DecidableEq (Db J) := fun a b =>
  decidable_of_iff (a.conversations = b.conversations ∧ a.archive = b.archive)
    ⟨fun h => by cases a; cases b; simp_all, fun h => h ▸ ⟨rfl, rfl⟩⟩

namespace Db

variable {J : Type}

/-- The tables right after the schema was created. -/
def empty : Db J := ⟨.empty, .empty⟩

def archiveOf (db : Db J) (id : String) : List (StoredArchiveRow J) :=
  db.archive.rows.filter fun r => r.conversationId = id

def deleteConversations (db : Db J) (p : ConversationRow J → Bool) : Db J :=
  { db with conversations := db.conversations.deleteWhere p }

def deleteArchive (db : Db J) (p : StoredArchiveRow J → Bool) : Db J :=
  { db with archive := db.archive.deleteWhere p }

def updateConversations (db : Db J) (p : ConversationRow J → Bool)
    (f : ConversationRow J → ConversationRow J) (hf : ∀ r, (f r).id = r.id) : Db J :=
  { db with conversations := db.conversations.updateWhere p f hf }

def insertConversation (db : Db J) (row : ConversationRow J) : Except StoreError (Db J) :=
  match db.conversations.insert? row with
  | some conversations => .ok { db with conversations }
  | none => .error .constraint

def insertArchive (db : Db J) (row : StoredArchiveRow J) : Except StoreError (Db J) :=
  match db.archive.insert? row with
  | some archive => .ok { db with archive }
  | none => .error .constraint

@[simp] theorem conversations_deleteConversations (db : Db J) (p : ConversationRow J → Bool) :
    (db.deleteConversations p).conversations = db.conversations.deleteWhere p := rfl

@[simp] theorem archive_deleteConversations (db : Db J) (p : ConversationRow J → Bool) :
    (db.deleteConversations p).archive = db.archive := rfl

@[simp] theorem archive_deleteArchive (db : Db J) (p : StoredArchiveRow J → Bool) :
    (db.deleteArchive p).archive = db.archive.deleteWhere p := rfl

@[simp] theorem conversations_updateConversations (db : Db J) (p : ConversationRow J → Bool)
    (f : ConversationRow J → ConversationRow J) (hf : ∀ r, (f r).id = r.id) :
    (db.updateConversations p f hf).conversations = db.conversations.updateWhere p f hf := rfl

theorem lookup_updateConversations_ne (db : Db J) {p : ConversationRow J → Bool}
    {f : ConversationRow J → ConversationRow J} (hf : ∀ r, (f r).id = r.id) {id : String}
    (h : ∀ r, r.id = id → p r = false) :
    (db.updateConversations p f hf).conversations.lookup id = db.conversations.lookup id :=
  Table.lookup_updateWhere_of_not hf h

theorem lookup_updateConversations (db : Db J) {p : ConversationRow J → Bool}
    {f : ConversationRow J → ConversationRow J} (hf : ∀ r, (f r).id = r.id) {id : String}
    {row : ConversationRow J} (hrow : db.conversations.lookup id = some row)
    (hp : p row = true) :
    (db.updateConversations p f hf).conversations.lookup id = some (f row) :=
  Table.lookup_updateWhere_key hf hrow hp

theorem insertConversation_eq_ok {db db' : Db J} {row : ConversationRow J}
    (h : db.insertConversation row = .ok db') :
    db.conversations.insert? row = some db'.conversations ∧ db'.archive = db.archive := by
  unfold insertConversation at h
  split at h
  · next hi =>
    cases h
    exact ⟨hi, rfl⟩
  · cases h

theorem insertArchive_eq_ok {db db' : Db J} {row : StoredArchiveRow J}
    (h : db.insertArchive row = .ok db') :
    db'.conversations = db.conversations ∧ db'.archive.rows = db.archive.rows ++ [row] := by
  unfold insertArchive at h
  split at h
  · next hi =>
    cases h
    exact ⟨rfl, (Table.insert?_eq_some_iff.mp hi).2⟩
  · cases h

theorem mem_archiveOf {db : Db J} {id : String} {row : StoredArchiveRow J} :
    row ∈ db.archiveOf id ↔ row ∈ db.archive.rows ∧ row.conversationId = id := by
  simp [archiveOf]

end Db

/-- A codec that stores messages as they are; `none` is a damaged text. -/
def plainWire : Wire (Option (List Message)) where
  messagesToJson ms := .ok (some ms)
  messagesFromJson
    | some ms => .ok ms
    | none => .error "会话 JSON 缺少 messages 数组"
  gzip := .ok
  gunzip := .ok
  size _ := 0
  layoutMetaFromMessages _ := .null
  layoutMetaToJson _ := none
  layoutMetaFromColumn _ := none
  fromJson_toJson h := by cases h; rfl
  gunzip_gzip h := by cases h; rfl

end CrabMate
