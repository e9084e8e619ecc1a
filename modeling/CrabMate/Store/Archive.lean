import CrabMate.Lib.Except
import CrabMate.Store.Db
import Mathlib.Data.List.Dedup

/-! The archive of original messages that left the canonical history. Rows of one
conversation are numbered by `seq`; a reader joins them in that order. -/
namespace CrabMate
open List

variable {J : Type} (wire : Wire J)

def encodeArchivePayload (messages : List Message) (codecMinBytes : ℕ) :
    Except StoreError (String × J) :=
  match wire.messagesToJson messages with
  | .error e => .error (.decode (-1) ("归档消息序列化失败: " ++ e))
  | .ok json =>
    if 0 < codecMinBytes ∧ codecMinBytes ≤ wire.size json then
      match wire.gzip json with
      | .error reason => .error (.decode (-1) reason)
      | .ok payload => .ok ("gzip", payload)
    else .ok ("identity", json)

def decodeArchivePayload (seq : ℤ) (payload : J) (codec : String) :
    Except StoreError (List Message) :=
  if codec = "identity" then (wire.messagesFromJson payload).mapError (.decode seq)
  else if codec = "gzip" then
    (wire.gunzip payload >>= wire.messagesFromJson).mapError (.decode seq)
  else .error (.decode seq ("未知归档 codec: " ++ codec))

def decodeArchiveRows : List (StoredArchiveRow J) → Except StoreError (List Message)
  | [] => .ok []
  | row :: rows => do
    let messages ← decodeArchivePayload wire row.seq row.messagesJson row.codec
    let rest ← decodeArchiveRows rows
    return messages ++ rest

/-- `ORDER BY seq ASC`. -/
def orderBySeq (rows : List (StoredArchiveRow J)) : List (StoredArchiveRow J) :=
  rows.insertionSort fun a b => a.seq ≤ b.seq

/-- `COALESCE(MAX(seq), -1) + 1`. -/
def nextSeq (db : Db J) (id : String) : ℤ :=
  ((db.archiveOf id).map StoredArchiveRow.seq).max?.getD (-1) + 1

def insertArchiveRowsFrom (now : ℤ) (id : String) (codecMinBytes : ℕ) (db : Db J) (seq : ℤ) :
    List ArchiveRow → Except StoreError (Db J)
  | [] => .ok db
  | row :: rows => do
    let (codec, payload) ← encodeArchivePayload wire row.messages codecMinBytes
    let db ← db.insertArchive {
      conversationId := id
      seq := seq
      reason := row.reason
      rangeStart := row.rangeStart
      rangeEnd := row.rangeEnd
      messagesJson := payload
      codec := codec
      createdAtUnix := now }
    insertArchiveRowsFrom now id codecMinBytes db (seq + 1) rows

def insertArchiveRows (now : ℤ) (db : Db J) (id : String) (rows : List ArchiveRow)
    (codecMinBytes : ℕ) : Except StoreError (Db J) :=
  insertArchiveRowsFrom wire now id codecMinBytes db (nextSeq db id) rows

def appendArchiveRows (now : ℤ) (db : Db J) (id : String) (rows : List ArchiveRow)
    (codecMinBytes : ℕ) : Except StoreError (Db J) :=
  if rows.isEmpty then .ok db else insertArchiveRows wire now db id rows codecMinBytes

def loadArchiveMessages (db : Db J) (id : String) : Except StoreError (List Message) :=
  decodeArchiveRows wire (orderBySeq (db.archiveOf id))

def archiveMinSeq (db : Db J) (id : String) : Option ℤ :=
  ((db.archiveOf id).map StoredArchiveRow.seq).min?

def archivePrefixIncomplete (db : Db J) (id : String) : Bool :=
  (archiveMinSeq db id).any fun min => 0 < min

def loadArchiveOriginalMessages (db : Db J) (id : String) : Except StoreError (List Message) :=
  decodeArchiveRows wire
    (orderBySeq ((db.archiveOf id).filter fun r => r.reason ≠ .artifact))

def archiveRealUserCount (db : Db J) (id : String) : Except StoreError ℕ := do
  let messages ← loadArchiveMessages wire db id
  return messages.countP Message.userMessageCountsForBranchTruncation

def deleteArchiveForConversation (db : Db J) (id : String) : Db J :=
  db.deleteArchive fun r => r.conversationId = id

/-- Deletes the rows up to the one at offset `maxRows` in descending `seq` order. -/
def capArchiveRows (maxRows : ℕ) (db : Db J) (id : String) : Db J :=
  match ((db.archiveOf id).insertionSort fun a b => b.seq ≤ a.seq)[maxRows]? with
  | none => db
  | some last => db.deleteArchive fun r => r.conversationId = id && r.seq ≤ last.seq

def pruneArchiveByTtl (now : ℤ) (db : Db J) (ttlSecs : ℕ) : Db J :=
  if 0 < ttlSecs then db.deleteArchive fun r => r.createdAtUnix < now - ttlSecs else db

def pruneArchive (now : ℤ) (db : Db J) (ttlSecs maxRowsPerConversation : ℕ) : Db J :=
  let db := pruneArchiveByTtl now db ttlSecs
  if maxRowsPerConversation = 0 then db
  else
    let ids := (db.archive.rows.map StoredArchiveRow.conversationId).dedup.filter fun id =>
      maxRowsPerConversation < (db.archiveOf id).length
    ids.foldl (capArchiveRows maxRowsPerConversation) db

section Prune

/-- The tables after some archive rows were removed. -/
structure Pruned (db db' : Db J) : Prop where
  conversations : db'.conversations = db.conversations
  archive : db'.archive.rows.Sublist db.archive.rows

theorem Pruned.refl (db : Db J) : Pruned db db := ⟨rfl, List.Sublist.refl _⟩

theorem Pruned.trans {db₁ db₂ db₃ : Db J} (h₁ : Pruned db₁ db₂) (h₂ : Pruned db₂ db₃) :
    Pruned db₁ db₃ :=
  ⟨h₂.conversations.trans h₁.conversations, h₂.archive.trans h₁.archive⟩

theorem deleteArchive_pruned (db : Db J) (p : StoredArchiveRow J → Bool) :
    Pruned db (db.deleteArchive p) := ⟨rfl, filter_sublist⟩

theorem capArchiveRows_pruned (maxRows : ℕ) (db : Db J) (id : String) :
    Pruned db (capArchiveRows maxRows db id) := by
  unfold capArchiveRows
  split
  · exact Pruned.refl db
  · exact deleteArchive_pruned db _

theorem foldl_capArchiveRows_pruned (maxRows : ℕ) (ids : List String) (db : Db J) :
    Pruned db (ids.foldl (capArchiveRows maxRows) db) := by
  induction ids generalizing db with
  | nil => exact Pruned.refl db
  | cons id ids ih => exact (capArchiveRows_pruned maxRows db id).trans (ih _)

theorem pruneArchiveByTtl_pruned (now : ℤ) (db : Db J) (ttlSecs : ℕ) :
    Pruned db (pruneArchiveByTtl now db ttlSecs) := by
  unfold pruneArchiveByTtl
  split
  · exact deleteArchive_pruned db _
  · exact Pruned.refl db

theorem pruneArchive_pruned (now : ℤ) (db : Db J) (ttlSecs maxRowsPerConversation : ℕ) :
    Pruned db (pruneArchive now db ttlSecs maxRowsPerConversation) := by
  have httl := pruneArchiveByTtl_pruned now db ttlSecs
  simp only [pruneArchive]
  split
  · exact httl
  · exact httl.trans (foldl_capArchiveRows_pruned _ _ _)

end Prune

section Codec

/-- Whatever codec the encoder picks, the decoder returns the messages. -/
theorem decode_encodeArchivePayload {messages : List Message} {codecMinBytes : ℕ}
    {codec : String} {payload : J}
    (h : encodeArchivePayload wire messages codecMinBytes = .ok (codec, payload)) (seq : ℤ) :
    decodeArchivePayload wire seq payload codec = .ok messages := by
  unfold encodeArchivePayload at h
  split at h
  · cases h
  · next json hj =>
    have hm := wire.fromJson_toJson hj
    split at h
    · split at h
      · cases h
      · next payload' hz =>
        cases h
        simp [decodeArchivePayload, wire.gunzip_gzip hz, hm, Except.mapError, bind, Except.bind]
    · cases h
      simp [decodeArchivePayload, hm, Except.mapError]

theorem decodeArchiveRows_append (rows₁ rows₂ : List (StoredArchiveRow J)) :
    decodeArchiveRows wire (rows₁ ++ rows₂) = (do
      let a ← decodeArchiveRows wire rows₁
      let b ← decodeArchiveRows wire rows₂
      return a ++ b) := by
  induction rows₁ with
  | nil =>
    cases h : decodeArchiveRows wire rows₂ <;> simp [decodeArchiveRows, h, bind, Except.bind, pure,
      Except.pure]
  | cons row rows₁ ih =>
    simp only [cons_append, decodeArchiveRows, ih]
    cases decodeArchivePayload wire row.seq row.messagesJson row.codec with
    | error e => rfl
    | ok a =>
      cases decodeArchiveRows wire rows₁ with
      | error e => rfl
      | ok b =>
        cases decodeArchiveRows wire rows₂ with
        | error e => rfl
        | ok c => simp [bind, Except.bind, pure, Except.pure]

theorem decodeArchiveRows_append_ok {rows₁ rows₂ : List (StoredArchiveRow J)}
    {ms₁ ms₂ : List Message} (h₁ : decodeArchiveRows wire rows₁ = .ok ms₁)
    (h₂ : decodeArchiveRows wire rows₂ = .ok ms₂) :
    decodeArchiveRows wire (rows₁ ++ rows₂) = .ok (ms₁ ++ ms₂) := by
  rw [decodeArchiveRows_append, h₁, h₂]
  rfl

theorem decodeArchiveRows_cons_ok {row : StoredArchiveRow J} {rows : List (StoredArchiveRow J)}
    {ms : List Message} (h : decodeArchiveRows wire (row :: rows) = .ok ms) :
    ∃ part rest, decodeArchivePayload wire row.seq row.messagesJson row.codec = .ok part ∧
      decodeArchiveRows wire rows = .ok rest ∧ part ++ rest = ms := by
  obtain ⟨part, hpart, h⟩ := Except.bind_eq_ok.mp h
  obtain ⟨rest, hrest, h⟩ := Except.bind_eq_ok.mp h
  exact ⟨part, rest, hpart, hrest, Except.ok.inj h⟩

theorem mem_decodeArchiveRows {rows : List (StoredArchiveRow J)} {ms : List Message}
    (h : decodeArchiveRows wire rows = .ok ms) {m : Message} (hm : m ∈ ms) :
    ∃ row ∈ rows, ∃ part,
      decodeArchivePayload wire row.seq row.messagesJson row.codec = .ok part ∧ m ∈ part := by
  induction rows generalizing ms with
  | nil =>
    cases h
    cases hm
  | cons row rows ih =>
    obtain ⟨part, rest, hp, hr, rfl⟩ := decodeArchiveRows_cons_ok wire h
    rcases mem_append.mp hm with hm | hm
    · exact ⟨row, mem_cons_self, part, hp, hm⟩
    · obtain ⟨r, hr', part', hd, hm'⟩ := ih hr hm
      exact ⟨r, mem_cons_of_mem _ hr', part', hd, hm'⟩

end Codec

section Insert

/-- The stored rows hold the given ranges in order, numbered from `seq`. -/
def StoredFrom (id : String) : ℤ → List ArchiveRow → List (StoredArchiveRow J) → Prop
  | _, [], [] => True
  | seq, row :: rows, stored :: rest =>
    (stored.conversationId = id ∧ stored.seq = seq ∧ stored.reason = row.reason ∧
      decodeArchivePayload wire stored.seq stored.messagesJson stored.codec = .ok row.messages) ∧
    StoredFrom id (seq + 1) rows rest
  | _, _, _ => False

theorem insertArchiveRowsFrom_eq_ok {now : ℤ} {id : String} {codecMinBytes : ℕ}
    {rows : List ArchiveRow} {db db' : Db J} {seq : ℤ}
    (h : insertArchiveRowsFrom wire now id codecMinBytes db seq rows = .ok db') :
    db'.conversations = db.conversations ∧ ∃ stored,
      db'.archive.rows = db.archive.rows ++ stored ∧ StoredFrom wire id seq rows stored := by
  induction rows generalizing db seq with
  | nil =>
    cases h
    exact ⟨rfl, [], by simp, trivial⟩
  | cons row rows ih =>
    simp only [insertArchiveRowsFrom] at h
    cases he : encodeArchivePayload wire row.messages codecMinBytes with
    | error e => simp [he, bind, Except.bind] at h
    | ok cp =>
      obtain ⟨codec, payload⟩ := cp
      simp only [he, bind, Except.bind] at h
      split at h
      · cases h
      · next mid hins =>
        obtain ⟨hconv, hrows⟩ := Db.insertArchive_eq_ok hins
        obtain ⟨hconv', stored, hrows', hfrom⟩ := ih h
        refine ⟨hconv'.trans hconv,
          ⟨id, seq, row.reason, row.rangeStart, row.rangeEnd, payload, codec, now⟩ :: stored,
          ?_, ⟨rfl, rfl, rfl, ?_⟩, hfrom⟩
        · rw [hrows', hrows, append_assoc, singleton_append]
        · exact decode_encodeArchivePayload wire he seq

theorem appendArchiveRows_eq_ok {now : ℤ} {id : String} {codecMinBytes : ℕ}
    {rows : List ArchiveRow} {db db' : Db J}
    (h : appendArchiveRows wire now db id rows codecMinBytes = .ok db') :
    db'.conversations = db.conversations ∧ ∃ stored,
      db'.archive.rows = db.archive.rows ++ stored ∧
        StoredFrom wire id (nextSeq db id) rows stored := by
  unfold appendArchiveRows at h
  split at h
  · next he =>
    cases h
    rw [List.isEmpty_iff.mp he]
    exact ⟨rfl, [], by simp, trivial⟩
  · exact insertArchiveRowsFrom_eq_ok wire h

variable {wire}

/-- Each stored row belongs to the conversation and holds one of the ranges. -/
theorem StoredFrom.mem {id : String} {seq : ℤ} {rows : List ArchiveRow}
    {stored : List (StoredArchiveRow J)} (h : StoredFrom wire id seq rows stored)
    {s : StoredArchiveRow J} (hs : s ∈ stored) :
    s.conversationId = id ∧ seq ≤ s.seq ∧ ∃ row ∈ rows, s.reason = row.reason ∧
      decodeArchivePayload wire s.seq s.messagesJson s.codec = .ok row.messages := by
  induction rows generalizing seq stored with
  | nil =>
    cases stored with
    | nil => cases hs
    | cons => cases h
  | cons row rows ih =>
    cases stored with
    | nil => cases h
    | cons t stored =>
      obtain ⟨⟨hid, hseq, hreason, hdec⟩, hrest⟩ := h
      rcases mem_cons.mp hs with rfl | hs
      · exact ⟨hid, hseq.ge, row, mem_cons_self, hreason, hdec⟩
      · obtain ⟨hid', hle, row', hmem, hfacts⟩ := ih hrest hs
        exact ⟨hid', by omega, row', mem_cons_of_mem _ hmem, hfacts⟩

theorem StoredFrom.archiveOf_self {id : String} {seq : ℤ} {rows : List ArchiveRow}
    {stored : List (StoredArchiveRow J)} (h : StoredFrom wire id seq rows stored) {db db' : Db J}
    (hrows : db'.archive.rows = db.archive.rows ++ stored) :
    db'.archiveOf id = db.archiveOf id ++ stored := by
  rw [Db.archiveOf, hrows, filter_append, Db.archiveOf]
  congr 1
  exact filter_eq_self.mpr fun r hr => by simp [(h.mem hr).1]

theorem StoredFrom.archiveOf_ne {id other : String} {seq : ℤ} {rows : List ArchiveRow}
    {stored : List (StoredArchiveRow J)} (h : StoredFrom wire id seq rows stored) {db db' : Db J}
    (hrows : db'.archive.rows = db.archive.rows ++ stored) (hne : other ≠ id) :
    db'.archiveOf other = db.archiveOf other := by
  have hnone : stored.filter (fun r => r.conversationId = other) = [] :=
    filter_eq_nil_iff.mpr fun r hr => by simp [(h.mem hr).1, Ne.symm hne]
  rw [Db.archiveOf, hrows, filter_append, hnone, append_nil, Db.archiveOf]

end Insert
end CrabMate
