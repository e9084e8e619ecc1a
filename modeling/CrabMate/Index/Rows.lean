import CrabMate.Lib.Str
import CrabMate.Lib.Table

/-! The two tables of the code index: the chunk rows and the catalog of indexed files, the second
with its primary key. Every statement of the source deletes from both by one condition on the
workspace and the path of a row. -/
namespace CrabMate
open List
namespace CodebaseIndex

open RustStr (Str)

structure ChunkRow where
  workspaceRoot : Str
  relPath : Str
  startLine : ℕ
  endLine : ℕ
  chunkText : Str
  contentHash : Str
  deriving DecidableEq

structure FileRow where
  workspaceRoot : Str
  relPath : Str
  size : ℕ
  mtimeNs : ℤ
  contentSha256 : Str
  deriving DecidableEq

/-- A workspace and a path in it. -/
abbrev RowKey := Str × Str

def ChunkRow.key (row : ChunkRow) : RowKey := (row.workspaceRoot, row.relPath)

def FileRow.key (row : FileRow) : RowKey := (row.workspaceRoot, row.relPath)

structure Index where
  chunks : List ChunkRow
  files : Table FileRow.key
  deriving DecidableEq

namespace Index

def empty : Index := ⟨[], Table.empty⟩

/-- The chunk rows under a key, in the order in which they were inserted. -/
def chunksAt (idx : Index) (k : RowKey) : List ChunkRow := idx.chunks.filter fun row => row.key = k

def fileAt (idx : Index) (k : RowKey) : Option FileRow := idx.files.lookup k

@[simp] theorem chunksAt_empty (k : RowKey) : empty.chunksAt k = [] := rfl

@[simp] theorem fileAt_empty (k : RowKey) : empty.fileAt k = none := rfl

/-- `DELETE FROM … WHERE` on both tables. -/
def deleteWhere (idx : Index) (p : RowKey → Bool) : Index :=
  ⟨idx.chunks.filter fun row => !p row.key, idx.files.deleteWhere fun row => p row.key⟩

theorem chunksAt_deleteWhere (idx : Index) (p : RowKey → Bool) (k : RowKey) :
    (idx.deleteWhere p).chunksAt k = if p k then [] else idx.chunksAt k := by
  show (idx.chunks.filter fun row => !p row.key).filter (fun row => row.key = k) = _
  rw [filter_filter]
  by_cases hp : p k = true
  · rw [if_pos hp, filter_eq_nil_iff]
    intro row _ hrow
    rw [Bool.and_eq_true, decide_eq_true_eq] at hrow
    simp [hrow.1, hp] at hrow
  · rw [if_neg hp]
    refine filter_congr fun row _ => ?_
    by_cases hk : row.key = k
    · simp [hk, hp]
    · simp [hk]

theorem fileAt_deleteWhere (idx : Index) (p : RowKey → Bool) (k : RowKey) :
    (idx.deleteWhere p).fileAt k = if p k then none else idx.fileAt k := by
  by_cases hp : p k = true
  · rw [if_pos hp]
    exact Table.lookup_deleteWhere_of fun row hrow => hrow ▸ hp
  · rw [if_neg hp]
    exact Table.lookup_deleteWhere_of_not fun row hrow => by simp [hrow, hp]

/-- `INSERT` of chunk rows, then `INSERT OR REPLACE` of file rows. -/
def insertRows (idx : Index) (chunks : List ChunkRow) (files : List FileRow) : Index :=
  ⟨idx.chunks ++ chunks, files.foldl Table.put idx.files⟩

theorem chunksAt_insertRows (idx : Index) (chunks : List ChunkRow) (files : List FileRow)
    (k : RowKey) :
    (idx.insertRows chunks files).chunksAt k =
      idx.chunksAt k ++ chunks.filter fun row => row.key = k := filter_append _ _

theorem fileAt_insertRows (idx : Index) (chunks : List ChunkRow) (files : List FileRow)
    (k : RowKey) :
    (idx.insertRows chunks files).fileAt k =
      (files.filter fun row => row.key = k).getLast?.or (idx.fileAt k) := by
  show (files.foldl Table.put idx.files).lookup k = _
  unfold fileAt
  induction files generalizing idx with
  | nil => rfl
  | cons row files ih =>
    rw [foldl_cons, ih ⟨idx.chunks, idx.files.put row⟩]
    by_cases hk : row.key = k
    · subst hk
      rw [Table.lookup_put_self, filter_cons_of_pos (by simp), getLast?_cons]
      cases (files.filter fun r => r.key = row.key).getLast? <;> rfl
    · rw [Table.lookup_put_of_ne idx.files hk, filter_cons_of_neg (by simpa using hk)]

end Index
end CodebaseIndex
end CrabMate
