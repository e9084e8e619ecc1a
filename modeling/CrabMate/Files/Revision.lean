import CrabMate.Lib.Table
import CrabMate.Tools.Patch

/-! File revisions: the content digest `read_file` hands out, the bindings it leaves in the cache of
the turn, and the check a write makes against them. -/
namespace CrabMate
open List

open RustStr (Str hexDigit)

abbrev FileBytes := List UInt8

/-! The text of a revision. -/

def revisionPrefix : Str := "sha256:".toList

def hexLower (bytes : FileBytes) : Str :=
  bytes.flatMap fun b => [hexDigit (b.toNat / 16), hexDigit (b.toNat % 16)]

theorem hexDigit_cases {n : ℕ} (hn : n < 16) :
    RustStr.isWhitespace (hexDigit n) = false ∧ (hexDigit n).toLower = hexDigit n := by
  have hall : ∀ m : Fin 16, RustStr.isWhitespace (hexDigit m) = false ∧
      (hexDigit m).toLower = hexDigit m := by decide
  exact hall ⟨n, hn⟩

theorem hexDigit_injOn {m n : ℕ} (hm : m < 16) (hn : n < 16) (h : hexDigit m = hexDigit n) :
    m = n := by
  have hall : ∀ a b : Fin 16, hexDigit a = hexDigit b → a = b := by decide
  exact congrArg Fin.val (hall ⟨m, hm⟩ ⟨n, hn⟩ h)

theorem mem_hexLower {bytes : FileBytes} {c : Char} (hc : c ∈ hexLower bytes) :
    RustStr.isWhitespace c = false ∧ c.toLower = c := by
  obtain ⟨b, -, hcb⟩ := mem_flatMap.mp hc
  have hb : b.toNat < 256 := b.toNat_lt
  rw [mem_cons, mem_singleton] at hcb
  obtain rfl | rfl := hcb
  · exact hexDigit_cases (by omega)
  · exact hexDigit_cases (by omega)

theorem hexLower_injective : Function.Injective hexLower := by
  intro xs
  induction xs with
  | nil =>
    intro ys h
    cases ys with
    | nil => rfl
    | cons y ys => exact absurd h (by simp [hexLower])
  | cons x xs ih =>
    intro ys h
    cases ys with
    | nil => exact absurd h (by simp [hexLower])
    | cons y ys =>
      simp only [hexLower, flatMap_cons, cons_append, nil_append,
        List.cons.injEq] at h
      obtain ⟨hhigh, hlow, hrest⟩ := h
      have hx : x.toNat < 256 := x.toNat_lt
      have hy : y.toNat < 256 := y.toNat_lt
      have hquot := hexDigit_injOn (by omega) (by omega) hhigh
      have hrem := hexDigit_injOn (by omega) (by omega) hlow
      have hxy : x = y := UInt8.toNat_inj.mp (by omega)
      rw [hxy, ih hrest]

section
variable (sha256 : FileBytes → FileBytes)

def revisionOf (content : FileBytes) : Str := revisionPrefix ++ hexLower (sha256 content)

theorem normalizeRevision_revisionOf (content : FileBytes) :
    normalizeRevision (revisionOf sha256 content) = hexLower (sha256 content) := by
  have hplain : ∀ c ∈ revisionOf sha256 content,
      RustStr.isWhitespace c = false ∧ c.toLower = c := by
    intro c hc
    obtain hc | hc := mem_append.mp hc
    · have hall : revisionPrefix.all (fun c => !RustStr.isWhitespace c && c.toLower == c) = true :=
        by decide
      simpa using all_eq_true.mp hall c hc
    · exact mem_hexLower hc
  have htrim : RustStr.trim (revisionOf sha256 content) = revisionOf sha256 content :=
    RustStr.trim_eq_self_of_forall fun c hc => (hplain c hc).1
  have hlower : (revisionOf sha256 content).map Char.toLower = revisionOf sha256 content := by
    rw [map_congr_left fun c hc => (hplain c hc).2, map_id']
  have hstrip : RustStr.stripPrefix? revisionPrefix (revisionOf sha256 content) =
      some (hexLower (sha256 content)) := RustStr.stripPrefix?_append _ _
  unfold normalizeRevision
  rw [htrim, hlower]
  exact congrArg (fun stripped => stripped.getD (revisionOf sha256 content)) hstrip

/-- Where the digest is injective, revisions that compare equal belong to equal contents. -/
theorem content_eq_of_revision_eq (hsha : Function.Injective sha256) {a b : FileBytes}
    (h : normalizeRevision (revisionOf sha256 a) = normalizeRevision (revisionOf sha256 b)) :
    a = b := by
  rw [normalizeRevision_revisionOf, normalizeRevision_revisionOf] at h
  exact hsha (hexLower_injective h)

end

/-! The cache of one turn. -/

def revisionBindMaxEntries : ℕ := 1024

structure FileStamp where
  modified : ℕ
  len : ℕ
  dev : ℕ
  ino : ℕ
  ctime : ℤ
  ctimeNsec : ℤ
  deriving DecidableEq

/-- A cached page. `snapshot` is the content it was rendered from; the code does not store it. -/
structure ReadFileCacheEntry where
  key : String
  stamp : FileStamp
  output : String
  revision : Str
  snapshot : FileBytes
  deriving DecidableEq

structure RevisionBinding where
  path : String
  revision : Str
  deriving DecidableEq

structure ReadFileTurnCache where
  map : Table ReadFileCacheEntry.key
  revisions : Table RevisionBinding.path
  contentEnabled : Bool
  maxEntries : ℕ
  deriving DecidableEq

namespace ReadFileTurnCache

def new (maxEntries : ℕ) : ReadFileTurnCache :=
  ⟨Table.empty, Table.empty, 0 < maxEntries, max maxEntries 1⟩

/-- Drops the pages; the revision bindings stay for the whole turn. -/
def clear (c : ReadFileTurnCache) : ReadFileTurnCache := { c with map := Table.empty }

def tryGet (c : ReadFileTurnCache) (key : String) (stamp : FileStamp) :
    Option ReadFileCacheEntry :=
  if c.contentEnabled then (c.map.lookup key).filter fun e => e.stamp = stamp else none

def insert (c : ReadFileTurnCache) (e : ReadFileCacheEntry) : ReadFileTurnCache :=
  if c.contentEnabled then
    let map := if c.maxEntries ≤ c.map.rows.length then Table.empty else c.map
    { c with map := map.put e }
  else c

def recordRevision (c : ReadFileTurnCache) (path : String) (revision : Str) :
    ReadFileTurnCache :=
  let revisions :=
    if revisionBindMaxEntries ≤ c.revisions.rows.length ∧ c.revisions.lookup path = none then
      Table.empty
    else c.revisions
  { c with revisions := revisions.put ⟨path, revision⟩ }

def lastReadRevision (c : ReadFileTurnCache) (path : String) : Option Str :=
  (c.revisions.lookup path).map RevisionBinding.revision

theorem mem_rows_insert {c : ReadFileTurnCache} {e q : ReadFileCacheEntry}
    (hq : q ∈ (c.insert e).map.rows) : q = e ∨ q ∈ c.map.rows := by
  unfold insert at hq
  split at hq
  · obtain hq | hq := Table.mem_rows_put.mp hq
    · exact .inl hq
    · refine .inr ?_
      by_cases hfull : c.maxEntries ≤ c.map.rows.length
      · simp [hfull] at hq
      · simpa [hfull] using hq.1
  · exact .inr hq

theorem lastReadRevision_insert (c : ReadFileTurnCache) (e : ReadFileCacheEntry) (path : String) :
    (c.insert e).lastReadRevision path = c.lastReadRevision path := by
  unfold insert
  split <;> rfl

/-- A binding after a read is the new one, or an older one of another path. -/
theorem lastReadRevision_recordRevision {c : ReadFileTurnCache} {path p : String}
    {revision r : Str} (h : (c.recordRevision path revision).lastReadRevision p = some r) :
    p = path ∧ r = revision ∨ p ≠ path ∧ c.lastReadRevision p = some r := by
  unfold lastReadRevision recordRevision at h
  by_cases hp : path = p
  · subst hp
    rw [Table.lookup_put_self] at h
    exact .inl ⟨rfl, (Option.some.inj h).symm⟩
  · rw [Table.lookup_put_of_ne _ hp] at h
    refine .inr ⟨Ne.symm hp, ?_⟩
    split at h
    · simp at h
    · exact h

end ReadFileTurnCache

/-! The check before a write. -/

namespace FileRevision

/-- `base_revision`; a blank one counts as absent. -/
def baseRevisionArg (v : JsonValue) : Option Str :=
  (((v.get? "base_revision").bind JsonValue.asStr?).map fun s => RustStr.trim s.toList).filter
    fun s => !s.isEmpty

def allowStaleRevisionArg (v : JsonValue) : Bool :=
  ((v.get? "allow_stale_revision").bind JsonValue.asBool?).getD false

end FileRevision

inductive RevisionSource where
  | explicit
  | turnRead
  deriving DecidableEq

inductive RevisionError where
  | missingRevisionBaseline (target : String)
  | revisionCheckFailed (target : String)
  | staleRevision (target : String) (source : RevisionSource) (expected current : Str)
  deriving DecidableEq

structure DiskFile where
  path : String
  bytes : FileBytes
  stamp : FileStamp
  deriving DecidableEq

abbrev FileTable := Table DiskFile.path

namespace FileRevision

variable (sha256 : FileBytes → FileBytes)

def verifyRevision (disk : FileTable) (target : String) (expected : Str) (source : RevisionSource) :
    Except RevisionError Unit :=
  match disk.lookup target with
  | none => .error (.revisionCheckFailed target)
  | some file =>
    let current := revisionOf sha256 file.bytes
    if normalizeRevision expected = normalizeRevision current then .ok ()
    else .error (.staleRevision target source expected current)

def verifyWriteRevision (v : JsonValue) (disk : FileTable) (target : String)
    (cache : Option ReadFileTurnCache) (autoBind : Bool) : Except RevisionError Unit :=
  match baseRevisionArg v with
  | some expected => verifyRevision sha256 disk target expected .explicit
  | none =>
    if !autoBind || allowStaleRevisionArg v then .ok ()
    else
      match cache.bind fun c => c.lastReadRevision target with
      | none => .error (.missingRevisionBaseline target)
      | some expected => verifyRevision sha256 disk target expected .turnRead

/-- A bound write that passes the check finds the target with the revision last read. -/
theorem verifyWriteRevision_bound {v : JsonValue} {disk : FileTable} {target : String}
    {cache : Option ReadFileTurnCache} (hbase : baseRevisionArg v = none)
    (hstale : allowStaleRevisionArg v = false)
    (h : verifyWriteRevision sha256 v disk target cache true = .ok ()) :
    ∃ c expected file, cache = some c ∧ c.lastReadRevision target = some expected ∧
      disk.lookup target = some file ∧
      normalizeRevision expected = normalizeRevision (revisionOf sha256 file.bytes) := by
  simp only [verifyWriteRevision, hbase, hstale, Bool.not_true, Bool.or_self, Bool.false_eq_true,
    if_false] at h
  split at h
  · cases h
  · next expected hexp =>
    obtain ⟨c, rfl, hlast⟩ := Option.bind_eq_some_iff.mp hexp
    unfold verifyRevision at h
    split at h
    · cases h
    · next file hfile =>
      by_cases heq : normalizeRevision expected = normalizeRevision (revisionOf sha256 file.bytes)
      · exact ⟨c, expected, file, rfl, hlast, hfile, heq⟩
      · simp [heq] at h

end FileRevision

end CrabMate
