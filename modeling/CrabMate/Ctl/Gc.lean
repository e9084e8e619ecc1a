import CrabMate.Ctl.Ops
import Mathlib.Data.String.Basic

/-! `gc`: the homes and logs of stopped instances are deleted. The homes, records, logs and rotated
logs of all instances lie side by side in one directory, and are told apart by the ends of their
names. -/
namespace CrabMate.Ctl.Gc

structure GcOpts where
  olderThan : Option ℕ := none
  keepData : Bool := false

inductive GcTargetKind where
  | dir | file
  deriving DecidableEq

structure GcTarget where
  path : PathBuf
  kind : GcTargetKind
  bytes : ℕ

structure GcItem where
  name : String
  observed : Observed
  targets : List GcTarget
  refused : Option String

structure OrphanData where
  name : String
  paths : List PathBuf
  bytes : ℕ

structure GcPlan where
  items : List GcItem
  orphans : List OrphanData

/-! The calls to the operating system. -/

structure Metadata where
  isDir : Bool
  len : ℕ

inductive GcAct where
  | lock
  | readDir
  | symlinkMetadata (path : PathBuf)
  | dirBytes (path : PathBuf)
  | readOptional (path : PathBuf)
  | observe (rec : InstanceRecord)
  | modified (path : PathBuf)
  | now
  | exist (path : PathBuf)
  | remove (path : PathBuf) (isDir : Bool)

/-- A call that fails does so with the text of the system; a path that is not there is no failure
of `symlink_metadata`. -/
@[reducible] def GcAct.Res : GcAct → Type
  | .lock => Except CtlError Unit
  | .readDir => Except String (List PathBuf)
  | .symlinkMetadata _ => Except String (Option Metadata)
  | .dirBytes _ => ℕ
  | .readOptional _ => Option InstanceRecord
  | .observe _ => Facts
  | .modified _ => Option ℕ
  | .now => ℕ
  | .exist _ => Bool
  | .remove _ _ => Except String Unit

abbrev GcOp := Prog GcAct GcAct.Res

abbrev GcM := ExceptT CtlError GcOp

def act (a : GcAct) : GcOp a.Res := Prog.perform a

/-! `query::ls`. -/

def fileName (path : PathBuf) : String := path.getLastD ""

def endsWith (text fname : String) : Bool := text.toList.isSuffixOf fname.toList

/-- The extension is what follows the last dot, if something stands before it. -/
def isRecordFile (path : PathBuf) : Bool :=
  endsWith ".json" (fileName path) && fileName path ≠ ".json"

def showPath (path : PathBuf) : String := "/" ++ "/".intercalate path

def readInstancesDir (P : CtlPaths) : GcM (List PathBuf) := do
  match ← act .readDir with
  | .ok paths => pure paths
  | .error e => throw (.general "state_dir_unreadable"
      s!"读取状态目录失败 {showPath P.instancesDir}：{e}")

def allRecordPaths (P : CtlPaths) : GcM (List PathBuf) := do
  let paths ← readInstancesDir P
  pure ((paths.filter isRecordFile).mergeSort fun a b => fileName a ≤ fileName b)

abbrev Row := InstanceRecord × Probe

/-- A record that cannot be read is left out. -/
def readRow (path : PathBuf) : GcOp (Option Row) := do
  match ← act (.readOptional path) with
  | none => pure none
  | some rec =>
    let facts ← act (.observe rec)
    pure (some (rec, probeOf rec facts))

def ls (P : CtlPaths) : GcM (List Row) := do
  let paths ← allRecordPaths P
  let rows ← (paths.mapM readRow : GcOp _)
  pure ((rows.filterMap id).mergeSort fun a b => a.1.name ≤ b.1.name)

/-! The targets of an instance. -/

def statFailed (code : String) (path : PathBuf) (e : String) : CtlError :=
  .general code s!"读取路径信息失败 {showPath path}：{e}"

/-- Links are not followed: a link counts as a file. -/
def measure (path : PathBuf) : GcM (Option GcTarget) := do
  match ← act (.symlinkMetadata path) with
  | .error e => throw (statFailed "gc_stat_failed" path e)
  | .ok none => pure none
  | .ok (some md) =>
    if !md.isDir then pure (some ⟨path, .file, md.len⟩)
    else
      let bytes ← act (.dirBytes path)
      pure (some ⟨path, .dir, bytes⟩)

def measureHome (P : CtlPaths) (name : String) (keepData : Bool) : GcM (Option GcTarget) :=
  if keepData then pure none
  else do
    let home ← ExceptT.mk (pure (P.instanceHomeChecked name))
    measure home

def collectTargets (P : CtlPaths) (name : String) (keepData : Bool) : GcM (List GcTarget) := do
  let home ← measureHome P name keepData
  let log ← measure (P.logPath name)
  let rotated ← measure (rotatedPath (P.logPath name))
  pure (home.toList ++ log.toList ++ rotated.toList)

/-! The age of an instance, in nanoseconds. -/

def humanAge (nanos : ℕ) : String :=
  let secs := nanos / 1000000000
  if secs < 60 then s!"{secs}s"
  else if secs < 3600 then s!"{secs / 60}m"
  else if secs < 86400 then s!"{secs / 3600}h"
  else s!"{secs / 86400}d"

/-- A time that cannot be read counts as long ago. -/
def ageGate (P : CtlPaths) (rec : InstanceRecord) (targets : List GcTarget) (opts : GcOpts) :
    GcOp (Option String) :=
  match opts.olderThan with
  | none => pure none
  | some limit => do
    let record := (P.recordPath rec.name).toOption
    let times ← (record.toList ++ targets.map GcTarget.path).mapM fun path => act (.modified path)
    let idle := times.foldl (fun idle time => max idle (time.getD 0)) 0
    let now ← act .now
    let age := now - idle
    pure (if age < limit then
      some s!"最近活动距今 {humanAge age}，不足 --older-than {humanAge limit}" else none)

/-! Candidates and their removal. -/

def refusal (P : CtlPaths) (row : Row) (targets : List GcTarget) (opts : GcOpts) :
    GcOp (Option String) :=
  match liveProcessReason row.1 row.2 with
  | some reason => pure (some reason)
  | none => ageGate P row.1 targets opts

def candidate (P : CtlPaths) (opts : GcOpts) (row : Row) : GcM (Option GcItem) := do
  if !row.2.observed.isPrunable then pure none
  else match validateName row.1.name with
    | .error e => pure (some ⟨row.1.name, row.2.observed, [], some e.message⟩)
    | .ok _ =>
      let targets ← collectTargets P row.1.name opts.keepData
      if targets.isEmpty then pure none
      else
        let refused ← refusal P row targets opts
        pure (some ⟨row.1.name, row.2.observed, targets, refused⟩)

/-- What has become of the path is looked at again before it is removed. -/
def removeTarget (path : PathBuf) : GcM Unit := do
  match ← act (.symlinkMetadata path) with
  | .error e => throw (statFailed "gc_remove_failed" path e)
  | .ok none => pure ()
  | .ok (some md) =>
    match ← act (.remove path md.isDir) with
    | .ok _ => pure ()
    | .error e => throw (.general "gc_remove_failed" s!"删除失败 {showPath path}：{e}")

def collectItem (P : CtlPaths) (opts : GcOpts) (applied : Bool) (row : Row) :
    GcM (Option GcItem) := do
  match ← candidate P opts row with
  | none => pure none
  | some item =>
    if applied && item.refused.isNone then
      item.targets.forM fun target => removeTarget target.path
    pure (some item)

def collectItems (P : CtlPaths) (opts : GcOpts) (applied : Bool) : GcM (List GcItem) := do
  let rows ← ls P
  let items ← rows.mapM (collectItem P opts applied)
  pure (items.filterMap id)

/-! What has no record is only reported. -/

def stripSuffix (fname suffix : String) : Option String :=
  if endsWith suffix fname then
    some (String.ofList (fname.toList.take (fname.length - suffix.length)))
  else none

def instanceBaseName (fname : String) : Option String :=
  let base := ((stripSuffix fname ".log.1").or (stripSuffix fname ".log")).getD fname
  if base = "" then none else some base

/-- The name under which a path is reported, if nothing has a record there. -/
def orphanBase (P : CtlPaths) (path : PathBuf) : GcOp (Option (String × PathBuf)) := do
  let fname := fileName path
  if fname.toList.head? = some '.' ∨ endsWith ".json" fname then pure none
  else match instanceBaseName fname with
    | none => pure none
    | some base =>
      match P.recordPath base with
      | .error _ => pure (some (base, path))
      | .ok record =>
        let there ← act (.exist record)
        pure (if there then none else some (base, path))

def u64Max : ℕ := 18446744073709551615

def orphanData (P : CtlPaths) : GcM (List OrphanData) := do
  let paths ← readInstancesDir P
  let found ← (paths.mapM (orphanBase P) : GcOp _)
  let found := found.filterMap id
  let names := (found.map Prod.fst).dedup.mergeSort fun a b => a ≤ b
  names.mapM fun name => do
    let group := (found.filter fun e => e.1 = name).map Prod.snd
    let sizes ← group.mapM measure
    let bytes := (sizes.filterMap id).foldl (fun sum t => min (sum + t.bytes) u64Max) 0
    pure ⟨name, group, bytes⟩

/-- Deletions hold the lock of the directory. -/
def purge (P : CtlPaths) (opts : GcOpts) (applied : Bool) : GcM GcPlan := do
  if applied then ExceptT.mk (act .lock)
  let orphans ← orphanData P
  let items ← collectItems P opts applied
  pure ⟨items, orphans⟩

/-! The directory. -/

structure Entry where
  path : PathBuf
  isDir : Bool
  len : ℕ := 0
  record : Option InstanceRecord := none

structure GcWorld where
  entries : Table Entry.path
  facts : InstanceRecord → Facts
  removed : List PathBuf

/-- What the system answers beyond what the directory determines. -/
structure GcChoice where
  lock : Except CtlError Unit := .ok ()
  fail : Option String := none
  listed : PathBuf → Bool := fun _ => true
  bytes : ℕ := 0
  modified : ℕ := 0
  now : ℕ := 0

instance : Inhabited GcChoice := ⟨{}⟩

def orFail {α : Type} (c : GcChoice) (x : α) : Except String α :=
  match c.fail with
  | some e => .error e
  | none => .ok x

/-- A removal that fails may have removed a part of what is below the path. -/
def exec (P : CtlPaths) (a : GcAct) (w : GcWorld) (c : GcChoice) : a.Res × GcWorld :=
  match a with
  | .lock => (c.lock, w)
  | .readDir => (orFail c ((w.entries.rows.map Entry.path).filter fun p =>
      p.dropLast = P.instancesDir && c.listed p), w)
  | .symlinkMetadata path => (orFail c ((w.entries.lookup path).map fun e => ⟨e.isDir, e.len⟩), w)
  | .dirBytes _ => (c.bytes, w)
  | .readOptional path => ((orFail c ()).toOption.bind fun _ =>
      (w.entries.lookup path).bind fun e => if e.isDir then none else e.record, w)
  | .observe rec => (w.facts rec, w)
  | .modified path => ((orFail c ()).toOption.bind fun _ =>
      (w.entries.lookup path).map fun _ => c.modified, w)
  | .now => (c.now, w)
  | .exist path => (c.fail.isNone && (w.entries.lookup path).isSome, w)
  | .remove path _ =>
    match orFail c () with
    | .error e => (.error e, { w with removed := w.removed ++ [path] })
    | .ok _ => (.ok (), { w with
        entries := w.entries.deleteWhere fun e => path.isPrefixOf e.path
        removed := w.removed ++ [path] })

/-! The instances of a state directory, and what belongs to each. -/

/-- Every record lies where its name says. -/
structure StateDir (P : CtlPaths) where
  entries : Table Entry.path
  facts : InstanceRecord → Facts
  named : ∀ e ∈ entries.rows, ∀ rec, e.record = some rec → e.path.dropLast = P.instancesDir →
    P.recordPath rec.name = .ok e.path

def dataPaths (P : CtlPaths) (name : String) : List PathBuf :=
  [P.instanceHome name, P.logPath name, rotatedPath (P.logPath name)]

def instancePaths (P : CtlPaths) (name : String) : List PathBuf :=
  (P.instancesDir ++ [name ++ ".json"]) :: dataPaths P name

namespace StateDir

variable {P : CtlPaths} (d : StateDir P)

def world : GcWorld := ⟨d.entries, d.facts, []⟩

def Instance (rec : InstanceRecord) : Prop :=
  ∃ e ∈ d.entries.rows, e.isDir = false ∧ e.record = some rec ∧ P.recordPath rec.name = .ok e.path

def row (rec : InstanceRecord) : Row := (rec, probeOf rec (d.facts rec))

/-- The instance is stopped and has no process. -/
def Collectable (rec : InstanceRecord) : Prop :=
  d.Instance rec ∧ (d.row rec).2.observed.isPrunable = true ∧
    (d.row rec).2.processIsLiveAndOurs = false

def Has (path : PathBuf) : Prop := ∃ e ∈ d.entries.rows, e.path = path

/-- Every path that was removed belongs to an instance that is stopped, and neither is a path of
another instance nor lies below one. -/
def OnlyOwnData (removed : List PathBuf) : Prop :=
  ∀ p ∈ removed, ∃ rec, d.Collectable rec ∧ p ∈ dataPaths P rec.name ∧
    ∀ other, d.Instance other → other.name ≠ rec.name →
      ∀ q ∈ instancePaths P other.name, ¬ q <+: p

/-- No instance that is stopped is called like the record, the log or the rotated log of another,
with a home that would be deleted; and none is called like the log or the rotated log of an
instance that is stopped, with that path there. -/
def NamesApart (keepData : Bool) : Prop :=
  ∀ rec other, d.Collectable rec → d.Instance other →
    (keepData = false → d.Has (P.instanceHome rec.name) →
      rec.name ≠ other.name ++ ".json" ∧ rec.name ≠ other.name ++ ".log" ∧
        rec.name ≠ other.name ++ ".log.1") ∧
    (d.Has (P.logPath rec.name) → other.name ≠ rec.name ++ ".log") ∧
    (d.Has (rotatedPath (P.logPath rec.name)) → other.name ≠ rec.name ++ ".log.1")

end StateDir

end CrabMate.Ctl.Gc
