import CrabMate.Lib.Run
import CrabMate.Files.Revision

/-! One turn over the files: `read_file` and `modify_file` calls in steps that interleave with each
other and with changes made by anyone else. A read goes through the opened file twice: for the
revision, and for the page. -/
namespace CrabMate
open List Option

open RustStr (Str)

/-- What the stages around the revision check compute: the digest of the `sha2` crate, the page
`read_file` renders with the revision in its head and the content an edit makes from that of the
target, where it can be read. The lines of a page are counted, where that is asked for, in the file
that is at the path by then. -/
structure FileApi where
  sha256 : FileBytes → FileBytes
  parseReadFileArgs : JsonValue → Except String Unit
  emptyFilePage : JsonValue → String → Str → String
  readFilePage : JsonValue → String → Str → FileBytes → Option FileBytes → Except String String
  editedBytes : JsonValue → String → Option FileBytes → Except String FileBytes

/-! Arguments. -/

def readFileLogicalCacheKey (canonical : String) (v : JsonValue) : String :=
  let first := ((v.get? "start_line").bind JsonValue.asU64?).getD 1
  let last := (v.get? "end_line").bind JsonValue.asU64?
  -- Bounds given the wrong way round are swapped.
  let startLine := (last.filter (· < first)).getD first
  let endLine := last.map fun e => if e < first then first else e
  let maxLines := ((v.get? "max_lines").bind JsonValue.asU64?).getD 500
  let countTotal := ((v.get? "count_total_lines").bind JsonValue.asBool?).getD false
  let enc := (((v.get? "encoding").bind JsonValue.asStr?).map RustStr.trimString).filter (· ≠ "")
  canonical ++ "|sl=" ++ toString startLine ++ "|el=" ++ (endLine.map toString).getD "none" ++
    "|ml=" ++ toString maxLines ++ "|ct=" ++ toString countTotal ++ "|enc=" ++ enc.getD "utf-8"

def modifyFilePathArg (v : JsonValue) : Option String :=
  (((v.get? "path").bind JsonValue.asStr?).map RustStr.trimString).filter (· ≠ "")

/-- The mode, where it is not given by the line arguments present. No mode name has a letter that
a non-ASCII character lowers to. -/
def modifyFileModeArg (v : JsonValue) : String :=
  match (v.get? "mode").bind JsonValue.asStr? with
  | some s => (RustStr.trimString s).toLower
  | none =>
    if (v.get? "start_line").isSome || (v.get? "end_line").isSome then "replace_lines"
    else if (v.get? "after_line").isSome then "insert_after_line"
    else "full"

def dryRunArg (v : JsonValue) : Bool := ((v.get? "dry_run").bind JsonValue.asBool?).getD true

def isLocalMode (mode : String) : Bool :=
  mode = "replace_lines" || mode = "lines" || mode = "replacelines" || mode = "insert_after_line"

def isFullMode (mode : String) : Bool := mode = "full" || mode = "overwrite" || mode = ""

/-- The calls that depend on line numbers. -/
def modifyFileAutoBindRevision (v : JsonValue) (mode : String) : Bool :=
  (v.get? "edits").isSome || isLocalMode mode

/-! State. -/

/-- How far a read is. `snapshot` is the content the page shows. -/
inductive ReadPhase where
  | opened
  | hashed (revision : Str)
  | ready (output : String) (revision : Str) (snapshot : FileBytes) (cached : Bool)
  | finished
  deriving DecidableEq

/-- `empty` and `stamp` are from the metadata of the opening. `handle` is the content behind the
opened handle; it stays `attached` until another file takes the place at the path. -/
structure ReadCall where
  args : JsonValue
  target : String
  key : String
  stamp : FileStamp
  empty : Bool
  handle : FileBytes
  attached : Bool
  phase : ReadPhase
  deriving DecidableEq

/-- The handle is still to be read. -/
def ReadCall.inProgress (r : ReadCall) : Bool :=
  match r.phase with
  | .opened | .hashed _ => true
  | _ => false

/-- What a write of a path does to an open read of it: a write in place shows behind the handle,
another file that takes the place does not. -/
def ReadCall.afterWrite (path : String) (bytes : FileBytes) (inPlace : Bool) (r : ReadCall) :
    ReadCall :=
  if r.target = path ∧ r.attached = true then
    if inPlace then { r with handle := bytes } else { r with attached := false }
  else r

inductive ModifyOutcome where
  | rejected (e : RevisionError)
  | failed
  | preview
  | written
  deriving DecidableEq

inductive ModifyPhase where
  | checked
  | prepared (tmp : FileBytes)
  | finished (outcome : ModifyOutcome)
  deriving DecidableEq

structure ModifyCall where
  args : JsonValue
  target : String
  phase : ModifyPhase
  deriving DecidableEq

structure SeenContent where
  path : String
  bytes : FileBytes
  deriving DecidableEq

/-- The files, the cache of the turn (none where the host passes none) and the calls so far.
`seen` is the content shown by the last `read_file` of each path. -/
structure FileTurn where
  disk : FileTable
  cache : Option ReadFileTurnCache
  reads : List ReadCall
  writes : List ModifyCall
  seen : Table SeenContent.path
  deriving DecidableEq

/-- How replacing the target ends: the rename happens or fails; a file with several links is written
back in place, which may also stop halfway. -/
inductive CommitIo where
  | replaced (stamp : FileStamp) (inPlace : Bool)
  | failed
  | torn (left : FileBytes) (stamp : FileStamp)
  deriving DecidableEq

/-- `resolved` is where the path argument leads when the call is made. -/
inductive FileOp where
  | externalChange (path : String) (file : Option (FileBytes × FileStamp)) (inPlace : Bool)
  | openRead (v : JsonValue) (resolved : Option String)
  | hashRead (call : ℕ)
  | renderRead (call : ℕ)
  | finishRead (call : ℕ)
  | startModify (v : JsonValue) (resolved : Option String)
  | buildTmp (call : ℕ)
  | commit (call : ℕ) (io : CommitIo)
  | clearCache
  deriving DecidableEq

namespace FileTurn

def start (disk : FileTable) (cacheMaxEntries : Option ℕ) : FileTurn :=
  ⟨disk, cacheMaxEntries.map ReadFileTurnCache.new, [], [], Table.empty⟩

variable (api : FileApi)

/-! Reading. -/

/-- The call with the cached page while the stamp is the same, else with the opened handle. -/
def openedRead (s : FileTurn) (v : JsonValue) (file : DiskFile) : ReadCall :=
  let key := readFileLogicalCacheKey file.path v
  ⟨v, file.path, key, file.stamp, file.bytes.isEmpty, file.bytes, true,
    match s.cache.bind fun c => c.tryGet key file.stamp with
    | some e => .ready e.output e.revision e.snapshot true
    | none => .opened⟩

def openRead (s : FileTurn) (v : JsonValue) (resolved : Option String) : FileTurn :=
  match api.parseReadFileArgs v, resolved.bind s.disk.lookup with
  | .ok _, some file => { s with reads := s.reads ++ [s.openedRead v file] }
  | _, _ => s

/-- The first pass over the handle. -/
def hashedPhase (r : ReadCall) : ReadPhase :=
  match r.phase with
  | .opened => .hashed (revisionOf api.sha256 r.handle)
  | phase => phase

/-- The second pass over the handle. -/
def renderedPhase (s : FileTurn) (r : ReadCall) : ReadPhase :=
  match r.phase with
  | .hashed revision =>
    if r.empty then .ready (api.emptyFilePage r.args r.target revision) revision [] false
    else
      let counted := (s.disk.lookup r.target).map DiskFile.bytes
      match api.readFilePage r.args r.target revision r.handle counted with
      | .error _ => .finished
      | .ok output => .ready output revision r.handle false
  | phase => phase

def advanceRead (s : FileTurn) (i : ℕ) (next : ReadCall → ReadPhase) : FileTurn :=
  match s.reads[i]? with
  | none => s
  | some r => { s with reads := s.reads.set i { r with phase := next r } }

/-- The binding is recorded for a cached page too; a rendered page is then stored. -/
def cacheAfterRead (c : ReadFileTurnCache) (r : ReadCall) (output : String) (revision : Str)
    (snapshot : FileBytes) (cached : Bool) : ReadFileTurnCache :=
  let c := c.recordRevision r.target revision
  if cached then c else c.insert ⟨r.key, r.stamp, output, revision, snapshot⟩

def finishRead (s : FileTurn) (i : ℕ) : FileTurn :=
  match s.reads[i]? with
  | none => s
  | some r =>
    match r.phase with
    | .ready output revision snapshot cached =>
      { s with
        cache := s.cache.map fun c => cacheAfterRead c r output revision snapshot cached
        reads := s.reads.set i { r with phase := .finished }
        seen := s.seen.put ⟨r.target, snapshot⟩ }
    | _ => s

/-! Writing. -/

def startModify (s : FileTurn) (v : JsonValue) (resolved : Option String) : FileTurn :=
  let begin (target : String) (phase : ModifyPhase) : FileTurn :=
    { s with writes := s.writes ++ [⟨v, target, phase⟩] }
  match modifyFilePathArg v, resolved with
  | some _, some target =>
    if (s.disk.lookup target).isNone then begin target (.finished .failed)
    else
      let autoBind := !dryRunArg v && modifyFileAutoBindRevision v (modifyFileModeArg v)
      match FileRevision.verifyWriteRevision api.sha256 v s.disk target s.cache autoBind with
      | .error e => begin target (.finished (.rejected e))
      | .ok () => begin target .checked
  | _, _ => begin "" (.finished .failed)

/-- The edit is made into a temporary file from the content the target has by then. -/
def builtPhase (s : FileTurn) (c : ModifyCall) : ModifyPhase :=
  let mode := modifyFileModeArg c.args
  if !((c.args.get? "edits").isSome || isLocalMode mode || isFullMode mode) then .finished .failed
  else
    match api.editedBytes c.args c.target ((s.disk.lookup c.target).map DiskFile.bytes) with
    | .error _ => .finished .failed
    | .ok tmp => if dryRunArg c.args then .finished .preview else .prepared tmp

def setPhase (s : FileTurn) (i : ℕ) (c : ModifyCall) (phase : ModifyPhase) : FileTurn :=
  { s with writes := s.writes.set i { c with phase := phase } }

def buildTmp (s : FileTurn) (i : ℕ) : FileTurn :=
  match s.writes[i]? with
  | some c => if c.phase = .checked then s.setPhase i c (builtPhase api s c) else s
  | none => s

def putFile (s : FileTurn) (path : String) (bytes : FileBytes) (stamp : FileStamp)
    (inPlace : Bool) : FileTurn :=
  { s with
    disk := s.disk.put ⟨path, bytes, stamp⟩
    reads := s.reads.map (ReadCall.afterWrite path bytes inPlace) }

/-- `commit_tmp_with_revision_guard`: line-based calls bind to the last read once more; the check
and the replacement are one step. -/
def commit (s : FileTurn) (i : ℕ) (io : CommitIo) : FileTurn :=
  match s.writes[i]? with
  | none => s
  | some c =>
    match c.phase with
    | .prepared tmp =>
      let autoBind := modifyFileAutoBindRevision c.args (modifyFileModeArg c.args)
      match
        FileRevision.verifyWriteRevision api.sha256 c.args s.disk c.target s.cache autoBind, io with
      | .error e, _ => s.setPhase i c (.finished (.rejected e))
      | .ok (), .replaced stamp inPlace =>
        (s.setPhase i c (.finished .written)).putFile c.target tmp stamp inPlace
      | .ok (), .failed => s.setPhase i c (.finished .failed)
      | .ok (), .torn left stamp =>
        (s.setPhase i c (.finished .failed)).putFile c.target left stamp true
    | _ => s

def externalChange (s : FileTurn) (path : String) (file : Option (FileBytes × FileStamp))
    (inPlace : Bool) : FileTurn :=
  match file with
  | none =>
    { s with
      disk := s.disk.deleteWhere fun f => f.path = path
      reads := s.reads.map (ReadCall.afterWrite path [] false) }
  | some (bytes, stamp) => s.putFile path bytes stamp inPlace

def step (s : FileTurn) : FileOp → FileTurn
  | .externalChange path file inPlace => s.externalChange path file inPlace
  | .openRead v resolved => s.openRead api v resolved
  | .hashRead i => s.advanceRead i (hashedPhase api)
  | .renderRead i => s.advanceRead i (s.renderedPhase api)
  | .finishRead i => s.finishRead i
  | .startModify v resolved => s.startModify api v resolved
  | .buildTmp i => s.buildTmp api i
  | .commit i io => s.commit api i io
  | .clearCache => { s with cache := s.cache.map ReadFileTurnCache.clear }

def run (s : FileTurn) (ops : List FileOp) : FileTurn := Run.run (step api) s ops

/-! What a step can do. -/

/-- The step belongs to the `modify_file` call with this number. -/
def actsFor (s : FileTurn) (i : ℕ) : FileOp → Bool
  | .startModify _ _ => i = s.writes.length
  | .buildTmp j => j = i
  | .commit j _ => j = i
  | _ => false

/-- No read is to go on behind a handle on the file at the path. -/
def Unread (s : FileTurn) (path : String) : Prop :=
  ∀ r ∈ s.reads, r.target = path → r.attached = true → r.inProgress = false

/-- Nothing is written in place to a file that a read has opened and is not through with. -/
def Undisturbed (s : FileTurn) : FileOp → Prop
  | .externalChange path (some _) true => s.Unread path
  | .commit i (.replaced _ true) | .commit i (.torn _ _) => ∀ c ∈ s.writes[i]?, s.Unread c.target
  | _ => True

instance (s : FileTurn) (path : String) : Decidable (s.Unread path) :=
  inferInstanceAs (Decidable (∀ r ∈ _, _ → _ → _))

instance (s : FileTurn) (op : FileOp) : Decidable (s.Undisturbed op) := by
  unfold Undisturbed
  split <;> infer_instance

theorem startModify_cases (s : FileTurn) (v : JsonValue) (resolved : Option String) :
    ∃ target phase, s.startModify api v resolved =
      { s with writes := s.writes ++ [⟨v, target, phase⟩] } := by
  simp only [startModify]
  repeat' split
  all_goals exact ⟨_, _, rfl⟩

theorem buildTmp_cases (s : FileTurn) (i : ℕ) :
    s.buildTmp api i = s ∨ ∃ c phase, s.writes[i]? = some c ∧ c.phase = .checked ∧
      s.buildTmp api i = s.setPhase i c phase := by
  unfold buildTmp
  split
  · next c hc =>
    by_cases hchecked : c.phase = .checked
    · rw [if_pos hchecked]
      exact .inr ⟨c, _, hc, hchecked, rfl⟩
    · rw [if_neg hchecked]
      exact .inl rfl
  · exact .inl rfl

/-- A commit settles a prepared call; it replaces the target only where the check has passed, and
then the call is not rejected. -/
theorem commit_cases (s : FileTurn) (i : ℕ) (io : CommitIo) :
    s.commit api i io = s ∨
    ∃ c tmp outcome, s.writes[i]? = some c ∧ c.phase = .prepared tmp ∧
      (s.commit api i io = s.setPhase i c (.finished outcome) ∨
        ∃ bytes stamp inPlace, (∀ e, outcome ≠ .rejected e) ∧
          (inPlace = true → s.Undisturbed (.commit i io) → s.Unread c.target) ∧
          FileRevision.verifyWriteRevision api.sha256 c.args s.disk c.target s.cache
            (modifyFileAutoBindRevision c.args (modifyFileModeArg c.args)) = .ok () ∧
          s.commit api i io =
            (s.setPhase i c (.finished outcome)).putFile c.target bytes stamp inPlace) := by
  unfold commit
  split
  · exact .inl rfl
  · next c hc =>
    split
    · next tmp hphase =>
      right
      dsimp only
      cases hok : FileRevision.verifyWriteRevision api.sha256 c.args s.disk c.target s.cache
        (modifyFileAutoBindRevision c.args (modifyFileModeArg c.args)) with
      | error e => exact ⟨c, tmp, _, hc, hphase, .inl rfl⟩
      | ok =>
        cases io with
        | replaced stamp inPlace =>
          refine ⟨c, tmp, .written, hc, hphase, .inr ⟨_, _, inPlace, by simp, ?_, hok, rfl⟩⟩
          rintro rfl hundisturbed
          exact hundisturbed c hc
        | failed => exact ⟨c, tmp, _, hc, hphase, .inl rfl⟩
        | torn left stamp =>
          exact ⟨c, tmp, .failed, hc, hphase, .inr ⟨_, _, true, by simp, fun _ h => h c hc, hok,
            rfl⟩⟩
    · exact .inl rfl

/-! Bindings are revisions of seen contents. -/

/-- What has been read so far is of one content. -/
def SoundRead (r : ReadCall) : Prop :=
  match r.phase with
  | .opened => r.empty = true → r.handle = []
  | .hashed revision => (r.empty = true → r.handle = []) ∧ revision = revisionOf api.sha256 r.handle
  | .ready _ revision snapshot _ => revision = revisionOf api.sha256 snapshot
  | .finished => True

structure Bound (s : FileTurn) : Prop where
  reads : ∀ r ∈ s.reads, SoundRead api r
  pages : ∀ c, s.cache = some c → ∀ e ∈ c.map.rows, e.revision = revisionOf api.sha256 e.snapshot
  bindings : ∀ c, s.cache = some c → ∀ p r, c.lastReadRevision p = some r →
    ∃ seen, s.seen.lookup p = some seen ∧ r = revisionOf api.sha256 seen.bytes

variable {api}

theorem bound_start (disk : FileTable) (cacheMaxEntries : Option ℕ) :
    Bound api (start disk cacheMaxEntries) := by
  refine ⟨fun r hr => absurd hr (by simp [start]), ?_, ?_⟩
  · intro c hc e he
    obtain ⟨n, -, rfl⟩ := map_eq_some_iff.mp hc
    exact absurd he (by simp [ReadFileTurnCache.new])
  · intro c hc p r hr
    obtain ⟨n, -, rfl⟩ := map_eq_some_iff.mp hc
    exact absurd hr (by simp [ReadFileTurnCache.new, ReadFileTurnCache.lastReadRevision])

/-- A write in place is not seen by a read that is through with its handle. -/
theorem sound_afterWrite {r : ReadCall} (h : SoundRead api r) {path : String}
    {inPlace : Bool} (bytes : FileBytes)
    (hunread : inPlace = true → r.target = path → r.attached = true → r.inProgress = false) :
    SoundRead api (r.afterWrite path bytes inPlace) := by
  unfold ReadCall.afterWrite
  split
  · next hopen =>
    cases inPlace with
    | false => exact h
    | true =>
      have hdone := hunread rfl hopen.1 hopen.2
      rw [if_pos rfl]
      unfold ReadCall.inProgress at hdone
      unfold SoundRead at h ⊢
      cases hphase : r.phase with
      | opened => simp [hphase] at hdone
      | hashed revision => simp [hphase] at hdone
      | ready output revision snapshot cached => simpa only [hphase] using h
      | finished => trivial
  · exact h

theorem Bound.putFile {s : FileTurn} (h : Bound api s) {path : String} {inPlace : Bool}
    (hunread : inPlace = true → s.Unread path) (bytes : FileBytes) (stamp : FileStamp) :
    Bound api (s.putFile path bytes stamp inPlace) := by
  refine ⟨fun r hr => ?_, h.pages, h.bindings⟩
  obtain ⟨r₀, hr₀, rfl⟩ := List.mem_map.mp hr
  exact sound_afterWrite (h.reads r₀ hr₀) bytes fun hin => hunread hin r₀ hr₀

theorem Bound.openedRead {s : FileTurn} (h : Bound api s) (v : JsonValue) (file : DiskFile) :
    SoundRead api (s.openedRead v file) := by
  unfold FileTurn.openedRead SoundRead
  dsimp only
  cases hget : s.cache.bind fun c =>
    c.tryGet (readFileLogicalCacheKey file.path v) file.stamp with
  | none => exact List.isEmpty_iff.mp
  | some e =>
    obtain ⟨c, hc, hget⟩ := bind_eq_some_iff.mp hget
    unfold ReadFileTurnCache.tryGet at hget
    split at hget
    · have hlookup := (filter_eq_some_iff.mp hget).1
      exact h.pages c hc e (Table.lookup_eq_some_iff.mp hlookup).1
    · cases hget

theorem Bound.openRead {s : FileTurn} (h : Bound api s) (v : JsonValue)
    (resolved : Option String) : Bound api (s.openRead api v resolved) := by
  unfold FileTurn.openRead
  split
  · refine ⟨?_, h.pages, h.bindings⟩
    intro r hr
    obtain hr | hr := mem_append.mp hr
    · exact h.reads r hr
    · obtain rfl := mem_singleton.mp hr
      exact h.openedRead v _
  · exact h

theorem Bound.advanceRead {s : FileTurn} (h : Bound api s) (i : ℕ) {next : ReadCall → ReadPhase}
    (hnext : ∀ r, SoundRead api r → SoundRead api { r with phase := next r }) :
    Bound api (s.advanceRead i next) := by
  unfold FileTurn.advanceRead
  split
  · exact h
  · next r hr =>
    refine ⟨fun q hq => ?_, h.pages, h.bindings⟩
    obtain hq | rfl := mem_or_eq_of_mem_set hq
    · exact h.reads q hq
    · exact hnext r (h.reads r (mem_of_getElem? hr))

theorem sound_hashed {r : ReadCall} (h : SoundRead api r) :
    SoundRead api { r with phase := hashedPhase api r } := by
  cases hphase : r.phase <;> simp only [SoundRead, hashedPhase, hphase] at h ⊢
  · exact ⟨h, trivial⟩
  · exact h
  · exact h

theorem sound_rendered (s : FileTurn) {r : ReadCall} (h : SoundRead api r) :
    SoundRead api { r with phase := s.renderedPhase api r } := by
  cases hphase : r.phase <;> simp only [SoundRead, renderedPhase, hphase] at h ⊢
  · exact h
  · obtain ⟨hempty, hrevision⟩ := h
    cases hemp : r.empty with
    | true => rw [if_pos rfl, hrevision, hempty hemp]
    | false =>
      rw [if_neg Bool.false_ne_true]
      cases api.readFilePage r.args r.target _ r.handle _ with
      | error _ => trivial
      | ok output => exact hrevision
  · exact h

theorem Bound.finishRead {s : FileTurn} (h : Bound api s) (i : ℕ) :
    Bound api (s.finishRead i) := by
  unfold FileTurn.finishRead
  split
  · exact h
  · next r hr =>
    split
    · next output revision snapshot cached hphase =>
      have hrev : revision = revisionOf api.sha256 snapshot := by
        have hsound := h.reads r (mem_of_getElem? hr)
        rwa [SoundRead, hphase] at hsound
      refine ⟨?_, ?_, ?_⟩
      · intro q hq
        obtain hq | rfl := mem_or_eq_of_mem_set hq
        · exact h.reads q hq
        · trivial
      · intro c hc e he
        obtain ⟨c₀, hc₀, rfl⟩ := map_eq_some_iff.mp hc
        unfold cacheAfterRead at he
        dsimp only at he
        split at he
        · exact h.pages c₀ hc₀ e he
        · obtain rfl | he := ReadFileTurnCache.mem_rows_insert he
          · exact hrev
          · exact h.pages c₀ hc₀ e he
      · intro c hc p rev hp
        obtain ⟨c₀, hc₀, rfl⟩ := map_eq_some_iff.mp hc
        have hrecord : (c₀.recordRevision r.target revision).lastReadRevision p = some rev := by
          unfold cacheAfterRead at hp
          dsimp only at hp
          split at hp
          · exact hp
          · rwa [ReadFileTurnCache.lastReadRevision_insert] at hp
        obtain ⟨rfl, rfl⟩ | ⟨hne, hold⟩ :=
          ReadFileTurnCache.lastReadRevision_recordRevision hrecord
        · exact ⟨⟨r.target, snapshot⟩, Table.lookup_put_self _ _, hrev⟩
        · obtain ⟨seen, hseen, hrev'⟩ := h.bindings c₀ hc₀ p rev hold
          have hother : (⟨r.target, snapshot⟩ : SeenContent).path ≠ p := Ne.symm hne
          exact ⟨seen, (Table.lookup_put_of_ne s.seen hother).trans hseen, hrev'⟩
    · exact h

theorem Bound.step {s : FileTurn} (h : Bound api s) (op : FileOp) (hop : s.Undisturbed op) :
    Bound api (s.step api op) := by
  cases op with
  | externalChange path file inPlace =>
    cases file with
    | none =>
      refine ⟨fun r hr => ?_, h.pages, h.bindings⟩
      obtain ⟨r₀, hr₀, rfl⟩ := List.mem_map.mp hr
      exact sound_afterWrite (h.reads r₀ hr₀) [] fun hin => by cases hin
    | some file =>
      refine h.putFile ?_ file.1 file.2
      rintro rfl
      exact hop
  | openRead v resolved => exact h.openRead v resolved
  | hashRead i => exact h.advanceRead i fun _ => sound_hashed
  | renderRead i => exact h.advanceRead i fun _ => sound_rendered s
  | finishRead i => exact h.finishRead i
  | startModify v resolved =>
    obtain ⟨target, phase, heq⟩ := startModify_cases api s v resolved
    rw [FileTurn.step, heq]
    exact ⟨h.reads, h.pages, h.bindings⟩
  | buildTmp i =>
    rw [FileTurn.step]
    obtain heq | ⟨c, phase, -, -, heq⟩ := buildTmp_cases api s i
    · rwa [heq]
    · rw [heq]
      exact ⟨h.reads, h.pages, h.bindings⟩
  | commit i io =>
    rw [FileTurn.step]
    obtain heq | ⟨c, tmp, outcome, -, -, heq | ⟨bytes, stamp, inPlace, -, hunread, -, heq⟩⟩ :=
      commit_cases api s i io
    · rwa [heq]
    · rw [heq]
      exact ⟨h.reads, h.pages, h.bindings⟩
    · rw [heq]
      have hset : Bound api (s.setPhase i c (.finished outcome)) :=
        ⟨h.reads, h.pages, h.bindings⟩
      exact hset.putFile (fun hin => hunread hin hop) bytes stamp
  | clearCache =>
    refine ⟨h.reads, ?_, ?_⟩
    · intro c hc e he
      obtain ⟨c₀, -, rfl⟩ := map_eq_some_iff.mp hc
      exact absurd he (by simp [ReadFileTurnCache.clear])
    · intro c hc p r hr
      obtain ⟨c₀, hc₀, rfl⟩ := map_eq_some_iff.mp hc
      exact h.bindings c₀ hc₀ p r hr

theorem bound_run (disk : FileTable) (cacheMaxEntries : Option ℕ) {ops : List FileOp}
    (hops : Run.AllOk (step api) Undisturbed (start disk cacheMaxEntries) ops) :
    Bound api ((start disk cacheMaxEntries).run api ops) :=
  Run.invariant (fun _ op h hop => h.step op hop) (bound_start disk cacheMaxEntries) hops

/-! Calls keep their arguments, and a finished call stays as it is. -/

structure Persists (s s' : FileTurn) : Prop where
  calls : ∀ (i : ℕ) (c : ModifyCall), s.writes[i]? = some c →
    ∃ c' : ModifyCall, s'.writes[i]? = some c' ∧ c'.args = c.args ∧ c'.target = c.target ∧
      ∀ outcome, c.phase = .finished outcome → c'.phase = .finished outcome

theorem Persists.refl (s : FileTurn) : Persists s s :=
  ⟨fun _ c hc => ⟨c, hc, rfl, rfl, fun _ h => h⟩⟩

theorem Persists.trans {s t u : FileTurn} (hst : Persists s t) (htu : Persists t u) :
    Persists s u := by
  refine ⟨fun i c hc => ?_⟩
  obtain ⟨c₁, hc₁, hargs₁, htarget₁, hphase₁⟩ := hst.calls i c hc
  obtain ⟨c₂, hc₂, hargs₂, htarget₂, hphase₂⟩ := htu.calls i c₁ hc₁
  exact ⟨c₂, hc₂, hargs₂.trans hargs₁, htarget₂.trans htarget₁,
    fun outcome h => hphase₂ outcome (hphase₁ outcome h)⟩

theorem Persists.of_writes_eq {s s' : FileTurn} (h : s'.writes = s.writes) : Persists s s' :=
  ⟨fun _ c hc => ⟨c, h ▸ hc, rfl, rfl, fun _ hphase => hphase⟩⟩

theorem persists_setPhase {s : FileTurn} {i : ℕ} {c : ModifyCall} (hc : s.writes[i]? = some c)
    (hopen : ∀ outcome, c.phase ≠ .finished outcome) (phase : ModifyPhase) :
    Persists s (s.setPhase i c phase) := by
  refine ⟨fun j d hd => ?_⟩
  by_cases hij : i = j
  · subst hij
    obtain rfl : c = d := Option.some.inj (hc.symm.trans hd)
    have hi : i < s.writes.length := (List.getElem?_eq_some_iff.mp hc).1
    exact ⟨{ c with phase := phase }, getElem?_set_self hi, rfl, rfl,
      fun outcome h => absurd h (hopen outcome)⟩
  · exact ⟨d, (getElem?_set_ne hij).trans hd, rfl, rfl, fun _ h => h⟩

theorem persists_step (s : FileTurn) (op : FileOp) : Persists s (s.step api op) := by
  cases op with
  | externalChange path file inPlace =>
    cases file with
    | none => exact .of_writes_eq rfl
    | some file => exact .of_writes_eq rfl
  | hashRead i =>
    apply Persists.of_writes_eq
    simp only [step, FileTurn.advanceRead]
    split <;> rfl
  | renderRead i =>
    apply Persists.of_writes_eq
    simp only [step, FileTurn.advanceRead]
    split <;> rfl
  | openRead v resolved =>
    apply Persists.of_writes_eq
    simp only [step, FileTurn.openRead]
    split <;> rfl
  | finishRead i =>
    apply Persists.of_writes_eq
    simp only [step, FileTurn.finishRead]
    repeat' split
    all_goals rfl
  | startModify v resolved =>
    obtain ⟨target, phase, heq⟩ := startModify_cases api s v resolved
    rw [step, heq]
    refine ⟨fun i c hc => ⟨c, ?_, rfl, rfl, fun _ h => h⟩⟩
    exact (getElem?_append_left (List.getElem?_eq_some_iff.mp hc).1).trans hc
  | buildTmp i =>
    rw [step]
    obtain heq | ⟨c, phase, hc, hchecked, heq⟩ := buildTmp_cases api s i
    · rw [heq]
      exact .refl s
    · rw [heq]
      exact persists_setPhase hc (by simp [hchecked]) phase
  | commit i io =>
    rw [step]
    obtain heq | ⟨c, tmp, outcome, hc, hprep, heq | ⟨bytes, stamp, inPlace, -, -, -, heq⟩⟩ :=
      commit_cases api s i io
    · rw [heq]
      exact .refl s
    · rw [heq]
      exact persists_setPhase hc (by simp [hprep]) _
    · rw [heq]
      exact (persists_setPhase hc (by simp [hprep]) _).trans (.of_writes_eq rfl)
  | clearCache => exact .of_writes_eq rfl

theorem persists_run (s : FileTurn) (ops : List FileOp) : Persists s (s.run api ops) := by
  have hstep : ∀ (t : FileTurn) (op : FileOp), Persists s t → Persists s (t.step api op) :=
    fun t op h => h.trans (persists_step t op)
  exact Run.invariant' hstep (.refl s) ops

/-! Line-based writes. -/

/-- A step of a call that changes the disk is a commit that has passed the check; it replaces the
target of the call and finishes the call as one that is not rejected. -/
theorem disk_change_of_call {s : FileTurn} {i : ℕ} {op : FileOp} (hacts : s.actsFor i op)
    (hchange : (s.step api op).disk ≠ s.disk) :
    ∃ c outcome bytes stamp inPlace, s.writes[i]? = some c ∧ (∀ e, outcome ≠ .rejected e) ∧
      FileRevision.verifyWriteRevision api.sha256 c.args s.disk c.target s.cache
        (modifyFileAutoBindRevision c.args (modifyFileModeArg c.args)) = .ok () ∧
      s.step api op = (s.setPhase i c (.finished outcome)).putFile c.target bytes stamp
        inPlace := by
  cases op with
  | externalChange path file inPlace => simp [actsFor] at hacts
  | hashRead j => simp [actsFor] at hacts
  | renderRead j => simp [actsFor] at hacts
  | openRead v resolved => simp [actsFor] at hacts
  | finishRead j => simp [actsFor] at hacts
  | startModify v resolved =>
    obtain ⟨target, phase, heq⟩ := startModify_cases api s v resolved
    rw [step, heq] at hchange
    exact absurd rfl hchange
  | buildTmp j =>
    rw [step] at hchange
    obtain heq | ⟨c, phase, -, -, heq⟩ := buildTmp_cases api s j
    · exact absurd (by rw [heq]) hchange
    · exact absurd (by rw [heq]; rfl) hchange
  | commit j io =>
    have hji : j = i := by simpa [actsFor] using hacts
    subst hji
    rw [step] at hchange ⊢
    obtain heq | ⟨c, tmp, outcome, hc, -, heq | ⟨bytes, stamp, inPlace, hout, -, hok, heq⟩⟩ :=
      commit_cases api s j io
    · exact absurd (by rw [heq]) hchange
    · exact absurd (by rw [heq]; rfl) hchange
    · exact ⟨c, outcome, bytes, stamp, inPlace, hc, hout, hok, heq⟩
  | clearCache => simp [actsFor] at hacts

/-- Whatever reads, other writes and outside changes come between the steps of a line-based
`modify_file` without base revision or waiver: a step of it that changes a file changes its target.
It replaces there the content that the last `read_file` of that path has shown, if no file was
written in place while a read had it open; and a call that the revision check rejects changes
nothing in any of its steps. -/
theorem line_write_replaces_seen (hsha : Function.Injective api.sha256) (disk : FileTable)
    (cacheMaxEntries : Option ℕ) (before after : List FileOp) (op : FileOp) (i : ℕ)
    (call : ModifyCall)
    (hacts : ((start disk cacheMaxEntries).run api before).actsFor i op)
    (hcall : ((start disk cacheMaxEntries).run api (before ++ op :: after)).writes[i]? = some call)
    (hline : modifyFileAutoBindRevision call.args (modifyFileModeArg call.args) = true)
    (hbase : FileRevision.baseRevisionArg call.args = none)
    (hstale : FileRevision.allowStaleRevisionArg call.args = false) :
    let s := (start disk cacheMaxEntries).run api before
    let s' := s.step api op
    (∀ p, s'.disk.lookup p ≠ s.disk.lookup p → p = call.target ∧
      (Run.AllOk (step api) Undisturbed (start disk cacheMaxEntries) before →
        ∃ file seen, s.disk.lookup p = some file ∧ s.seen.lookup p = some seen ∧
          file.bytes = seen.bytes)) ∧
    ((∃ e, call.phase = .finished (.rejected e)) → s'.disk = s.disk) := by
  intro s s'
  have hrun : (start disk cacheMaxEntries).run api (before ++ op :: after) = s'.run api after := by
    rw [run, Run.run_append, Run.run_cons]
    rfl
  rw [hrun] at hcall
  by_cases hchange : s'.disk = s.disk
  · exact ⟨fun p hp => absurd (by rw [hchange]) hp, fun _ => hchange⟩
  obtain ⟨c, outcome, bytes, stamp, inPlace, hc, hout, hok, hstep⟩ :=
    disk_change_of_call hacts hchange
  -- The call of the final state is the one that commits here.
  have hi : i < s.writes.length := (List.getElem?_eq_some_iff.mp hc).1
  have hfinished : s'.writes[i]? = some { c with phase := .finished outcome } := by
    rw [show s' = _ from hstep]
    exact getElem?_set_self hi
  obtain ⟨c', hc', hargs, htarget, hphase⟩ := (persists_run s' after).calls i _ hfinished
  obtain rfl : c' = call := Option.some.inj (hc'.symm.trans hcall)
  rw [hargs] at hline hbase hstale
  rw [hline] at hok
  constructor
  · intro p hp
    have hpt : c.target = p := by
      by_contra hne
      apply hp
      rw [show s' = _ from hstep]
      exact Table.lookup_put_of_ne _ hne
    subst hpt
    refine ⟨htarget.symm, fun hbefore => ?_⟩
    obtain ⟨cache, expected, file, hcache, hlast, hfile, hrev⟩ :=
      FileRevision.verifyWriteRevision_bound api.sha256 hbase hstale hok
    obtain ⟨seen, hseen, rfl⟩ :=
      (bound_run disk cacheMaxEntries hbefore).bindings cache hcache _ _ hlast
    exact ⟨file, seen, hfile, hseen, (content_eq_of_revision_eq api.sha256 hsha hrev).symm⟩
  · rintro ⟨e, he⟩
    rw [hphase outcome rfl] at he
    injection he with he
    exact absurd he (hout e)

/-- A digest with the SHA-256 values of `a\n` and `b\n`. -/
def tabulatedSha256 (content : FileBytes) : FileBytes :=
  if content = [97, 10] then
    [135, 66, 143, 197, 34, 128, 61, 49, 6, 94, 123, 206, 60, 240, 63, 228, 117, 9, 102, 49, 229,
      224, 123, 189, 122, 15, 222, 96, 196, 207, 37, 199]
  else if content = [98, 10] then
    [2, 99, 130, 153, 137, 182, 253, 149, 79, 114, 186, 175, 47, 198, 75, 194, 226, 240, 29, 105,
      45, 77, 231, 41, 134, 234, 128, 143, 110, 153, 129, 63]
  else List.replicate 33 0 ++ content

theorem tabulatedSha256_injective : Function.Injective tabulatedSha256 := by
  have hlen : ∀ x : FileBytes, x ≠ [97, 10] → x ≠ [98, 10] →
      tabulatedSha256 x = List.replicate 33 0 ++ x ∧ 33 ≤ (tabulatedSha256 x).length := by
    intro x ha hb
    have heq : tabulatedSha256 x = List.replicate 33 0 ++ x := by simp [tabulatedSha256, ha, hb]
    exact ⟨heq, by simp [heq]⟩
  intro x y h
  by_cases hx : x = [97, 10] ∨ x = [98, 10]
  · by_cases hy : y = [97, 10] ∨ y = [98, 10]
    · obtain rfl | rfl := hx <;> obtain rfl | rfl := hy <;> first | rfl | exact absurd h (by decide)
    · have hlong := (hlen y (fun h => hy (.inl h)) fun h => hy (.inr h)).2
      rw [← h] at hlong
      obtain rfl | rfl := hx <;> exact absurd hlong (by decide)
  · have hx' := hlen x (fun h => hx (.inl h)) fun h => hx (.inr h)
    by_cases hy : y = [97, 10] ∨ y = [98, 10]
    · have hlong := hx'.2
      rw [h] at hlong
      obtain rfl | rfl := hy <;> exact absurd hlong (by decide)
    · have hy' := hlen y (fun h => hy (.inl h)) fun h => hy (.inr h)
      rw [hx'.1, hy'.1] at h
      exact append_cancel_left h

/-- The first line replaced by `b`. -/
def sampleApi : FileApi where
  sha256 := tabulatedSha256
  parseReadFileArgs _ := .ok ()
  emptyFilePage _ _ _ := ""
  readFilePage _ _ _ bytes _ := .ok (if bytes = [97, 10] then "1|a" else "1|x")
  editedBytes _ _ content :=
    match content with
    | some bytes => .ok ([98, 10] ++ (bytes.dropWhile (· ≠ 10)).drop 1)
    | none => .error "读取原文件失败"

def sampleStamp (n : ℕ) : FileStamp := ⟨n, 2, 1, n, n, 0⟩

def replaceFirstLine : JsonValue :=
  .obj [("path", .str "f.txt"), ("start_line", .num "1"), ("end_line", .num "1"),
    ("content", .str "b"), ("dry_run", .bool false)]

/-- A read, then two calls that replace the first line: both pass the first check, the second one
commits after the first. -/
def twoWriters : List FileOp :=
  [.openRead (.obj [("path", .str "f.txt")]) (some "/w/f.txt"), .hashRead 0, .renderRead 0,
    .finishRead 0, .startModify replaceFirstLine (some "/w/f.txt"),
    .startModify replaceFirstLine (some "/w/f.txt"), .buildTmp 0, .buildTmp 1]

def sampleDisk : FileTable := ⟨[⟨"/w/f.txt", [97, 10], sampleStamp 1⟩], nodup_singleton _⟩

/-- The first of two writers replaces the content read; the second is rejected and changes
nothing. -/
theorem line_write_replaces_seen_twoWriters :
    (let s := (start sampleDisk (some 64)).run sampleApi twoWriters
     let s' := s.step sampleApi (.commit 0 (.replaced (sampleStamp 2) false))
     s'.disk.lookup "/w/f.txt" ≠ s.disk.lookup "/w/f.txt" ∧
     ∀ p, s'.disk.lookup p ≠ s.disk.lookup p → p = "/w/f.txt" ∧
      ∃ file seen, s.disk.lookup p = some file ∧ s.seen.lookup p = some seen ∧
        file.bytes = seen.bytes) ∧
    (let t := (start sampleDisk (some 64)).run sampleApi
        (twoWriters ++ [.commit 0 (.replaced (sampleStamp 2) false)])
     (t.step sampleApi (.commit 1 (.replaced (sampleStamp 3) false))).disk = t.disk) := by
  have hsha : Function.Injective sampleApi.sha256 := tabulatedSha256_injective
  have hquiet : Run.AllOk (step sampleApi) Undisturbed (start sampleDisk (some 64)) twoWriters := by
    decide +kernel
  constructor
  · refine ⟨by decide +kernel, fun p hp => ?_⟩
    have hchange := (line_write_replaces_seen hsha sampleDisk (some 64) twoWriters []
      (.commit 0 (.replaced (sampleStamp 2) false)) 0
      ⟨replaceFirstLine, "/w/f.txt", .finished .written⟩ (by decide +kernel) (by decide +kernel)
      (by decide +kernel) (by decide +kernel) (by decide +kernel)).1 p hp
    exact ⟨hchange.1, hchange.2 hquiet⟩
  · refine (line_write_replaces_seen hsha sampleDisk (some 64)
      (twoWriters ++ [.commit 0 (.replaced (sampleStamp 2) false)]) []
      (.commit 1 (.replaced (sampleStamp 3) false)) 1
      ⟨replaceFirstLine, "/w/f.txt", .finished (.rejected (.staleRevision "/w/f.txt" .turnRead
        (revisionOf tabulatedSha256 [97, 10]) (revisionOf tabulatedSha256 [98, 10])))⟩
      (by decide +kernel) (by decide +kernel) (by decide +kernel) (by decide +kernel)
      (by decide +kernel)).2 ?_
    exact ⟨_, rfl⟩

/-- The content `x` for the second pass of a read. -/
def changedForAPass : List FileOp :=
  [.openRead (.obj [("path", .str "f.txt")]) (some "/w/f.txt"), .hashRead 0,
    .externalChange "/w/f.txt" (some ([120, 10], sampleStamp 2)) true, .renderRead 0,
    .externalChange "/w/f.txt" (some ([97, 10], sampleStamp 3)) true, .finishRead 0,
    .startModify replaceFirstLine (some "/w/f.txt"), .buildTmp 0]

/-- The read shows `x` and binds the revision of `a`: the write that it lets through replaces a
content that was not shown. -/
theorem unseen_content_replaced :
    let s := (start sampleDisk (some 64)).run sampleApi changedForAPass
    let s' := s.step sampleApi (.commit 0 (.replaced (sampleStamp 4) false))
    s.seen.lookup "/w/f.txt" = some ⟨"/w/f.txt", [120, 10]⟩ ∧
      (s.disk.lookup "/w/f.txt").map DiskFile.bytes = some [97, 10] ∧
      (s'.disk.lookup "/w/f.txt").map DiskFile.bytes = some [98, 10] ∧
      s'.writes = [⟨replaceFirstLine, "/w/f.txt", .finished .written⟩] := by
  decide +kernel

end FileTurn

end CrabMate
