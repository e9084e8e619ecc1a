import CrabMate.Tools.Patch

/-! Unpacking zip and tar archives: selection of entries, component stripping, and the paths that
are created below the output directory. -/
namespace CrabMate
open RustStr LexPath List

inductive ArchiveFormat where
  | zip
  | tar
  deriving DecidableEq

/-- An entry as the archive reader hands it over. -/
structure ArchiveEntry where
  name : Str
  isDir : Bool
  content : Str

structure UnpackOptions where
  stripComponents : ℕ
  selectedFiles : List Str

/-- What the disk answers while an archive is unpacked; `copy` also fails when the content cannot
be read. -/
structure UnpackDisk (σ : Type) where
  createDirAll : σ → FsPath → Except Str σ
  createFile : σ → FsPath → Except Str σ
  copy : σ → FsPath → Str → Except Str σ

/-- `parents` are the directories made on the way to a file. -/
inductive Unpacked where
  | dir (path : FsPath)
  | parents (path : FsPath)
  | file (path : FsPath)
  deriving DecidableEq

/-- The path of an entry, or the output directory itself. -/
def Unpacked.outpath : Unpacked → Option FsPath
  | .dir path | .file path => some path
  | .parents _ => none

section Names

def stripArchivePath (path : FsPath) (stripComponents : ℕ) : Option FsPath :=
  let comps := path.filter fun c => c ≠ .curDir
  if comps.length ≤ stripComponents then none else some (comps.drop stripComponents)

def trimMatches (c : Char) (s : Str) : Str := (s.dropWhile fun x => x = c).rdropWhile fun x => x = c

def archiveEntrySelected (name : Str) (selectedFiles : List Str) : Bool :=
  if selectedFiles.isEmpty then true
  else
    let normalized := name.map fun c => if c = '\\' then '/' else c
    selectedFiles.any fun f =>
      let f := trimMatches '/' f
      normalized = f || startsWith (f ++ ['/']) normalized

/-- The part of an entry's path that is joined to the output directory. -/
def entryRel (opts : UnpackOptions) (name : Str) : Option FsPath :=
  if archiveEntrySelected name opts.selectedFiles then
    stripArchivePath (components name) opts.stripComponents
  else none

def zipMemberOutpath (name : Str) (opts : UnpackOptions) (output : List Str) : Option FsPath :=
  (entryRel opts name).map fun rel => join (absolute output) rel

def tarEntryOutpath (name : Str) (opts : UnpackOptions) (output : List Str) : Option FsPath :=
  (entryRel opts name).bind fun rel =>
    if rel.isEmpty then none else some (join (absolute output) rel)

def entryOutpath (format : ArchiveFormat) (name : Str) (opts : UnpackOptions)
    (output : List Str) : Option FsPath :=
  match format with
  | .zip => zipMemberOutpath name opts output
  | .tar => tarEntryOutpath name opts output

/-- What is left after stripping is never empty, so both formats use the same path. -/
theorem entryOutpath_eq (format : ArchiveFormat) (name : Str) (opts : UnpackOptions)
    (output : List Str) : entryOutpath format name opts output =
      (entryRel opts name).map fun rel => join (absolute output) rel := by
  cases format with
  | zip => rfl
  | tar =>
    simp only [entryOutpath, tarEntryOutpath]
    cases hrel : entryRel opts name with
    | none => rfl
    | some rel =>
      have hne : rel.isEmpty = false := by
        unfold entryRel stripArchivePath at hrel
        split at hrel
        · simp only at hrel
          split at hrel
          · cases hrel
          · next hlen =>
            cases hrel
            rw [isEmpty_eq_false_iff, ne_eq, drop_eq_nil_iff]
            exact hlen
        · cases hrel
      show (if rel.isEmpty then none else some (join (absolute output) rel)) = _
      rw [hne]
      rfl

end Names

section Unpack

variable {σ : Type} (disk : UnpackDisk σ) (format : ArchiveFormat) (output : List Str)
  (opts : UnpackOptions)

/-- The number of files written, the disk, and the paths used so far. -/
structure UnpackRun (σ : Type) where
  result : Except Str ℕ
  state : σ
  trace : List Unpacked

def makeParents (s : σ) (outpath : FsPath) : Except Str σ × List Unpacked :=
  match parent outpath with
  | none => (.ok s, [])
  | some dir => (disk.createDirAll s dir, [.parents dir])

/-- `File::create` and the copy of the content. -/
def writeContent (s : σ) (outpath : FsPath) (content : Str) : Except Str ℕ × σ :=
  match disk.createFile s outpath with
  | .error e => (.error e, s)
  | .ok s =>
    match disk.copy s outpath content with
    | .error e => (.error e, s)
    | .ok s => (.ok 1, s)

def writeFile (s : σ) (outpath : FsPath) (content : Str) : UnpackRun σ :=
  match makeParents disk s outpath with
  | (.error e, made) => ⟨.error e, s, made⟩
  | (.ok s, made) =>
    let (result, s) := writeContent disk s outpath content
    ⟨result, s, made ++ [.file outpath]⟩

/-- `write_member_to_disk` and `write_tar_entry_to_disk`. -/
def writeMemberToDisk (s : σ) (entry : ArchiveEntry) (outpath : FsPath) : UnpackRun σ :=
  if entry.isDir then
    match disk.createDirAll s outpath with
    | .error e => ⟨.error e, s, [.dir outpath]⟩
    | .ok s => ⟨.ok 0, s, [.dir outpath]⟩
  else writeFile disk s outpath entry.content

/-- The loop over the entries; an entry the reader cannot read ends it. -/
def unpackEntries (s : σ) (count : ℕ) : List (Except Str ArchiveEntry) → UnpackRun σ
  | [] => ⟨.ok count, s, []⟩
  | .error e :: _ => ⟨.error e, s, []⟩
  | .ok entry :: rest =>
    match entryOutpath format entry.name opts output with
    | none => unpackEntries s count rest
    | some outpath =>
      let written := writeMemberToDisk disk s entry outpath
      match written.result with
      | .error e => ⟨.error e, written.state, written.trace⟩
      | .ok n =>
        let run := unpackEntries written.state (count + n) rest
        ⟨run.result, run.state, written.trace ++ run.trace⟩

/-- `unpack_zip` and `unpack_tar`. -/
def unpackArchive (s : σ) (entries : List (Except Str ArchiveEntry)) : UnpackRun σ :=
  match disk.createDirAll s (absolute output) with
  | .error e => ⟨.error e, s, [.dir (absolute output)]⟩
  | .ok s =>
    let run := unpackEntries disk format output opts s 0 entries
    { run with trace := .dir (absolute output) :: run.trace }

/-- The options of a call. -/
def unpackOptions (stripComponents : Option ℕ) (files : List Str) : UnpackOptions :=
  ⟨stripComponents.getD 0, (files.map trim).filter fun f => !f.isEmpty⟩

/-- `archive_unpack` on an opened archive and a resolved output directory. -/
def archiveUnpack (s : σ) (entries : List (Except Str ArchiveEntry)) (stripComponents : Option ℕ)
    (files : List Str) : UnpackRun σ :=
  unpackArchive disk format output (unpackOptions stripComponents files) s entries

end Unpack

section Paths

variable {σ : Type} {disk : UnpackDisk σ} {format : ArchiveFormat} {output : List Str}
  {opts : UnpackOptions} {s : σ}

/-- The entries before the first unreadable one. -/
def readable : List (Except Str ArchiveEntry) → List ArchiveEntry
  | .ok entry :: rest => entry :: readable rest
  | _ => []

theorem makeParents_outpath {outpath : FsPath} {u : Unpacked}
    (h : u ∈ (makeParents disk s outpath).2) : u.outpath = none := by
  unfold makeParents at h
  split at h
  · cases h
  · rw [mem_singleton.mp h]
    rfl

theorem writeMemberToDisk_outpath {entry : ArchiveEntry} {outpath path : FsPath} {u : Unpacked}
    (h : u ∈ (writeMemberToDisk disk s entry outpath).trace) (hp : u.outpath = some path) :
    path = outpath := by
  unfold writeMemberToDisk at h
  split at h
  · have hdir : u = .dir outpath := by
      split at h
      · exact mem_singleton.mp h
      · exact mem_singleton.mp h
    rw [hdir] at hp
    exact (Option.some.inj hp).symm
  · unfold writeFile at h
    have hparents : ∀ u ∈ (makeParents disk s outpath).2, u.outpath = none :=
      fun u hu => makeParents_outpath hu
    cases hmade : makeParents disk s outpath with
    | mk result made =>
      rw [hmade] at h hparents
      cases result with
      | error e =>
        rw [hparents u h] at hp
        cases hp
      | ok s' =>
        rcases mem_append.mp h with h | h
        · rw [hparents u h] at hp
          cases hp
        · rw [mem_singleton.mp h] at hp
          exact (Option.some.inj hp).symm

/-- Every path the loop creates is the output path of a readable entry. -/
theorem unpackEntries_outpath {entries : List (Except Str ArchiveEntry)} {count : ℕ}
    {u : Unpacked} {path : FsPath}
    (h : u ∈ (unpackEntries disk format output opts s count entries).trace)
    (hp : u.outpath = some path) :
    ∃ entry ∈ readable entries, entryOutpath format entry.name opts output = some path := by
  induction entries generalizing s count with
  | nil => cases h
  | cons first rest ih =>
    cases first with
    | error e => cases h
    | ok entry =>
      simp only [unpackEntries] at h
      cases hout : entryOutpath format entry.name opts output with
      | none =>
        simp only [hout] at h
        obtain ⟨e, he, heq⟩ := ih h
        exact ⟨e, mem_cons_of_mem _ he, heq⟩
      | some outpath =>
        simp only [hout] at h
        split at h
        · rw [writeMemberToDisk_outpath h hp]
          exact ⟨entry, mem_cons_self, hout⟩
        · rcases mem_append.mp h with h | h
          · rw [writeMemberToDisk_outpath h hp]
            exact ⟨entry, mem_cons_self, hout⟩
          · obtain ⟨e, he, heq⟩ := ih h
            exact ⟨e, mem_cons_of_mem _ he, heq⟩

/-- A disk on which every operation works. -/
def willingUnpackDisk : UnpackDisk Unit where
  createDirAll s _ := .ok s
  createFile s _ := .ok s
  copy s _ _ := .ok s

theorem writeMemberToDisk_willing (entry : ArchiveEntry) (outpath : FsPath) :
    ∃ n, (writeMemberToDisk willingUnpackDisk () entry outpath).result = .ok n ∧
      ∃ u ∈ (writeMemberToDisk willingUnpackDisk () entry outpath).trace,
        u.outpath = some outpath := by
  unfold writeMemberToDisk
  cases entry.isDir with
  | true => exact ⟨0, rfl, _, mem_cons_self, rfl⟩
  | false =>
    simp only [Bool.false_eq_true, if_false, writeFile, makeParents]
    cases parent outpath with
    | none => exact ⟨1, rfl, _, mem_cons_self, rfl⟩
    | some dir => exact ⟨1, rfl, _, mem_cons_of_mem _ mem_cons_self, rfl⟩

/-- On it the path of every readable entry is created. -/
theorem unpackEntries_creates {entries : List (Except Str ArchiveEntry)} (count : ℕ)
    {entry : ArchiveEntry} (h : entry ∈ readable entries) {outpath : FsPath}
    (hout : entryOutpath format entry.name opts output = some outpath) :
    ∃ u ∈ (unpackEntries willingUnpackDisk format output opts () count entries).trace,
      u.outpath = some outpath := by
  induction entries generalizing count with
  | nil => cases h
  | cons first rest ih =>
    cases first with
    | error e => cases h
    | ok next =>
      simp only [unpackEntries]
      cases hnext : entryOutpath format next.name opts output with
      | none =>
        rcases mem_cons.mp h with rfl | h
        · rw [hout] at hnext
          cases hnext
        · exact ih count h
      | some path =>
        obtain ⟨n, hok, u, hu, hpath⟩ := writeMemberToDisk_willing next path
        simp only [hok]
        rcases mem_cons.mp h with rfl | h
        · rw [hout] at hnext
          exact ⟨u, mem_append_left _ hu, hpath.trans hnext.symm⟩
        · obtain ⟨v, hv, hvp⟩ := ih (count + n) h
          exact ⟨v, mem_append_right _ hv, hvp⟩

/-- Whatever the disk answers, every created path lies under the output directory. -/
def UnpacksInside (format : ArchiveFormat) (output : List Str)
    (entries : List (Except Str ArchiveEntry)) (stripComponents : Option ℕ)
    (files : List Str) : Prop :=
  ∀ (σ : Type) (disk : UnpackDisk σ) (s : σ),
    ∀ u ∈ (archiveUnpack disk format output s entries stripComponents files).trace,
      ∀ path, u.outpath = some path → output <+: resolve [] path

/-- Unpacking stays in the output directory exactly if every selected entry does: what is left of
its name after stripping is not absolute and does not climb out. -/
theorem archiveUnpack_inside_iff (format : ArchiveFormat) (output : List Str)
    (entries : List (Except Str ArchiveEntry)) (stripComponents : Option ℕ) (files : List Str) :
    UnpacksInside format output entries stripComponents files ↔
      ∀ entry ∈ readable entries, ∀ rel,
        entryRel (unpackOptions stripComponents files) entry.name = some rel →
        (normalize rel).Stays output := by
  constructor
  · intro h entry hentry rel hrel
    have hout : entryOutpath format entry.name (unpackOptions stripComponents files) output =
        some (join (absolute output) rel) := by
      rw [entryOutpath_eq, hrel]
      rfl
    obtain ⟨u, hu, hpath⟩ := unpackEntries_creates 0 hentry hout
    rw [stays_iff_resolve]
    exact h Unit willingUnpackDisk () u (mem_cons_of_mem _ hu) _ hpath
  · intro h σ disk s u hu path hpath
    have houtput : output <+: resolve [] (absolute output) :=
      (resolve_absolute [] output).symm ▸ prefix_rfl
    unfold archiveUnpack unpackArchive at hu
    split at hu
    · rw [mem_singleton.mp hu] at hpath
      cases hpath
      exact houtput
    · rcases mem_cons.mp hu with rfl | hu
      · cases hpath
        exact houtput
      · obtain ⟨entry, hentry, hout⟩ := unpackEntries_outpath hu hpath
        rw [entryOutpath_eq, Option.map_eq_some_iff] at hout
        obtain ⟨rel, hrel, rfl⟩ := hout
        exact (stays_iff_resolve _ _).mp (h entry hentry rel hrel)

/-- An entry named `../evil` is written beside the output directory, from either format. -/
theorem parent_entry_escapes :
    ¬UnpacksInside .zip ["work".toList, "out".toList] [.ok ⟨"../evil".toList, false, []⟩] none [] ∧
      ¬UnpacksInside .tar ["work".toList, "out".toList] [.ok ⟨"../evil".toList, false, []⟩] none
        [] := by
  let evil : FsPath := absolute ["work".toList, "out".toList] ++ [.parentDir, .normal "evil".toList]
  constructor
  · intro h
    have hin := h Unit willingUnpackDisk () (.file evil) (by decide +kernel) evil rfl
    exact absurd hin (by decide)
  · intro h
    have hin := h Unit willingUnpackDisk () (.file evil) (by decide +kernel) evil rfl
    exact absurd hin (by decide)

end Paths
end CrabMate
