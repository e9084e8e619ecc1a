import CrabMate.Lib.DirTree
import CrabMate.Tools.Archive

/-! Packing archives: the names under which the files of a workspace are stored. There are no
symbolic links. -/
namespace CrabMate.ArchivePack
open RustStr LexPath DirTree

/-- The texts that stand for a file or directory of their own. -/
structure IsName (name : Str) : Prop where
  ne_nil : name ≠ []
  no_slash : '/' ∉ name
  ne_dot : name ≠ ['.']
  ne_dots : name ≠ ['.', '.']

/-- A directory of the file system, with everything that stands in it. -/
structure Workspace where
  tree : DirTree.Tree Str Str
  root : List Str
  root_dir : tree.node root = some .dir
  isName : ∀ path name, (tree.node (path ++ [name])).isSome → IsName name

/-- `rel` is what the caller wrote, `path` the place in the workspace that it was resolved to. -/
structure ResolvedSource (w : Workspace) where
  rel : Str
  path : List Str
  rel_ne : rel ≠ []
  resolves : resolve w.root (components rel) = path
  inside : w.root <+: path
  present : (w.tree.node path).isSome

inductive ArchiveKind where
  | zip
  | tar (compress : Option String)
  | sevenZip
  | rar
  deriving DecidableEq

/-- The longest suffix comes first. -/
def archiveFormatSuffixes : List (Str × ArchiveKind) :=
  [(".tar.gz".toList, .tar "gzip"), (".tgz".toList, .tar "gzip"), (".tar.bz2".toList, .tar "bzip2"),
    (".tbz2".toList, .tar "bzip2"), (".tar.xz".toList, .tar "xz"), (".txz".toList, .tar "xz"),
    (".tar".toList, .tar none), (".zip".toList, .zip), (".7z".toList, .sevenZip),
    (".rar".toList, .rar)]

/-- No other character has a lower case that is a letter of a suffix. -/
def detectFormat (filename : Str) : Option ArchiveKind :=
  let lower := filename.map Char.toLower
  (archiveFormatSuffixes.find? fun s => s.1.isSuffixOf lower).map Prod.snd

section Pack

variable {w : Workspace}

/-- `WalkDir` and the walk of the tar writer: everything from `dir` on, in the order of the
listing. -/
def walkDir (w : Workspace) (dir : List Str) : List (List Str) :=
  w.tree.paths.filter fun path => dir.isPrefixOf path

def joinNames (names : List Str) : Str := ['/'].intercalate names

/-- The name and the content of each file a source adds to a zip archive. -/
def zipMembers (source : ResolvedSource w) : List (Str × Str) :=
  match w.tree.node source.path with
  | some (.file content) => [(source.path.getLast?.getD source.rel, content)]
  | some .dir =>
      (walkDir w source.path).filterMap fun path =>
        match w.tree.node path with
        | some (.file content) => some (joinNames (path.drop source.path.dropLast.length), content)
        | _ => none
  | none => []

attribute [local instance] lawfulBEq_str in
/-- `start_file` and the writing of the content. A writer may refuse a name that it already has. -/
def startFile (refusesTwins : Bool) (zip : List ArchiveEntry) (member : Str × Str) :
    Except Str (List ArchiveEntry) :=
  if refusesTwins ∧ member.1 ∈ zip.map (·.name) then
    .error ("Duplicate filename: ".toList ++ member.1)
  else .ok (zip ++ [⟨member.1, false, member.2⟩])

def packZip (refusesTwins : Bool) (sources : List (ResolvedSource w)) :
    Except Str (List ArchiveEntry) :=
  (sources.flatMap zipMembers).foldlM (startFile refusesTwins) []

/-- What a source adds to a tar archive, under the name the caller wrote. -/
def tarMembers (source : ResolvedSource w) : List (FsPath × Option (DirTree.Node Str)) :=
  match w.tree.node source.path with
  | some .dir =>
      (walkDir w source.path).map fun path =>
        (components source.rel ++ (path.drop source.path.length).map .normal, w.tree.node path)
  | node => [(components source.rel, node)]

def normalNames (path : FsPath) : List Str :=
  path.filterMap fun c => match c with
    | .normal name => some name
    | _ => none

/-- `Header::set_path`. -/
def tarName (dest : FsPath) : Except Str Str :=
  if .rootDir ∈ dest then .error "paths in archives must be relative".toList
  else if .parentDir ∈ dest then .error "paths in archives must not have ..".toList
  else .ok (if normalNames dest = [] then ['.'] else joinNames (normalNames dest))

def tarEntry (member : FsPath × Option (DirTree.Node Str)) : Except Str ArchiveEntry :=
  (tarName member.1).map fun name =>
    match member.2 with
    | some (.file content) => ⟨name, false, content⟩
    | _ => ⟨name, true, []⟩

def packTar (sources : List (ResolvedSource w)) : Except Str (List ArchiveEntry) :=
  (sources.flatMap tarMembers).mapM tarEntry

def packSources (refusesTwins : Bool) (format : ArchiveFormat)
    (sources : List (ResolvedSource w)) : Except Str (List ArchiveEntry) :=
  match format with
  | .zip => packZip refusesTwins sources
  | .tar => packTar sources

structure PackArgs where
  output : Str
  sources : List Str

/-- What a call needs of the workspace: the reading and the writing side of its path checks. -/
structure PackAccess (w : Workspace) where
  forRead : (rel : Str) → Except Str { s : ResolvedSource w // s.rel = rel }
  forWrite : Str → Except Str Unit

def sourceTexts (args : PackArgs) : List Str :=
  (args.sources.map trim).filter fun s => !s.isEmpty

def packFormat (output : Str) : Except Str ArchiveFormat :=
  match detectFormat output with
  | some .zip => .ok .zip
  | some (.tar _) => .ok .tar
  | _ => .error ("不支持的归档格式: ".toList ++ output)

/-- `archive_pack`, with the entries of the archive and how they were stored. -/
def archivePack (access : PackAccess w) (refusesTwins : Bool) (args : PackArgs) :
    Except Str (ArchiveFormat × List ArchiveEntry) := do
  let output := trim args.output
  if output.isEmpty then .error "错误: 缺少 output 参数".toList
  if (sourceTexts args).isEmpty then .error "错误: 缺少 sources 参数".toList
  access.forWrite output
  let sources ← (sourceTexts args).mapM fun rel => (access.forRead rel).map Subtype.val
  let format ← packFormat output
  let entries ← (packSources refusesTwins format sources).mapError fun e =>
    "创建归档失败: ".toList ++ e
  pure (format, entries)

end Pack

section Disk

/-- The disk that an archive is unpacked to. -/
def treeDisk : UnpackDisk (DirTree.Disk Str Str) where
  createDirAll d path :=
    ((path.inits.map (resolve [])).foldlM makeDir d).elim (.error "File exists".toList) .ok
  createFile d path :=
    (DirTree.putFile d (resolve [] path) []).elim (.error "No such file or directory".toList) .ok
  copy d path content :=
    (DirTree.putFile d (resolve [] path) content).elim (.error "No such file".toList) .ok

end Disk

end CrabMate.ArchivePack
