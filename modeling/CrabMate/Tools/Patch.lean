import CrabMate.Files.Guards
import CrabMate.Lib.LexPath

/-! Applying a unified diff inside the workspace: header validation, the paths a chunk is applied
to, planning against the disk and the commit of the planned changes. Every path handed to the
file system is recorded. -/
namespace CrabMate
open RustStr LexPath

/-- A path as it is handed to the operating system. -/
abbrev FsPath := List (Component Str)

/-- The unified-diff library. -/
structure Diffy (P : Type) where
  fromStr : Str → Except Str P
  apply : Str → P → Except Str Str

/-- What the disk answers in state `σ`. There are no symbolic links. `leftByWriteBack` is what a
write back over a file of several names leaves when it fails: the file was cut off before. -/
structure Disk (σ : Type) where
  present : σ → FsPath → Bool
  readToString : σ → FsPath → Except Str Str
  revisionOfPath : σ → FsPath → Except Str Str
  targetHasMultipleLinks : σ → FsPath → Bool
  createDirAll : σ → FsPath → Except Str σ
  createTmp : σ → FsPath → Str → Except Str σ
  commitTmp : σ → FsPath → Except Str σ
  leftByWriteBack : σ → FsPath → σ
  removeFile : σ → FsPath → Except Str σ

inductive Access where
  | stat (path : FsPath)
  | read (path : FsPath)
  | makeDirs (path : FsPath)
  | stage (target : FsPath)
  | write (path : FsPath)
  | remove (path : FsPath)
  deriving DecidableEq

/-- The file a chunk is about. Parent directories and the temporary file beside the target
follow from it. -/
def Access.file : Access → Option FsPath
  | .stat path | .read path | .write path | .remove path => some path
  | .makeDirs _ | .stage _ => none

inductive ToolError where
  | invalidArgs (message : Str)
  | applyPatchFailed (message : Str)
  deriving DecidableEq

inductive WorkspacePathError where
  | emptyPath
  | absolutePathNotAllowed
  | outsideWorkspaceRoot
  | noExistingAncestor
  deriving DecidableEq

def WorkspacePathError.userMessage : WorkspacePathError → Str
  | .emptyPath => "path 不能为空".toList
  | .absolutePathNotAllowed => "路径必须为相对于工作目录的相对路径，不能使用绝对路径".toList
  | .outsideWorkspaceRoot => "路径不能超出工作目录".toList
  | .noExistingAncestor => "路径无法解析".toList

section Headers

def devNull : Str := "/dev/null".toList

def oldHeader : Str := "--- ".toList

def newHeader : Str := "+++ ".toList

def parseHeaderPath (line : Str) : Option Str :=
  ((stripPrefix? oldHeader line).or (stripPrefix? newHeader line)).bind fun body =>
    (splitWhitespace body).head?

def stripComponents (path : Str) (n : ℕ) : Str :=
  if path = devNull then path
  else
    let parts := path.splitOn '/'
    if parts.length ≤ n then parts.getLast?.getD []
    else ['/'].intercalate (parts.drop n)

/-- One line of the header scan: the old and the new path found so far. `none` ends the scan
without a result, at a header with no path. -/
def scanHeader (strip : ℕ) (line : Str) (original target : Option Str) :
    Option (Option Str × Option Str) :=
  match stripPrefix? oldHeader line with
  | some rest => (splitWhitespace rest).head?.map fun path =>
    (some (stripComponents path strip), target)
  | none =>
    match stripPrefix? newHeader line with
    | some rest => (splitWhitespace rest).head?.map fun path =>
      (original, some (stripComponents path strip))
    | none => some (original, target)

def scanHeaders (strip : ℕ) : List Str → Option Str → Option Str → Option (Str × Str)
  | [], _, _ => none
  | line :: rest, original, target =>
    match scanHeader strip line original target with
    | none => none
    | some (some original, some target) => some (target, original)
    | some (original, target) => scanHeaders strip rest original target

/-- The target and the original path of a chunk. -/
def extractTargetPath (patchChunk : Str) (strip : ℕ) : Option (Str × Str) :=
  scanHeaders strip (lines patchChunk) none none

/-- The chunks so far, the open chunk, and whether a file header was seen. -/
def splitStep (acc : List Str × Str × Bool) (line : Str) : List Str × Str × Bool :=
  let (chunks, current, inFile) := acc
  let (chunks, current, inFile) :=
    if startsWith oldHeader line then
      if inFile && !current.isEmpty then (chunks ++ [current], [], true)
      else (chunks, current, true)
    else (chunks, current, inFile)
  if inFile then (chunks, current ++ line ++ ['\n'], inFile) else (chunks, current, inFile)

def splitPatchByFile (patchText : Str) : List Str :=
  let (chunks, current, _) := (lines patchText).foldl splitStep ([], [], false)
  let chunks := if current.isEmpty then chunks else chunks ++ [current]
  if chunks.isEmpty then [patchText] else chunks

inductive DevNullHunkKind where
  | create
  | delete
  deriving DecidableEq

def classifyDevNullHunk (filePath originalPath : Str) : Option DevNullHunkKind :=
  if originalPath = devNull then some .create
  else if filePath = devNull then some .delete
  else none

end Headers

section Validation

/-- `Path::absolutize_from` of the `path_absolutize` library: the lexical absolute path. -/
abbrev AbsolutizeFrom := List Str → Str → List Str

/-- The nearest existing ancestor of a directory given from its last name upwards. -/
def existingAncestor (present : List Str → Bool) : List Str → Option (List Str)
  | [] => if present [] then some [] else none
  | name :: up =>
    if present (name :: up).reverse then some (name :: up).reverse else existingAncestor present up

def ensureExistingAncestorWithinRoot (present : List Str → Bool) (root target : List Str) :
    Except WorkspacePathError Unit :=
  match existingAncestor present target.reverse with
  | none => .error .noExistingAncestor
  | some ancestor => if root <+: ancestor then .ok () else .error .outsideWorkspaceRoot

def absolutizeRelativeUnderRoot (absolutizeFrom : AbsolutizeFrom) (root : List Str) (sub : Str) :
    Except WorkspacePathError (List Str) :=
  let sub := trim sub
  if sub.isEmpty then .error .emptyPath
  else if startsWith ['/'] sub then .error .absolutePathNotAllowed
  else
    let normalized := absolutizeFrom root sub
    if root <+: normalized then .ok normalized else .error .outsideWorkspaceRoot

def validateSinglePath (absolutizeFrom : AbsolutizeFrom) (present : List Str → Bool)
    (root : List Str) (rawPath : Str) : Except Str Unit :=
  let pathNoPrefix :=
    ((stripPrefix? "a/".toList rawPath).or (stripPrefix? "b/".toList rawPath)).getD rawPath
  let outside (e : WorkspacePathError) : Str :=
    "路径超出工作区或无效: ".toList ++ rawPath ++ " (".toList ++ e.userMessage ++ ")".toList
  if startsWith ['/'] pathNoPrefix then .error ("不允许绝对路径: ".toList ++ rawPath)
  else
    match absolutizeRelativeUnderRoot absolutizeFrom root pathNoPrefix with
    | .error e => .error (outside e)
    | .ok normalized => (ensureExistingAncestorWithinRoot present root normalized).mapError outside

def validateHeaders (absolutizeFrom : AbsolutizeFrom) (present : List Str → Bool)
    (root : List Str) : List Str → Except Str Unit
  | [] => .ok ()
  | rawPath :: rest =>
    if rawPath = devNull then validateHeaders absolutizeFrom present root rest
    else
      match validateSinglePath absolutizeFrom present root rawPath with
      | .error e => .error e
      | .ok () => validateHeaders absolutizeFrom present root rest

def validatePatchPaths (absolutizeFrom : AbsolutizeFrom) (present : List Str → Bool)
    (patchText : Str) (root : List Str) : Except Str Unit :=
  let headers := (lines patchText).filterMap parseHeaderPath
  match validateHeaders absolutizeFrom present root headers with
  | .error e => .error e
  | .ok () =>
    if headers.isEmpty then .error "未检测到 unified diff 文件头（--- / +++）".toList else .ok ()

end Validation

section Plan

inductive PlannedPatch where
  | modify (rel before after : Str)
  | create (rel after : Str)
  | delete (rel : Str) (before : Option Str)
  deriving DecidableEq

/-- The context of one call: the canonical root, preview only, and the file version the caller
expects. -/
structure PatchApply where
  root : List Str
  dryRun : Bool
  baseRevision : Option Str

def PlannedPatch.rel : PlannedPatch → Str
  | .modify rel _ _ => rel
  | .create rel _ => rel
  | .delete rel _ => rel

def PatchApply.path (apply : PatchApply) (rel : Str) : FsPath :=
  join (absolute apply.root) (components rel)

variable {P σ : Type} (diffy : Diffy P) (disk : Disk σ) (apply : PatchApply)

/-- Applies the chunk to a text. -/
def patched (filePath before hunkPatch : Str) : Except Str Str := do
  let single ← (diffy.fromStr hunkPatch).mapError fun e => filePath ++ ": 解析失败: ".toList ++ e
  (diffy.apply before single).mapError fun e => filePath ++ ": 应用失败: ".toList ++ e

/-- Tries one chunk on the disk as it is and writes nothing. -/
def planSingleHunk (s : σ) (hunkPatch : Str) (strip : ℕ) :
    Except Str (Option PlannedPatch) × List Access :=
  match extractTargetPath hunkPatch strip with
  | none => (.error "无法提取文件路径".toList, [])
  | some (filePath, originalPath) =>
    match classifyDevNullHunk filePath originalPath with
    | some .create =>
      ((patched diffy filePath [] hunkPatch).map fun after => some (.create filePath after), [])
    | some .delete =>
      let source := apply.path originalPath
      if disk.present s source then
        (.ok (some (.delete originalPath (disk.readToString s source).toOption)),
          [.stat source, .read source])
      else (.ok none, [.stat source])
    | none =>
      let target := apply.path filePath
      (do
        let before ← (disk.readToString s target).mapError fun e =>
          filePath ++ ": 读取失败: ".toList ++ e
        let after ← patched diffy filePath before hunkPatch
        return some (.modify filePath before after), [.read target])

end Plan

section Commit

variable {σ : Type} (disk : Disk σ) (apply : PatchApply)

/-- An operation on the disk: its result, the state it leaves, the paths it used. -/
structure Ran (σ : Type) where
  result : Except Str Unit
  state : σ
  trace : List Access

def Ran.done (s : σ) : Ran σ := ⟨.ok (), s, []⟩

def Ran.andThen (r : Ran σ) (next : σ → Ran σ) : Ran σ :=
  match r.result with
  | .error _ => r
  | .ok () => ⟨(next r.state).result, (next r.state).state, r.trace ++ (next r.state).trace⟩

/-- One call that leaves the state when it fails. -/
def Ran.call (access : Access) (s : σ) (answer : Except Str σ) : Ran σ :=
  match answer with
  | .ok s' => ⟨.ok (), s', [access]⟩
  | .error e => ⟨.error e, s, [access]⟩

def Ran.inContext (context : Str) (r : Ran σ) : Ran σ :=
  { r with result := r.result.mapError fun e => context ++ e }

/-- `Path::display`. -/
def display (path : FsPath) : Str :=
  if path = [.rootDir] then ['/']
  else ['/'].intercalate (path.map fun
    | .rootDir => []
    | .curDir => ['.']
    | .parentDir => ['.', '.']
    | .normal name => name)

def revisionCheckFailed (target : FsPath) (e : Str) : Str :=
  "错误[revision_check_failed]：无法计算文件 revision: ".toList ++ e ++ "（".toList ++
    notWrittenHint ++ "）。\n路径：".toList ++ display target

def staleRevision (target : FsPath) (expected current : Str) : Str :=
  "错误[stale_revision]：目标文件自上次 read_file 后已变更，拒绝基于过期快照写入（".toList ++
    notWrittenHint ++ "）。\n路径：".toList ++ display target ++
    "\n调用方 base_revision：".toList ++ expected ++ "\n当前 revision：".toList ++ current ++
    "\n请重新调用 read_file 获取最新内容与 revision，再按当前行号修改；".toList ++
    "或改用 search_replace 按文本锚定编辑。".toList

def normalizeRevision (s : Str) : Str :=
  let trimmed := (trim s).map Char.toLower
  (stripPrefix? "sha256:".toList trimmed).getD trimmed

def baseRevisionArg (apply : PatchApply) : Option Str :=
  (apply.baseRevision.map trim).filter fun s => !s.isEmpty

def verifyWriteRevision (target : FsPath) (s : σ) : Ran σ :=
  match baseRevisionArg apply with
  | none => .done s
  | some expected => .call (.read target) s <|
    match disk.revisionOfPath s target with
    | .error e => .error (revisionCheckFailed target e)
    | .ok current =>
      if normalizeRevision expected = normalizeRevision current then .ok s
      else .error (staleRevision target expected current)

/-- The temporary file replaces the target, or is written back over it where the target has
several names. -/
def commitTmpOverTarget (target : FsPath) (preserveInode : Bool) (s : σ) : Ran σ :=
  match disk.commitTmp s target with
  | .ok s' => ⟨.ok (), s', [.write target]⟩
  | .error e => ⟨.error e, if preserveInode then disk.leftByWriteBack s target else s,
      [.write target]⟩

/-- The content goes to a temporary file beside the target, which is then committed. -/
def writeBytesWithRevisionGuard (target : FsPath) (content : Str) (s : σ) : Ran σ :=
  let preserveInode := disk.targetHasMultipleLinks s target
  (Ran.mk (.ok ()) s [.stat target]).andThen fun s =>
    (Ran.call (.stage target) s (disk.createTmp s target content)).andThen fun s =>
      (verifyWriteRevision disk apply target s).andThen fun s =>
        commitTmpOverTarget disk target preserveInode s

def writePlanned (rel content : Str) (s : σ) : Ran σ :=
  if apply.dryRun then .done s
  else
    (writeBytesWithRevisionGuard disk apply (apply.path rel) content s).inContext
      (rel ++ ": ".toList)

def ensureParentDir (rel : Str) (s : σ) : Ran σ :=
  if apply.dryRun then .done s
  else
    match parent (apply.path rel) with
    | none => .done s
    | some dir => (Ran.call (.makeDirs dir) s (disk.createDirAll s dir)).inContext
        (rel ++ ": 创建父目录失败: ".toList)

def commitPlanned (plan : PlannedPatch) (s : σ) : Ran σ :=
  match plan with
  | .modify rel _ after => writePlanned disk apply rel after s
  | .create rel after =>
    (ensureParentDir disk apply rel s).andThen fun s => writePlanned disk apply rel after s
  | .delete rel _ =>
    if apply.dryRun then .done s
    else
      (verifyWriteRevision disk apply (apply.path rel) s).andThen fun s =>
        (Ran.call (.remove (apply.path rel)) s (disk.removeFile s (apply.path rel))).inContext
          (rel ++ ": 删除失败: ".toList)

def commitAll : List PlannedPatch → σ → Ran σ
  | [], s => .done s
  | plan :: plans, s =>
    (commitPlanned disk apply plan s).andThen fun s => commitAll plans s

/-- The line a committed plan adds to the report. -/
def PlannedPatch.appliedFile : PlannedPatch → Str
  | .modify rel _ _ => rel
  | .create rel _ => "新建: ".toList ++ rel
  | .delete rel _ => "删除: ".toList ++ rel

end Commit

section Apply

variable {P σ : Type} (diffy : Diffy P) (disk : Disk σ) (apply : PatchApply)

structure PatchRun (σ : Type) where
  result : Except ToolError Str
  state : σ
  trace : List Access

def unifiedPatchFormatOutcome (appliedFiles errors : List Str) : Str :=
  if errors.isEmpty then
    if appliedFiles.isEmpty then "补丁应用成功（无文件变更）".toList
    else "补丁应用成功：\n".toList ++ ['\n'].intercalate appliedFiles
  else if appliedFiles.isEmpty then "补丁应用失败：\n".toList ++ ['\n'].intercalate errors
  else
    "补丁部分应用：\n成功：\n".toList ++ ['\n'].intercalate appliedFiles ++ "\n失败：\n".toList ++
      ['\n'].intercalate errors

def errorOf {ε α : Type} : Except ε α → Option ε
  | .error e => some e
  | .ok _ => none

def multiFileBaseRevision (files : ℕ) : Str :=
  "错误：base_revision 只能用于单文件补丁，当前补丁涉及 ".toList ++ (toString files).toList ++
    " 个文件；请拆成多次 apply_patch，或去掉 base_revision".toList

/-- All chunks are parsed, then planned; only if every plan succeeded is anything written. -/
def applyUnifiedPatch (s : σ) (patchText : Str) (strip : ℕ) : PatchRun σ :=
  let chunks := splitPatchByFile patchText
  match (chunks.filterMap fun chunk => errorOf (diffy.fromStr chunk)).head? with
  | some e => ⟨.error (.invalidArgs ("解析 unified diff 失败: ".toList ++ e)), s, []⟩
  | none =>
    let planned := chunks.map fun chunk => planSingleHunk diffy disk apply s chunk strip
    let trace := planned.flatMap Prod.snd
    let errors := planned.filterMap fun p => errorOf p.1
    let plans := planned.filterMap fun p => p.1.toOption.join
    if !errors.isEmpty then
      ⟨.error (.applyPatchFailed (unifiedPatchFormatOutcome [] errors)), s, trace⟩
    else if (baseRevisionArg apply).isSome ∧ 1 < plans.length then
      ⟨.error (.invalidArgs (multiFileBaseRevision plans.length)), s, trace⟩
    else
      let ran := commitAll disk apply plans s
      ⟨(ran.result.mapError ToolError.applyPatchFailed).map fun _ =>
          unifiedPatchFormatOutcome (plans.map PlannedPatch.appliedFile) [],
        ran.state, trace ++ ran.trace⟩

/-- The tool call. -/
def runApplyPatch (absolutizeFrom : AbsolutizeFrom) (s : σ) (patch : Option Str) (strip : ℕ) :
    PatchRun σ :=
  match patch.filter fun p => !(trim p).isEmpty with
  | none => ⟨.error (.invalidArgs "错误：缺少 patch 参数".toList), s, []⟩
  | some patchText =>
    match validatePatchPaths absolutizeFrom (fun dir => disk.present s (absolute dir)) patchText
      apply.root with
    | .error e => ⟨.error (.invalidArgs ("补丁路径校验失败: ".toList ++ e)), s, []⟩
    | .ok () => applyUnifiedPatch diffy disk apply s patchText strip

end Apply
end CrabMate
