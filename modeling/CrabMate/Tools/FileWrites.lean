import CrabMate.Files.Edits
import CrabMate.Lib.Search
import CrabMate.Tools.PatchCommit

/-! The tools that write files: what each of them checks, changes and reports to the changelist of
its session. -/
namespace CrabMate
open RustStr LexPath List Except

structure PathRefusal where
  policyDenied : Bool
  message : Str

/-- A disk as the write tools use it. `forRead` and `forWrite` resolve the path of a tool,
`absolutize` the path of a changelist; the syntax check before a write and the check of the
revision can only refuse. Every text that a path leads to can be read. -/
structure Workspace (σ K : Type) [DecidableEq K] extends FileSystem σ K where
  root : List Str
  forRead : σ → Str → Except PathRefusal FsPath
  forWrite : σ → Str → Except PathRefusal FsPath
  absolutize : Str → Option FsPath
  isFile : σ → FsPath → Bool
  isDir : σ → FsPath → Bool
  precheckBeforeWrite : Str → Str → Bool → Except Str Unit
  verifyRevision : σ → FsPath → Except Str Unit
  createNew : σ → FsPath → Str → Except Str σ
  appendTo : σ → FsPath → Str → Bool → Except Str σ
  copyTo : σ → FsPath → FsPath → Except Str σ
  rename : σ → FsPath → FsPath → Except Str σ
  isFile_iff : ∀ {s p}, isFile s p = true ↔ (content s (fileAt p)).isSome
  readToString_text : ∀ {s p t}, content s (fileAt p) = some (.text t) → readToString s p = .ok t
  createNew_ok : ∀ {s p t s'}, createNew s p t = .ok s' →
    content s' = Function.update (content s) (fileAt p) (some (.text t))
  appendTo_ok : ∀ {s p t c s'}, appendTo s p t c = .ok s' →
    content s' = Function.update (content s) (fileAt p)
      (some (match content s (fileAt p) with
        | none => .text t
        | some (.text old) => .text (old ++ t)
        | some (.binary old) => .binary (old ++ (String.ofList t).toUTF8.toList)))
  copyTo_ok : ∀ {s p q s'}, copyTo s p q = .ok s' →
    content s' = Function.update (content s) (fileAt q) (content s (fileAt p))
  rename_ok : ∀ {s p q s'}, fileAt p ≠ fileAt q → rename s p q = .ok s' →
    content s' = Function.update (Function.update (content s) (fileAt p) none) (fileAt q)
      (content s (fileAt p))

inductive WriteError where
  | invalidArgs (message : Str)
  | pathResolveFailed (refusal : PathRefusal)
  | writePrecheckFailed (tool message : Str)
  | external (code message : Str)
  | output (tool body : Str)
  | patch (error : ToolError)

/-- A session with the disk its tools work on. -/
structure WriteSession (σ : Type) where
  disk : σ
  changelist : WorkspaceChangelist

def WriteSession.start {σ : Type} (disk : σ) : WriteSession σ := ⟨disk, .empty⟩

section Calls

structure AppendFileArgs where
  path : Str
  content : Str
  createIfMissing : Bool
  dryRun : Bool
  ensureLeadingNewline : Bool
  skipPrecheck : Bool

/-- What a `modify_file` call asks for. -/
inductive ModifyMode where
  | full (content : Str) (confirmFullOverwrite : Bool)
  | replaceLines (startLine endLine : ℕ) (newBody : Str)
  | insertAfterLine (afterLine : ℕ) (newBody : Str)
  | edits (batch : List BatchEdit)

/-- A call of a write tool. `edit` is what the search, its replacement and its limit make of a
text. -/
inductive WriteCall where
  | createFile (path content : Str) (skipPrecheck : Bool)
  | appendFile (args : AppendFileArgs)
  | modifyFile (path : Str) (mode : ModifyMode) (dryRun skipPrecheck : Bool)
  | searchReplace (path : Str) (edit : Str → Except Str Str) (dryRun skipPrecheck : Bool)
  | copyFile (source dest : Str) (overwrite : Bool)
  | moveFile (source dest : Str) (overwrite : Bool)
  | deleteFiles (paths : List Str) (confirm : Bool)
  | applyPatch (patch : Option Str) (strip : ℕ) (dryRun : Bool) (baseRevision : Option Str)

end Calls

section Tools

variable {σ K : Type} [DecidableEq K] (w : Workspace σ K)

def refuseIf {ε : Type} (c : Prop) [Decidable c] (e : ε) : Except ε Unit :=
  if c then .error e else .ok ()

/-- The path that a tool was given, without the white space around it. -/
def pathArg (message : String) (path : Str) : Except WriteError Str :=
  if (trim path).isEmpty then .error (.invalidArgs message.toList) else .ok (trim path)

/-- Reads the file back and records it. -/
def recordFileStateAfterWrite (s : WriteSession σ) (relPath : Str) (before : Option Str) :
    WriteSession σ :=
  let rel := trim relPath
  if rel.isEmpty then s
  else
    let after := (w.absolutize rel).bind fun p => (w.readToString s.disk p).toOption
    { s with changelist := s.changelist.recordMutation rel before after }

/-- The text goes to a temporary file, which replaces the target once the revision is checked. -/
def commitText (disk : σ) (target : FsPath) (text : Str) : Except Str σ := do
  let staged ← w.createTmp disk target text
  w.verifyRevision staged target
  w.commitTmp staged target

def createFile (s : WriteSession σ) (path content : Str) (skipPrecheck : Bool) :
    Except WriteError (WriteSession σ) := do
  let target ← (w.forWrite s.disk path).mapError .pathResolveFailed
  refuseIf (w.present s.disk target) (.invalidArgs "错误：文件已存在，无法仅创建".toList)
  (w.precheckBeforeWrite path content skipPrecheck).mapError
    (.writePrecheckFailed "create_file".toList)
  let disk ← (w.createNew s.disk target content).mapError fun e =>
    .external "create_file_failed".toList ("写入文件失败: ".toList ++ e)
  return recordFileStateAfterWrite w { s with disk } path none

def appendFileNeedsLeadingNewline (before : Option Str) (content : Str)
    (ensureLeadingNewline : Bool) : Bool :=
  ensureLeadingNewline && !content.isEmpty && content.head? ≠ some '\n' &&
    before.any fun s => !s.isEmpty && s.getLast? ≠ some '\n'

def appendResolveTargetPath (disk : σ) (path : Str) (createIfMissing : Bool) :
    Except WriteError FsPath :=
  if createIfMissing then (w.forWrite disk path).mapError .pathResolveFailed
  else (w.forRead disk path).mapError fun e =>
    if e.policyDenied then .pathResolveFailed e
    else .invalidArgs ("文件不存在（可设置 create_if_missing=true）：".toList ++ e.message)

def appendCreateParentIfNeeded (disk : σ) (createIfMissing : Bool) (target : FsPath) :
    Except WriteError σ :=
  match parent target with
  | some dir =>
    if createIfMissing && !dir.isEmpty && !w.present disk dir then
      (w.createDirAll disk dir).mapError fun e =>
        .external "append_file_failed".toList ("创建父目录失败：".toList ++ e)
    else .ok disk
  | none => .ok disk

/-- A preview may create the parent directory. -/
def appendFile (s : WriteSession σ) (args : AppendFileArgs) :
    Except WriteError (WriteSession σ) := do
  let path ← pathArg "缺少 path 参数" args.path
  let target ← appendResolveTargetPath w s.disk path args.createIfMissing
  let disk ← appendCreateParentIfNeeded w s.disk args.createIfMissing target
  let before := (w.readToString disk target).toOption
  let appendBody :=
    if appendFileNeedsLeadingNewline before args.content args.ensureLeadingNewline
      then '\n' :: args.content else args.content
  if args.dryRun then return { s with disk }
  (w.precheckBeforeWrite path (before.getD [] ++ appendBody) args.skipPrecheck).mapError
    (.writePrecheckFailed "append_file".toList)
  let disk ← (w.appendTo disk target appendBody args.createIfMissing).mapError fun e =>
    .external "append_file_failed".toList ("打开文件失败：".toList ++ e)
  let after := (w.readToString disk target).toOption
  return ⟨disk, s.changelist.recordMutation path before after⟩

def fullOverwriteShrinkHeuristicWarn (oldB newB : ℕ) : Bool :=
  if oldB < 400 then false
  else if newB = 0 then 200 ≤ oldB
  else newB * 4 < oldB

def fullOverwriteRequiresUserConfirm (before content : Str) : Bool :=
  let oldLines := max (lines before).length 1
  let newLines := max (lines content).length 1
  fullOverwriteShrinkHeuristicWarn (utf8Len before) (utf8Len content) ||
    (!before.isEmpty && content.isEmpty) || (30 ≤ oldLines && newLines * 3 < oldLines)

/-- The text a `modify_file` call writes over the text of its file, if that could be read. -/
def ModifyMode.newText (before : Option Str) : ModifyMode → Except Str Str
  | full content _ => .ok content
  | replaceLines startLine endLine newBody =>
    match before with
    | none => .error "读取原文件失败".toList
    | some text => CrabMate.replaceLines text startLine endLine newBody
  | insertAfterLine afterLine newBody =>
    match before with
    | none => .error "读取原文件失败".toList
    | some text => CrabMate.insertAfterLine text afterLine newBody
  | edits batch =>
    match before with
    | none => .error "错误：读取原文件失败".toList
    | some text => runBatchEditsOnSnapshot text batch

/-- The checks of the two modes that have some; a line mode writes unchecked text. -/
def ModifyMode.precheck (path : Str) (before : Option Str) (text : Str) (skipPrecheck : Bool) :
    ModifyMode → Except Str Unit
  | full content confirmFullOverwrite =>
    if fullOverwriteRequiresUserConfirm (before.getD []) content && !confirmFullOverwrite then
      .error "错误：本次整文件覆盖将大幅缩短、删去大量行或清空非空文件。".toList
    else w.precheckBeforeWrite path content skipPrecheck
  | replaceLines .. | insertAfterLine .. => .ok ()
  | edits _ => w.precheckBeforeWrite path text skipPrecheck

def modifyFile (s : WriteSession σ) (path : Str) (mode : ModifyMode)
    (dryRun skipPrecheck : Bool) : Except WriteError (WriteSession σ) := do
  let path ← pathArg "缺少 path 参数" path
  let target ← (w.forRead s.disk path).mapError .pathResolveFailed
  refuseIf (!w.isFile s.disk target)
    (.invalidArgs "错误：路径不是文件或不存在，无法仅修改".toList)
  (w.verifyRevision s.disk target).mapError (.output "modify_file".toList)
  let before := (w.readToString s.disk target).toOption
  let text ← (mode.newText before).mapError (.output "modify_file".toList)
  if dryRun then return s
  (mode.precheck w path before text skipPrecheck).mapError (.output "modify_file".toList)
  let disk ← (commitText w s.disk target text).mapError (.output "modify_file".toList)
  return recordFileStateAfterWrite w { s with disk } path before

def searchReplace (s : WriteSession σ) (path : Str) (edit : Str → Except Str Str)
    (dryRun skipPrecheck : Bool) : Except WriteError (WriteSession σ) := do
  let path ← pathArg "缺少 path 参数" path
  let target ← (w.forRead s.disk path).mapError .pathResolveFailed
  refuseIf (!w.isFile s.disk target)
    (.invalidArgs ("错误：".toList ++ path ++ " 不是文件".toList))
  let content ← (w.readToString s.disk target).mapError fun e =>
    .external "search_replace_failed".toList ("读取文件失败：".toList ++ e)
  refuseIf (4 * 1024 * 1024 < utf8Len content)
    (.invalidArgs ("错误：文件过大（".toList ++ numeral (utf8Len content) ++
      " 字节，上限 4MiB）".toList))
  let text ← (edit content).mapError .invalidArgs
  (w.verifyRevision s.disk target).mapError (.output "search_replace".toList)
  if dryRun then return s
  (w.precheckBeforeWrite path text skipPrecheck).mapError
    (.writePrecheckFailed "search_replace".toList)
  let disk ← (commitText w s.disk target text).mapError fun e =>
    .external "search_replace_failed".toList ("写入文件失败：".toList ++ e)
  return recordFileStateAfterWrite w { s with disk } path (some content)

def checkDestForWriteFile (disk : σ) (dst : FsPath) (overwrite : Bool) : Except WriteError Unit :=
  if w.present disk dst then
    if w.isDir disk dst then
      .error (.invalidArgs "错误：目标是已存在的目录，请指定具体文件路径".toList)
    else if w.isFile disk dst && !overwrite then
      .error (.invalidArgs "错误：目标文件已存在；若需覆盖请设置 overwrite 为 true".toList)
    else .ok ()
  else .ok ()

/-- What `copy_file` and `move_file` check: the source and the target they lead to. -/
def checkedPair (s : WriteSession σ) (source dest : Str) (overwrite : Bool)
    (notFile same : String) : Except WriteError (FsPath × FsPath) := do
  let src ← (w.forRead s.disk source).mapError .pathResolveFailed
  refuseIf (!w.isFile s.disk src) (.invalidArgs notFile.toList)
  let dst ← (w.forWrite s.disk dest).mapError .pathResolveFailed
  refuseIf (src = dst) (.invalidArgs same.toList)
  checkDestForWriteFile w s.disk dst overwrite
  return (src, dst)

/-- Reports the target as absent before, also where it is overwritten. -/
def copyFile (s : WriteSession σ) (source dest : Str) (overwrite : Bool) :
    Except WriteError (WriteSession σ) := do
  let source ← pathArg "缺少 from（源相对路径）" source
  let dest ← pathArg "缺少 to（目标相对路径）" dest
  let (src, dst) ← checkedPair w s source dest overwrite
    "错误：源路径不是常规文件（或为目录），仅支持复制文件" "错误：源与目标解析后相同，无需复制"
  let disk ← (w.copyTo s.disk src dst).mapError fun e =>
    .external "copy_file_failed".toList ("复制失败: ".toList ++ e)
  return recordFileStateAfterWrite w { s with disk } dest none

/-- Reports the source and the target as absent before. -/
def moveFile (s : WriteSession σ) (source dest : Str) (overwrite : Bool) :
    Except WriteError (WriteSession σ) := do
  let source ← pathArg "缺少 from（源相对路径）" source
  let dest ← pathArg "缺少 to（目标相对路径）" dest
  let (src, dst) ← checkedPair w s source dest overwrite
    "错误：源路径不是常规文件（或为目录），仅支持移动文件" "错误：源与目标解析后相同"
  let disk ← (w.rename s.disk src dst).mapError fun e =>
    .external "move_file_failed".toList ("移动失败: ".toList ++ e)
  let moved := recordFileStateAfterWrite w { s with disk } source none
  return recordFileStateAfterWrite w moved dest none

def deleteFilesMaxBatch : ℕ := 32

attribute [local instance] lawfulBEq_str in
/-- The paths of a `delete_files` call without repetitions. -/
def distinctPaths : List Str → List Str → Except Str (List Str)
  | seen, [] => .ok seen
  | seen, raw :: rest =>
    let p := trim raw
    if p.isEmpty then .error "paths 中含空路径".toList
    else distinctPaths (if p ∈ seen then seen else seen ++ [p]) rest

def parseDeleteFilesArgs (raw : List Str) (confirm : Bool) : Except Str (List Str) := do
  refuseIf (!confirm) "拒绝执行：delete_files 需要 confirm=true".toList
  let paths ← distinctPaths [] raw
  refuseIf (paths.isEmpty) "缺少 paths 参数".toList
  refuseIf (deleteFilesMaxBatch < paths.length)
    ("一次最多删除 ".toList ++ numeral deleteFilesMaxBatch ++ " 个文件（收到 ".toList ++
      numeral paths.length ++ " 个）".toList)
  return paths

/-- Nothing is deleted unless every path leads to a file. -/
def deleteFilesValidate (disk : σ) (paths : List Str) :
    Except WriteError (List (Str × FsPath)) := do
  let targets ← paths.mapM fun path =>
    ((w.forRead disk path).mapError WriteError.pathResolveFailed).map fun target => (path, target)
  match targets.find? fun t => !w.isFile disk t.2 with
  | some (path, _) =>
    .error (.invalidArgs ("错误：".toList ++ path ++
      " 不是文件（可能是目录，请用 delete_dir）".toList))
  | none => .ok targets

/-- Deletes what can be deleted; the paths that could not are returned. -/
def deleteFilesExecute : List (Str × FsPath) → WriteSession σ → WriteSession σ × List (Str × Str)
  | [], s => (s, [])
  | (path, target) :: rest, s =>
    let before := (w.readToString s.disk target).toOption
    match w.removeFile s.disk target with
    | .ok disk => deleteFilesExecute rest ⟨disk, s.changelist.recordMutation path before none⟩
    | .error e =>
      let (s, failed) := deleteFilesExecute rest s
      (s, (path, "删除文件失败：".toList ++ e) :: failed)

def deleteFiles (s : WriteSession σ) (paths : List Str) (confirm : Bool) :
    Except WriteError (WriteSession σ) := do
  let paths ← (parseDeleteFilesArgs paths confirm).mapError .invalidArgs
  let targets ← deleteFilesValidate w s.disk paths
  let (s, failed) := deleteFilesExecute w targets s
  refuseIf (!failed.isEmpty) (.external "delete_files_failed".toList
    (failed.flatMap fun f => "\n- ".toList ++ f.1 ++ ": ".toList ++ f.2))
  return s

variable {P : Type} (diffy : Diffy P) (absolutizeFrom : AbsolutizeFrom)

def applyPatch (s : WriteSession σ) (patch : Option Str) (strip : ℕ) (dryRun : Bool)
    (baseRevision : Option Str) : Except WriteError (WriteSession σ) :=
  let r := runWithChangelist diffy w.toDisk ⟨w.root, dryRun, baseRevision⟩ absolutizeFrom s.disk
    (some s.changelist) patch strip
  match r.1.result with
  | .error e => .error (.patch e)
  | .ok _ => .ok ⟨r.1.state, r.2.getD s.changelist⟩

/-- A call that ends well gives the session after it. -/
def WriteCall.exec (s : WriteSession σ) : WriteCall → Except WriteError (WriteSession σ)
  | createFile path content skipPrecheck => CrabMate.createFile w s path content skipPrecheck
  | appendFile args => CrabMate.appendFile w s args
  | modifyFile path mode dryRun skipPrecheck =>
    CrabMate.modifyFile w s path mode dryRun skipPrecheck
  | searchReplace path edit dryRun skipPrecheck =>
    CrabMate.searchReplace w s path edit dryRun skipPrecheck
  | copyFile source dest overwrite => CrabMate.copyFile w s source dest overwrite
  | moveFile source dest overwrite => CrabMate.moveFile w s source dest overwrite
  | deleteFiles paths confirm => CrabMate.deleteFiles w s paths confirm
  | applyPatch patch strip dryRun baseRevision =>
    CrabMate.applyPatch w diffy absolutizeFrom s patch strip dryRun baseRevision

def WriteCall.Succeeds (s : WriteSession σ) (call : WriteCall) : Prop :=
  ∃ s', call.exec w diffy absolutizeFrom s = .ok s'

/-- The session after a call; one that fails does not count. -/
def writeStep (s : WriteSession σ) (call : WriteCall) : WriteSession σ :=
  (call.exec w diffy absolutizeFrom s).toOption.getD s

end Tools

section Inversion

variable {ε ε' α : Type}

theorem mapError_eq_ok {x : Except ε α} {f : ε → ε'} {a : α} :
    x.mapError f = .ok a ↔ x = .ok a := by
  cases x <;> simp [Except.mapError]

theorem refuseIf_eq_ok {c : Prop} [Decidable c] {e : ε} {u : Unit} :
    refuseIf c e = .ok u ↔ ¬ c := by
  by_cases hc : c <;> simp [refuseIf, hc]

variable {σ K : Type} [DecidableEq K] {w : Workspace σ K} {s s' : WriteSession σ}

theorem pathArg_eq_ok {message : String} {path p : Str} (h : pathArg message path = .ok p) :
    trim path ≠ [] ∧ p = trim path := by
  unfold pathArg at h
  split at h
  · cases h
  · next hne => exact ⟨by simpa using hne, (Except.ok.inj h).symm⟩

theorem commitText_content {disk disk' : σ} {target : FsPath} {text : Str}
    (h : commitText w disk target text = .ok disk') :
    w.content disk' =
      Function.update (w.content disk) (w.fileAt target) (some (.text text)) := by
  obtain ⟨staged, hstaged, h⟩ := bind_eq_ok.mp h
  obtain ⟨-, -, h⟩ := bind_eq_ok.mp h
  exact w.commitTmp_ok hstaged h

theorem createFile_eq_ok {path content : Str} {skipPrecheck : Bool}
    (h : createFile w s path content skipPrecheck = .ok s') :
    ∃ target disk, w.forWrite s.disk path = .ok target ∧ w.present s.disk target = false ∧
      w.createNew s.disk target content = .ok disk ∧
      s' = recordFileStateAfterWrite w { s with disk } path none := by
  obtain ⟨target, htarget, h⟩ := bind_eq_ok.mp h
  obtain ⟨_, hnew, h⟩ := bind_eq_ok.mp h
  obtain ⟨-, -, h⟩ := bind_eq_ok.mp h
  obtain ⟨disk, hdisk, h⟩ := bind_eq_ok.mp h
  exact ⟨target, disk, mapError_eq_ok.mp htarget, by simpa using refuseIf_eq_ok.mp hnew,
    mapError_eq_ok.mp hdisk, (Except.ok.inj h).symm⟩

theorem appendCreateParent_content {disk disk' : σ} {createIfMissing : Bool} {target : FsPath}
    (h : appendCreateParentIfNeeded w disk createIfMissing target = .ok disk') :
    w.content disk' = w.content disk := by
  unfold appendCreateParentIfNeeded at h
  split at h
  · split at h
    · exact w.createDirAll_ok (mapError_eq_ok.mp h)
    · rw [Except.ok.inj h]
  · rw [Except.ok.inj h]

theorem appendFile_eq_ok {args : AppendFileArgs} (h : appendFile w s args = .ok s') :
    ∃ target disk, trim args.path ≠ [] ∧
      appendResolveTargetPath w s.disk (trim args.path) args.createIfMissing = .ok target ∧
      w.content disk = w.content s.disk ∧
      ((args.dryRun = true ∧ s' = { s with disk }) ∨
        (args.dryRun = false ∧ ∃ body after,
          w.appendTo disk target body args.createIfMissing = .ok after ∧
          s' = ⟨after, s.changelist.recordMutation (trim args.path)
            (w.readToString disk target).toOption (w.readToString after target).toOption⟩)) := by
  obtain ⟨path, hpath, h⟩ := bind_eq_ok.mp h
  obtain ⟨hne, rfl⟩ := pathArg_eq_ok hpath
  obtain ⟨target, htarget, h⟩ := bind_eq_ok.mp h
  obtain ⟨disk, hdisk, h⟩ := bind_eq_ok.mp h
  refine ⟨target, disk, hne, htarget, appendCreateParent_content hdisk, ?_⟩
  split at h
  · next hdry => exact .inl ⟨hdry, (Except.ok.inj h).symm⟩
  · next hdry =>
    obtain ⟨-, -, h⟩ := bind_eq_ok.mp h
    obtain ⟨-, -, h⟩ := bind_eq_ok.mp h
    obtain ⟨after, hafter, h⟩ := bind_eq_ok.mp h
    exact .inr ⟨by simpa using hdry, _, after, mapError_eq_ok.mp hafter, (Except.ok.inj h).symm⟩

theorem modifyFile_eq_ok {path : Str} {mode : ModifyMode} {dryRun skipPrecheck : Bool}
    (h : modifyFile w s path mode dryRun skipPrecheck = .ok s') :
    ∃ target, w.forRead s.disk (trim path) = .ok target ∧
      ((dryRun = true ∧ s' = s) ∨
        (dryRun = false ∧ ∃ text disk, commitText w s.disk target text = .ok disk ∧
          s' = recordFileStateAfterWrite w { s with disk } (trim path)
            (w.readToString s.disk target).toOption)) := by
  obtain ⟨path', hpath, h⟩ := bind_eq_ok.mp h
  obtain ⟨-, rfl⟩ := pathArg_eq_ok hpath
  obtain ⟨target, htarget, h⟩ := bind_eq_ok.mp h
  refine ⟨target, mapError_eq_ok.mp htarget, ?_⟩
  obtain ⟨-, -, h⟩ := bind_eq_ok.mp h
  obtain ⟨-, -, h⟩ := bind_eq_ok.mp h
  obtain ⟨text, -, h⟩ := bind_eq_ok.mp h
  split at h
  · next hdry => exact .inl ⟨hdry, (Except.ok.inj h).symm⟩
  · next hdry =>
    obtain ⟨-, -, h⟩ := bind_eq_ok.mp h
    obtain ⟨disk, hdisk, h⟩ := bind_eq_ok.mp h
    exact .inr ⟨by simpa using hdry, text, disk, mapError_eq_ok.mp hdisk,
      (Except.ok.inj h).symm⟩

theorem searchReplace_eq_ok {path : Str} {edit : Str → Except Str Str}
    {dryRun skipPrecheck : Bool}
    (h : searchReplace w s path edit dryRun skipPrecheck = .ok s') :
    ∃ target content, w.forRead s.disk (trim path) = .ok target ∧
      w.readToString s.disk target = .ok content ∧
      ((dryRun = true ∧ s' = s) ∨
        (dryRun = false ∧ ∃ text disk, commitText w s.disk target text = .ok disk ∧
          s' = recordFileStateAfterWrite w { s with disk } (trim path) (some content))) := by
  obtain ⟨path', hpath, h⟩ := bind_eq_ok.mp h
  obtain ⟨-, rfl⟩ := pathArg_eq_ok hpath
  obtain ⟨target, htarget, h⟩ := bind_eq_ok.mp h
  obtain ⟨-, -, h⟩ := bind_eq_ok.mp h
  obtain ⟨content, hcontent, h⟩ := bind_eq_ok.mp h
  refine ⟨target, content, mapError_eq_ok.mp htarget, mapError_eq_ok.mp hcontent, ?_⟩
  obtain ⟨-, -, h⟩ := bind_eq_ok.mp h
  obtain ⟨text, -, h⟩ := bind_eq_ok.mp h
  obtain ⟨-, -, h⟩ := bind_eq_ok.mp h
  split at h
  · next hdry => exact .inl ⟨hdry, (Except.ok.inj h).symm⟩
  · next hdry =>
    obtain ⟨-, -, h⟩ := bind_eq_ok.mp h
    obtain ⟨disk, hdisk, h⟩ := bind_eq_ok.mp h
    exact .inr ⟨by simpa using hdry, text, disk, mapError_eq_ok.mp hdisk,
      (Except.ok.inj h).symm⟩

theorem checkedPair_eq_ok {source dest : Str} {overwrite : Bool} {notFile same : String}
    {src dst : FsPath} (h : checkedPair w s source dest overwrite notFile same = .ok (src, dst)) :
    w.forRead s.disk source = .ok src ∧ w.isFile s.disk src = true ∧
      w.forWrite s.disk dest = .ok dst := by
  obtain ⟨src', hsrc, h⟩ := bind_eq_ok.mp h
  obtain ⟨_, hfile, h⟩ := bind_eq_ok.mp h
  obtain ⟨dst', hdst, h⟩ := bind_eq_ok.mp h
  obtain ⟨-, -, h⟩ := bind_eq_ok.mp h
  obtain ⟨-, -, h⟩ := bind_eq_ok.mp h
  obtain ⟨rfl, rfl⟩ := Prod.mk.inj (Except.ok.inj h)
  exact ⟨mapError_eq_ok.mp hsrc, by simpa using refuseIf_eq_ok.mp hfile, mapError_eq_ok.mp hdst⟩

theorem copyFile_eq_ok {source dest : Str} {overwrite : Bool}
    (h : copyFile w s source dest overwrite = .ok s') :
    ∃ src dst disk, w.forRead s.disk (trim source) = .ok src ∧
      w.forWrite s.disk (trim dest) = .ok dst ∧ w.copyTo s.disk src dst = .ok disk ∧
      s' = recordFileStateAfterWrite w { s with disk } (trim dest) none := by
  obtain ⟨source', hsource, h⟩ := bind_eq_ok.mp h
  obtain ⟨-, rfl⟩ := pathArg_eq_ok hsource
  obtain ⟨dest', hdest, h⟩ := bind_eq_ok.mp h
  obtain ⟨-, rfl⟩ := pathArg_eq_ok hdest
  obtain ⟨⟨src, dst⟩, hpair, h⟩ := bind_eq_ok.mp h
  obtain ⟨hsrc, -, hdst⟩ := checkedPair_eq_ok hpair
  obtain ⟨disk, hdisk, h⟩ := bind_eq_ok.mp h
  exact ⟨src, dst, disk, hsrc, hdst, mapError_eq_ok.mp hdisk, (Except.ok.inj h).symm⟩

theorem moveFile_eq_ok {source dest : Str} {overwrite : Bool}
    (h : moveFile w s source dest overwrite = .ok s') :
    ∃ src dst disk, w.forRead s.disk (trim source) = .ok src ∧ w.isFile s.disk src = true ∧
      w.forWrite s.disk (trim dest) = .ok dst ∧ w.rename s.disk src dst = .ok disk ∧
      s' = recordFileStateAfterWrite w
        (recordFileStateAfterWrite w { s with disk } (trim source) none) (trim dest) none := by
  obtain ⟨source', hsource, h⟩ := bind_eq_ok.mp h
  obtain ⟨-, rfl⟩ := pathArg_eq_ok hsource
  obtain ⟨dest', hdest, h⟩ := bind_eq_ok.mp h
  obtain ⟨-, rfl⟩ := pathArg_eq_ok hdest
  obtain ⟨⟨src, dst⟩, hpair, h⟩ := bind_eq_ok.mp h
  obtain ⟨hsrc, hfile, hdst⟩ := checkedPair_eq_ok hpair
  obtain ⟨disk, hdisk, h⟩ := bind_eq_ok.mp h
  exact ⟨src, dst, disk, hsrc, hfile, hdst, mapError_eq_ok.mp hdisk, (Except.ok.inj h).symm⟩

theorem distinctPaths_eq_ok {seen raws paths : List Str} (h : distinctPaths seen raws = .ok paths) :
    ∀ p ∈ paths, p ∈ seen ∨ (∃ raw ∈ raws, p = trim raw ∧ p ≠ []) := by
  induction raws generalizing seen with
  | nil =>
    obtain rfl := Except.ok.inj h
    exact fun p hp => .inl hp
  | cons raw raws ih =>
    simp only [distinctPaths] at h
    split at h
    · cases h
    · next hne =>
      intro p hp
      rcases ih h p hp with hseen | ⟨raw', hraw', hp'⟩
      · have hcases : p ∈ seen ∨ p = trim raw := by
          split at hseen
          · exact .inl hseen
          · simpa using hseen
        rcases hcases with hold | rfl
        · exact .inl hold
        · exact .inr ⟨raw, mem_cons_self, rfl, by simpa using hne⟩
      · exact .inr ⟨raw', mem_cons_of_mem _ hraw', hp'⟩

theorem nodup_distinctPaths {seen raws paths : List Str} (h : distinctPaths seen raws = .ok paths)
    (hseen : seen.Nodup) : paths.Nodup := by
  induction raws generalizing seen with
  | nil =>
    obtain rfl := Except.ok.inj h
    exact hseen
  | cons raw raws ih =>
    simp only [distinctPaths] at h
    split at h
    · cases h
    · refine ih h ?_
      split
      · exact hseen
      · next hnew =>
        rw [nodup_append]
        refine ⟨hseen, nodup_singleton _, fun p hp q hq => ?_⟩
        rw [mem_singleton.mp hq]
        rintro rfl
        exact hnew hp

theorem deleteFilesValidate_eq_ok {disk : σ} {paths : List Str} {targets : List (Str × FsPath)}
    (h : deleteFilesValidate w disk paths = .ok targets) :
    targets.map Prod.fst = paths ∧ ∀ t ∈ targets, w.forRead disk t.1 = .ok t.2 := by
  obtain ⟨ts, hts, hfind⟩ := bind_eq_ok.mp h
  have hall := mapM_ok hts
  have heach : ∀ path t, ((w.forRead disk path).mapError WriteError.pathResolveFailed).map
      (fun target => (path, target)) = .ok t → t.1 = path ∧ w.forRead disk t.1 = .ok t.2 := by
    intro path t ht
    cases hread : w.forRead disk path with
    | error e => simp [hread, Except.mapError, Except.map] at ht
    | ok target =>
      simp only [hread, Except.mapError, Except.map, Except.ok.injEq] at ht
      subst ht
      exact ⟨rfl, hread⟩
  have hnames : ts.map Prod.fst = paths := by
    clear h hts hfind
    induction hall with
    | nil => rfl
    | cons hhead _ ih => rw [map_cons, ih, (heach _ _ hhead).1]
  split at hfind
  · cases hfind
  · obtain rfl := Except.ok.inj hfind
    refine ⟨hnames, fun t ht => ?_⟩
    obtain ⟨path, -, hpath⟩ := exists_of_forall₂ hall ht
    exact (heach _ _ hpath).2

theorem deleteFiles_eq_ok {raws : List Str} {confirm : Bool}
    (h : deleteFiles w s raws confirm = .ok s') :
    ∃ targets, (targets.map Prod.fst).Nodup ∧
      (∀ t ∈ targets, (∃ raw ∈ raws, t.1 = trim raw ∧ t.1 ≠ []) ∧
        w.forRead s.disk t.1 = .ok t.2) ∧
      deleteFilesExecute w targets s = (s', []) := by
  obtain ⟨paths, hpaths, h⟩ := bind_eq_ok.mp h
  obtain ⟨-, -, hpaths⟩ := bind_eq_ok.mp (mapError_eq_ok.mp hpaths)
  obtain ⟨paths', hdistinct, hpaths⟩ := bind_eq_ok.mp hpaths
  obtain ⟨-, -, hpaths⟩ := bind_eq_ok.mp hpaths
  obtain ⟨-, -, hpaths⟩ := bind_eq_ok.mp hpaths
  obtain rfl := Except.ok.inj hpaths
  obtain ⟨targets, htargets, h⟩ := bind_eq_ok.mp h
  obtain ⟨hnames, hread⟩ := deleteFilesValidate_eq_ok htargets
  obtain ⟨_, hfailed, h⟩ := bind_eq_ok.mp h
  refine ⟨targets, hnames ▸ nodup_distinctPaths hdistinct nodup_nil,
    fun t ht => ⟨?_, hread t ht⟩, ?_⟩
  · have hmem : t.1 ∈ paths' := hnames ▸ mem_map_of_mem ht
    exact (distinctPaths_eq_ok hdistinct _ hmem).resolve_left not_mem_nil
  · have hnone := refuseIf_eq_ok.mp hfailed
    exact Prod.ext (Except.ok.inj h) (by simpa using hnone)

end Inversion

end CrabMate
