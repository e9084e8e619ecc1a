import CrabMate.Index.Chunks
import CrabMate.Index.Rows
import CrabMate.Lib.Utf8

/-! The rebuild of the code index: the rows of the call's scope are cleared, the files are walked,
and the rows of the walked files are written, all in one transaction. The walker and the file
system are parameters of a call; the vector column of the chunk rows is left out. -/
namespace CrabMate
namespace CodebaseIndex

open RustStr

/-- A regular file that the walker yields, under its path from the file system root; `bytes` is
`none` when the file cannot be read. -/
structure WalkedFile where
  path : List Str
  bytes : Option (List UInt8)
  mtimeNs : ℤ
  deriving DecidableEq

/-- What one call sees of the file system: where a path below the workspace root leads, and the
files the walker yields from a root. -/
structure FileTree where
  canonicalize : Str → Except Str (List Str)
  walk : List Str → List WalkedFile

structure RebuildConfig where
  wsRoot : List Str
  wsKey : Str
  indexPath : Str
  maxFileBytes : ℕ
  chunkMaxChars : ℕ
  rebuildMaxFiles : ℕ
  extSet : List Str
  sha256 : Str → Str

structure RebuildCall where
  subPath : Option Str
  fileGlobPat : Option (Str → Bool)
  incremental : Bool

structure Fingerprint where
  size : ℕ
  mtimeNs : ℤ
  text : Str
  shaHex : Str

def fileFingerprint (cfg : RebuildConfig) (file : WalkedFile) : Option Fingerprint :=
  match file.bytes with
  | none => none
  | some bytes =>
    if cfg.maxFileBytes < bytes.length then none
    else (Utf8.fromUtf8 bytes).map fun text =>
      ⟨bytes.length, file.mtimeNs, text, cfg.sha256 text⟩

def hashChunk (cfg : RebuildConfig) (rel body : Str) : Str :=
  cfg.sha256 (rel ++ Char.ofNat 0 :: body)

structure EmbedBatchRow where
  rel : Str
  hash : Str
  chunk : TextChunk

def EmbedBatchRow.row (ws : Str) (b : EmbedBatchRow) : ChunkRow :=
  ⟨ws, b.rel, b.chunk.startLine, b.chunk.endLine, b.chunk.body, b.hash⟩

structure ScanParams where
  cfg : RebuildConfig
  fileGlobPat : Option (Str → Bool)
  incremental : Bool
  subtree : Bool
  catalog : List FileRow

/-- Rows are compared with the catalog, and deleted file by file. -/
def ScanParams.tracks (p : ScanParams) : Bool := p.incremental && !p.subtree

structure ScanState where
  index : Index
  filesIndexed : ℕ
  filesUnchanged : ℕ
  skippedFiles : ℕ
  embedBatches : List EmbedBatchRow
  seenRels : List Str
  fileRows : List FileRow

def ScanState.start (idx : Index) : ScanState := ⟨idx, 0, 0, 0, [], [], []⟩

def deleteRowsForRel (ws rel : Str) (idx : Index) : Index := idx.deleteWhere fun k => k = (ws, rel)

/-- The deletion of a file's rows that only the comparing mode makes. -/
def ScanState.dropTracked (p : ScanParams) (rel : Str) (st : ScanState) : ScanState :=
  if p.tracks then { st with index := deleteRowsForRel p.cfg.wsKey rel st.index } else st

def scanRebuildHandleMissingFingerprint (p : ScanParams) (rel : Str) (st : ScanState) :
    ScanState :=
  let st := st.dropTracked p rel
  { st with skippedFiles := st.skippedFiles + 1 }

def scanRebuildIncrementalUnchanged (p : ScanParams) (rel : Str) (fp : Fingerprint) : Bool :=
  p.tracks && match p.catalog.find? fun row => row.relPath = rel with
  | none => false
  | some row =>
    row.size == fp.size && (row.mtimeNs == fp.mtimeNs && row.contentSha256 == fp.shaHex)

def scanRebuildCollectFileChunks (cfg : RebuildConfig) (rel text : Str) : List EmbedBatchRow :=
  ((chunkTextLines text cfg.chunkMaxChars).filter fun chunk => 8 ≤ chunk.body.length).map
    fun chunk => ⟨rel, hashChunk cfg rel chunk.body, chunk⟩

def scanRebuildFinalizeChunksOutcome (p : ScanParams) (rel : Str) (fp : Fingerprint)
    (fileChunks : ℕ) (st : ScanState) : ScanState :=
  if 0 < fileChunks then
    { st with
      filesIndexed := st.filesIndexed + 1
      fileRows := st.fileRows ++ [⟨p.cfg.wsKey, rel, fp.size, fp.mtimeNs, fp.shaHex⟩] }
  else
    let st := st.dropTracked p rel
    { st with skippedFiles := st.skippedFiles + 1 }

def scanRebuildProcessOneFile (p : ScanParams) (file : WalkedFile) (rel : Str) (st : ScanState) :
    ScanState :=
  match fileFingerprint p.cfg file with
  | none => scanRebuildHandleMissingFingerprint p rel st
  | some fp =>
    if scanRebuildIncrementalUnchanged p rel fp then
      { st with filesUnchanged := st.filesUnchanged + 1 }
    else
      let st := st.dropTracked p rel
      if p.cfg.rebuildMaxFiles ≤ st.filesIndexed then
        { st with skippedFiles := st.skippedFiles + 1 }
      else
        let chunks := scanRebuildCollectFileChunks p.cfg rel fp.text
        scanRebuildFinalizeChunksOutcome p rel fp chunks.length
          { st with embedBatches := st.embedBatches ++ chunks }

/-- `Path::extension` of a file name. -/
def extension (name : Str) : Option Str :=
  let ext := name.rtakeWhile fun c => c ≠ '.'
  if name.length ≤ ext.length + 1 then none else some ext

/-- The checks at the head of the scan loop; a file that passes them goes on under its key. -/
def scanRebuildEntry (cfg : RebuildConfig) (fileGlobPat : Option (Str → Bool))
    (file : WalkedFile) : Option Str :=
  let name := file.path.getLast?.getD []
  if fileGlobPat.any fun pat => !pat name then none
  else
    let ext := ((extension name).getD []).map Char.toLower
    if ext.isEmpty || !cfg.extSet.contains ext then none
    else relPathForWorkspace cfg.wsRoot file.path

def scanRebuildStep (p : ScanParams) (st : ScanState) (file : WalkedFile) : ScanState :=
  match scanRebuildEntry p.cfg p.fileGlobPat file with
  | none => st
  | some rel =>
    scanRebuildProcessOneFile p file rel { st with seenRels := st.seenRels ++ [rel] }

def scanRebuildFiles (p : ScanParams) (files : List WalkedFile) (idx : Index) : ScanState :=
  files.foldl (scanRebuildStep p) (.start idx)

def resolveRebuildSearchRoot (cfg : RebuildConfig) (tree : FileTree) :
    Option Str → Except Str (List Str)
  | none => .ok cfg.wsRoot
  | some s =>
    if s = ['.'] then .ok cfg.wsRoot
    else if startsWith ['/'] s then .error "path 必须为相对于工作区的相对路径".toList
    else
      match tree.canonicalize s with
      | .error e => .error ("path 无法解析: ".toList ++ e)
      | .ok canon =>
        if cfg.wsRoot.isPrefixOf canon then .ok canon
        else .error "path 不能超出工作区根目录".toList

def RebuildCall.deleteScope (call : RebuildCall) : Option Str :=
  call.subPath.bind posixSubdirPrefixForDelete

/-- Clears the rows the call is to write anew; the flag says that it is a call of a sub-path. -/
def clearRebuildScopeRows (cfg : RebuildConfig) (call : RebuildCall) (idx : Index) :
    Index × Bool :=
  match call.deleteScope with
  | none => (if call.incremental then idx else idx.deleteWhere fun k => k.1 = cfg.wsKey, false)
  | some dir => (idx.deleteWhere fun k => k.1 = cfg.wsKey && subtreeSelects dir k.2, true)

def loadIncrementalCatalog (cfg : RebuildConfig) (incremental subtree : Bool) (idx : Index) :
    List FileRow :=
  if !incremental || subtree then []
  else idx.files.rows.filter fun row => row.workspaceRoot = cfg.wsKey

def removeStaleCatalogRows (p : ScanParams) (seenRels : List Str) (idx : Index) : Index :=
  if !p.incremental || p.subtree then idx
  else
    ((p.catalog.map FileRow.relPath).filter fun rel => !seenRels.contains rel).foldl
      (fun idx rel => deleteRowsForRel p.cfg.wsKey rel idx) idx

def rebuildIndexWriteScan (cfg : RebuildConfig) (call : RebuildCall) (files : List WalkedFile)
    (subtree : Bool) (idx : Index) : Index × ScanState :=
  let p : ScanParams :=
    ⟨cfg, call.fileGlobPat, call.incremental, subtree,
      loadIncrementalCatalog cfg call.incremental subtree idx⟩
  let scan := scanRebuildFiles p files idx
  let idx := removeStaleCatalogRows p scan.seenRels scan.index
  (idx.insertRows (scan.embedBatches.map (EmbedBatchRow.row cfg.wsKey)) scan.fileRows, scan)

def decimal (n : ℕ) : Str := (toString n).toList

def rebuildModeNote (subtree incremental : Bool) (filesUnchanged : ℕ) : Str :=
  if subtree then "模式：子树全量重嵌入（已清空该子树目录表与块）。".toList
  else if incremental then
    "模式：整库增量（mtime+size+SHA256 未变的文件跳过嵌入；未再出现的文件已删块与目录行）。未改文件数：".toList ++
      decimal filesUnchanged
  else "模式：整库全量（已清空向量块与文件目录后重建）。".toList

def formatRebuildSuccessMessage (cfg : RebuildConfig) (call : RebuildCall) (subtree : Bool)
    (scan : ScanState) : Str :=
  let scopeNote :=
    match call.deleteScope with
    | none => "范围：整库（未指定 path 或 path 为 .）".toList
    | some dir => "范围：子树 `".toList ++ dir ++ "`（其余路径索引保留）".toList
  "代码语义索引已重建。\n索引文件：".toList ++ cfg.indexPath ++ "\n工作区键：".toList ++ cfg.wsKey ++
    '\n' :: scopeNote ++ '\n' :: rebuildModeNote subtree call.incremental scan.filesUnchanged ++
    "\n已嵌入文件数（本趟；上限 ".toList ++ decimal cfg.rebuildMaxFiles ++ "）：".toList ++
    decimal scan.filesIndexed ++ "\n文本块数（本趟写入）：".toList ++
    decimal scan.embedBatches.length ++ "\n跳过/超限/未产生块：".toList ++
    decimal scan.skippedFiles ++
    ("\n提示：大仓可调高 codebase_semantic_rebuild_max_files 或缩小 path/extensions；" ++
      "整库默认增量见 codebase_semantic_rebuild_incremental；强制全量可传 incremental:false。").toList

/-- One call of `rebuild_index`. An error rolls the transaction back. -/
def rebuildIndexInOpenDb (cfg : RebuildConfig) (tree : FileTree) (call : RebuildCall)
    (idx : Index) : Except Str (Index × Str) :=
  match resolveRebuildSearchRoot cfg tree call.subPath with
  | .error e => .error e
  | .ok searchRoot =>
    let cleared := clearRebuildScopeRows cfg call idx
    let written := rebuildIndexWriteScan cfg call (tree.walk searchRoot) cleared.2 cleared.1
    .ok (written.1, formatRebuildSuccessMessage cfg call cleared.2 written.2)

end CodebaseIndex
end CrabMate
