import CrabMate.Index.Invalidation
import CrabMate.Tools.Patch

/-! Which files a write tool changes, and whether the index forgets them. The tools resolve their
own arguments against the file system; the scope of the invalidation is the text of the
arguments. -/
namespace CrabMate
namespace CodebaseIndex

open RustStr LexPath

/-- The tools that take paths and write. -/
inductive WriteTool where
  | createFile
  | modifyFile
  | appendFile
  | searchReplace
  | deleteFiles
  | deleteDir
  | copyFile
  | moveFile
  | applyPatch
  | structured
  deriving DecidableEq

def WriteTool.name : WriteTool → Str
  | .createFile => "create_file".toList
  | .modifyFile => "modify_file".toList
  | .appendFile => "append_file".toList
  | .searchReplace => "search_replace".toList
  | .deleteFiles => "delete_files".toList
  | .deleteDir => "delete_dir".toList
  | .copyFile => "copy_file".toList
  | .moveFile => "move_file".toList
  | .applyPatch => "apply_patch".toList
  | .structured => "structured".toList

/-- What a call meets outside the tools. `forRead` and `forWrite` resolve an argument (the first to
an existing place without links, the second by its text), `resolveForRead` is the first without
the wider access that a session may grant. `opened` is the file that opening a path leads to,
`entered` the directory entry that creating, renaming or unlinking acts on. `before` and `after`
are the contents of the files around the call. -/
structure ToolEnv (P σ : Type) where
  root : List Str
  fromStr : Str → Option JsonValue
  forRead : Str → Option (List Str)
  forWrite : Str → Option (List Str)
  resolveForRead : Str → Option (List Str)
  present : List Str → Bool
  isFile : List Str → Bool
  isDir : List Str → Bool
  opened : List Str → List Str
  entered : List Str → List Str
  crossDevice : List Str → List Str → Bool
  filesBelow : List Str → List (List Str)
  before : List Str → Option (List UInt8)
  after : List Str → Option (List UInt8)
  diffy : Diffy P
  disk : Disk σ
  state : σ
  absolutizeFrom : AbsolutizeFrom

section Writes

variable {P σ : Type} (env : ToolEnv P σ) (v : JsonValue)

def argBool (key : String) (default : Bool) : Bool :=
  ((v.get? key).bind JsonValue.asBool?).getD default

/-- A string argument without the white space around it. -/
def trimmedArg (key : String) : Option Str := ((argStr v key).map trim).filter fun s => !s.isEmpty

/-- The files a call writes or removes, `none` when it fails on its arguments. Checks that come
later can only make a call fail. -/
def createFileWrites : Option (List (List Str)) := do
  let target ← (argStr v "path").bind env.forWrite
  if env.present target then none else some [env.entered target]

def modifyFileWrites : Option (List (List Str)) := do
  let target ← (trimmedArg v "path").bind env.forRead
  if !env.isFile target then none
  else if argBool v "dry_run" true then some [] else some [target]

def appendFileWrites : Option (List (List Str)) := do
  let path ← trimmedArg v "path"
  let target ← if argBool v "create_if_missing" false then env.forWrite path else env.forRead path
  if argBool v "dry_run" true then some [] else some [env.opened target]

def searchReplaceWrites : Option (List (List Str)) := do
  let target ← (trimmedArg v "path").bind env.forRead
  if !env.isFile target then none
  else if argBool v "dry_run" true then some [] else some [target]

def deleteFilesWrites : Option (List (List Str)) := do
  if !argBool v "confirm" false then none
  else
    let paths ← (argStrs v "paths").mapM fun s => s.map trim
    if paths.isEmpty || paths.any fun p => p.isEmpty then none
    else
      let targets ← paths.mapM env.forRead
      if targets.all env.isFile then some targets else none

def deleteDirWrites : Option (List (List Str)) := do
  let path ← trimmedArg v "path"
  if !argBool v "confirm" false then none
  else
    let target ← env.forRead path
    if !env.isDir target || target = env.root then none
    else if argBool v "recursive" false then some (env.filesBelow target)
    -- without `recursive` only an empty directory can be removed
    else if (env.filesBelow target).isEmpty then some [] else none

def copyFileWrites : Option (List (List Str)) := do
  let source ← (trimmedArg v "from").bind env.forRead
  let target ← (trimmedArg v "to").bind env.forWrite
  if !env.isFile source || source = target || env.isDir target then none
  else if env.isFile target && !argBool v "overwrite" false then none
  else some [env.opened target]

def moveFileWrites : Option (List (List Str)) := do
  let source ← (trimmedArg v "from").bind env.forRead
  let target ← (trimmedArg v "to").bind env.forWrite
  if !env.isFile source || source = target || env.isDir target then none
  else if env.isFile target && !argBool v "overwrite" false then none
  else some [source, if env.crossDevice source target then env.opened target
    else env.entered target]

/-- The file an access of the patch tool writes or removes. -/
def accessWrites : Access → Option (List Str)
  | .write path | .remove path => some (env.entered (resolve [] path))
  | _ => none

def applyPatchWrites : Option (List (List Str)) :=
  let strip := ((v.get? "strip").bind JsonValue.asU64?).getD 0
  let ran := runApplyPatch env.diffy env.disk
    ⟨env.root, argBool v "dry_run" false, argStr v "base_revision"⟩ env.absolutizeFrom env.state
    (argStr v "patch") strip
  match ran.result with
  | .error _ => none
  | .ok _ => some (ran.trace.filterMap (accessWrites env))

def structuredWrites : Option (List (List Str)) :=
  if argStr v "action" ≠ some "patch".toList then some []
  else do
    let target ← (trimmedArg v "path").bind env.resolveForRead
    if argBool v "dry_run" true then some [] else some [target]

def toolWrites : WriteTool → Option (List (List Str))
  | .createFile => createFileWrites env v
  | .modifyFile => modifyFileWrites env v
  | .appendFile => appendFileWrites env v
  | .searchReplace => searchReplaceWrites env v
  | .deleteFiles => deleteFilesWrites env v
  | .deleteDir => deleteDirWrites env v
  | .copyFile => copyFileWrites env v
  | .moveFile => moveFileWrites env v
  | .applyPatch => applyPatchWrites env v
  | .structured => structuredWrites env v

end Writes

/-- The index keys of the files whose content a call changed or removed; none for a call that
fails. Other names of a file that is written in place are left out. -/
def changedKeys {P σ : Type} (env : ToolEnv P σ) (tool : WriteTool) (argsJson : Str) : List Str :=
  let writes := ((env.fromStr argsJson).bind fun v => toolWrites env v tool).getD []
  (writes.filter fun p => env.after p ≠ env.before p).filterMap (relPathForWorkspace env.root)

/-- The index after a call, with the scope that its name and arguments give. -/
def indexAfterCall (writeEffectTools : Option (List Str)) (fromStr : Str → Option JsonValue)
    (tool : WriteTool) (argsJson ws : Str) (idx : Index) : Index :=
  match invalidationForToolCall writeEffectTools fromStr tool.name argsJson with
  | none => idx
  | some inv => applyAfterSuccessfulTool ws inv idx

/-- The arguments whose text is taken as a path; for a patch, the names on its old-file lines. -/
def pathArgs (v : JsonValue) : WriteTool → List (Option Str)
  | .createFile | .modifyFile | .appendFile | .searchReplace | .deleteFiles =>
    argStr v "path" :: argStrs v "paths"
  | .deleteDir | .structured => [argStr v "path"]
  | .copyFile | .moveFile => [argStr v "from", argStr v "to"]
  | .applyPatch => (((argStr v "patch").map lines).getD []).filterMap fun line =>
      (invalidationHeaderPath line).map some

/-- The text that stands for a path is the key: for a file, letter by letter; for a deleted
directory, the directory or the one path below it whose name is `%`. -/
def KeyIs (tool : WriteTool) (text rel : Str) : Prop :=
  if tool = .deleteDir then
    rel = trimEndSlash text ∨
      (trimEndSlash text ++ "/%".toList).map Char.toLower = rel.map Char.toLower
  else rel = text

/-- The arguments of a call name a key, or they name nothing at all. -/
def Names (tool : WriteTool) (v : JsonValue) (rel : Str) : Prop :=
  (pathArgs v tool).filterMap scopePath = [] ∨
    ∃ arg ∈ pathArgs v tool, ∃ text, scopePath arg = some text ∧ KeyIs tool text rel

theorem selects_iff_keyIs (tool : WriteTool) (text rel : Str) :
    (RelScope.mk text (decide (tool = .deleteDir))).selects rel = true ↔ KeyIs tool text rel := by
  by_cases htool : tool = .deleteDir
  · simp only [RelScope.selects, KeyIs, htool, decide_true, if_true]
    exact subtreeSelects_iff _ _
  · simp [RelScope.selects, KeyIs, htool]

/-- The scopes of a tool, as its own arm of the source collects them. -/
theorem fillInvalidationScopesForTool_name (tool : WriteTool) (v : JsonValue)
    (htool : tool ≠ .applyPatch) :
    fillInvalidationScopesForTool tool.name v =
      .ok (argScopes (decide (tool = .deleteDir)) (pathArgs v tool)) := by
  have hone : ∀ (key : String) (isDir : Bool),
      pushInvalidationScope [] (argStr v key) isDir = argScopes isDir [argStr v key] :=
    fun key isDir => by rw [pushInvalidationScope_eq, List.nil_append]
  have hfile : InvalScopesFill.ok ((argStrs v "paths").foldl
      (fun scopes s => pushInvalidationScope scopes s false)
      (pushInvalidationScope [] (argStr v "path") false)) =
        .ok (argScopes false (argStr v "path" :: argStrs v "paths")) := by
    rw [foldl_pushInvalidationScope, hone, ← argScopes_cons]
  have htwo : InvalScopesFill.ok (pushInvalidationScope
      (pushInvalidationScope [] (argStr v "from") false) (argStr v "to") false) =
        .ok (argScopes false [argStr v "from", argStr v "to"]) := by
    rw [pushInvalidationScope_eq, hone, ← argScopes_cons]
  cases tool with
  | createFile | modifyFile | appendFile | searchReplace | deleteFiles => exact hfile
  | deleteDir => exact congrArg InvalScopesFill.ok (hone "path" true)
  | structured => exact congrArg InvalScopesFill.ok (hone "path" false)
  | copyFile | moveFile => exact htwo
  | applyPatch => exact absurd rfl htool

theorem invalidation_applyPatch (v : JsonValue) :
    (fillInvalidationScopesForTool WriteTool.applyPatch.name v).invalidation =
      (InvalScopesFill.ok (argScopes false
        ((((argStr v "patch").map patchPathsFromUnifiedDiff).getD []).map some))).invalidation := by
  have hfill : fillInvalidationScopesForTool WriteTool.applyPatch.name v =
      (fun scopes : List RelScope => if scopes.isEmpty then .fullWorkspace else .ok scopes)
        ((((argStr v "patch").map patchPathsFromUnifiedDiff).getD []).foldl
          (fun scopes rel => pushInvalidationScope scopes (some rel) false) []) := rfl
  rw [hfill, ← List.foldl_map (f := some)
    (g := fun scopes s => pushInvalidationScope scopes s false), foldl_pushInvalidationScope]
  cases h : argScopes false
      ((((argStr v "patch").map patchPathsFromUnifiedDiff).getD []).map some) with
  | nil => rfl
  | cons sc scopes => rfl

/-- The names of a patch are those on its old-file lines. -/
theorem mem_pathArgs_applyPatch (v : JsonValue) (arg : Option Str) :
    arg ∈ (((argStr v "patch").map patchPathsFromUnifiedDiff).getD []).map some ↔
      arg ∈ pathArgs v .applyPatch := by
  rw [pathArgs]
  cases argStr v "patch" with
  | none => rfl
  | some patch =>
    simp only [Option.map_some, Option.getD_some, List.mem_map, mem_patchPathsFromUnifiedDiff,
      List.mem_filterMap, Option.map_eq_some_iff]
    constructor
    · rintro ⟨path, ⟨line, hline, hpath⟩, rfl⟩
      exact ⟨line, hline, path, hpath, rfl⟩
    · rintro ⟨line, hline, path, hpath, rfl⟩
      exact ⟨path, ⟨line, hline, hpath⟩, rfl⟩

theorem covers_iff_names (tool : WriteTool) (v : JsonValue) (rel : Str) :
    (fillInvalidationScopesForTool tool.name v).invalidation.Covers rel ↔ Names tool v rel := by
  by_cases htool : tool = .applyPatch
  · subst htool
    rw [invalidation_applyPatch, covers_argScopes, Names]
    simp only [List.filterMap_eq_nil_iff, mem_pathArgs_applyPatch]
    simp only [← selects_iff_keyIs]
    rfl
  · rw [fillInvalidationScopesForTool_name tool v htool, covers_argScopes, Names]
    simp only [selects_iff_keyIs]

/-- A tool of the list is never one of those that give up the whole workspace by their name. -/
theorem invalidationForToolCall_name (writeEffectTools : Option (List Str))
    (fromStr : Str → Option JsonValue) (tool : WriteTool) (argsJson : Str) :
    invalidationForToolCall writeEffectTools fromStr tool.name argsJson =
      if isReadonlyTool writeEffectTools tool.name then none
      else (fromStr argsJson).map fun v =>
        (fillInvalidationScopesForTool tool.name v).invalidation := by
  have hname : ¬(tool.name = "run_command".toList ∨ tool.name = "workflow_execute".toList ∨
      tool.name = "http_request".toList ∨ startsWith "git_".toList tool.name = true) := by
    cases tool <;> decide
  rw [invalidationForToolCall, if_neg hname]

theorem gone_indexAfterCall {fromStr : Str → Option JsonValue} {argsJson : Str} {v : JsonValue}
    (hv : fromStr argsJson = some v) (writeEffectTools : Option (List Str)) (tool : WriteTool)
    (ws rel : Str) (idx : Index) :
    (indexAfterCall writeEffectTools fromStr tool argsJson ws idx).Gone (ws, rel) ↔
      idx.Gone (ws, rel) ∨
        (isReadonlyTool writeEffectTools tool.name = false ∧ Names tool v rel) := by
  rw [indexAfterCall, invalidationForToolCall_name, hv]
  cases isReadonlyTool writeEffectTools tool.name with
  | true => simp
  | false =>
    simp only [Bool.false_eq_true, if_false, Option.map_some, gone_applyAfterSuccessfulTool,
      covers_iff_names, true_and]
    exact or_comm

/-- The index forgets every file a call changed exactly when each of them had no rows or the tool
counts as writing and its arguments spell the key of the file. -/
theorem index_forgets_changed_files_iff {P σ : Type} (env : ToolEnv P σ)
    (writeEffectTools : Option (List Str)) (tool : WriteTool) (argsJson ws : Str) (idx : Index) :
    (∀ rel ∈ changedKeys env tool argsJson,
      (indexAfterCall writeEffectTools env.fromStr tool argsJson ws idx).Gone (ws, rel)) ↔
    ∀ rel ∈ changedKeys env tool argsJson, idx.Gone (ws, rel) ∨
      (isReadonlyTool writeEffectTools tool.name = false ∧
        ∃ v, env.fromStr argsJson = some v ∧ Names tool v rel) := by
  refine forall₂_congr fun rel hrel => ?_
  cases hv : env.fromStr argsJson with
  | none => simp [changedKeys, hv] at hrel
  | some v =>
    rw [gone_indexAfterCall hv]
    simp

namespace SrcDeleted

def argsJson : Str := "\x7b\"path\":\"src\",\"recursive\":true,\"confirm\":true\x7d".toList

def args : JsonValue :=
  .obj [("path", .str "src"), ("recursive", .bool true), ("confirm", .bool true)]

def libFile : List Str := ["w", "src", "lib.rs"].map String.toList

/-- A workspace `/w` without links, whose one file is `src/lib.rs`. -/
def env : ToolEnv Unit Unit where
  root := ["w".toList]
  fromStr := fun s => if s = argsJson then some args else none
  forRead := fun s => if s = "src".toList then some ["w".toList, s] else none
  forWrite := fun s => some ["w".toList, s]
  resolveForRead := fun s => if s = "src".toList then some ["w".toList, s] else none
  present := fun p => p.isPrefixOf libFile
  isFile := fun p => p = libFile
  isDir := fun p => p.isPrefixOf libFile && p ≠ libFile
  opened := id
  entered := id
  crossDevice := fun _ _ => false
  filesBelow := fun p => if p.isPrefixOf libFile then [libFile] else []
  before := fun p => if p = libFile then some ("fn f() \x7b\x7d".toUTF8.toList) else none
  after := fun _ => none
  diffy := ⟨fun _ => .error [], fun _ _ => .error []⟩
  disk := ⟨fun _ _ => false, fun _ _ => .error [], fun _ _ => .error [], fun _ _ => false,
    fun _ _ => .error [], fun _ _ _ => .error [], fun _ _ => .error [], fun _ _ => (),
    fun _ _ => .error []⟩
  state := ()
  absolutizeFrom := fun root sub => resolve root (components sub)

/-- The index with the rows of `src/lib.rs`. -/
def idx : Index :=
  Index.empty.insertRows [⟨"/w".toList, "src/lib.rs".toList, 1, 1, "fn f() \x7b\x7d".toList, []⟩]
    [⟨"/w".toList, "src/lib.rs".toList, 9, 1, []⟩]

end SrcDeleted

open SrcDeleted in
/-- After `delete_dir` of `src` the rows of `src/lib.rs` are still there. -/
theorem delete_dir_keeps_rows_below :
    ¬∀ rel ∈ changedKeys env .deleteDir argsJson,
      (indexAfterCall none env.fromStr .deleteDir argsJson "/w".toList idx).Gone
        ("/w".toList, rel) := by
  decide +kernel

end CodebaseIndex
end CrabMate
