import CrabMate.Index.Chunks
import CrabMate.Index.Rows
import CrabMate.Lib.Json
import CrabMate.Tools.WriteEffect
import Mathlib.Data.Char
import Mathlib.Data.List.Lex
import Mathlib.Data.List.Sort

/-! What a write tool makes the code index forget. The scope is worked out again from the name and
the arguments of the call, apart from the tool, and its rows are deleted from both tables. -/
namespace CrabMate
open List
namespace CodebaseIndex

open RustStr

/-- A path of the workspace; with `isDir` the paths below it are meant too. -/
structure RelScope where
  path : Str
  isDir : Bool
  deriving DecidableEq

inductive SemanticInvalidation where
  | fullWorkspace
  | relScopes (scopes : List RelScope)
  deriving DecidableEq

def isReadonlyTool (writeEffectTools : Option (List Str)) (name : Str) : Bool :=
  let writes := writeEffectTools.getD builtinWriteEffectTools
  if startsWith "mcp__".toList name || startsWith "tool_".toList name then false
  else !writes.contains name

/-- A string argument of the call. -/
def argStr (v : JsonValue) (key : String) : Option Str :=
  ((v.get? key).bind JsonValue.asStr?).map String.toList

/-- The string elements of an array argument. -/
def argStrs (v : JsonValue) (key : String) : List (Option Str) :=
  match (v.get? key).bind JsonValue.asArr? with
  | none => []
  | some xs => xs.map fun x => x.asStr?.map String.toList

/-- The path under which an argument enters the scope. -/
def scopePath (s : Option Str) : Option Str :=
  ((s.map trim).filter fun t => !t.isEmpty).map replaceBackslash

def pushInvalidationScope (scopes : List RelScope) (s : Option Str) (isDir : Bool) :
    List RelScope :=
  match scopePath s with
  | none => scopes
  | some path => scopes ++ [⟨path, isDir⟩]

inductive InvalScopesFill where
  | ok (scopes : List RelScope)
  | fullWorkspace

def fillDirPathTools (name : Str) (v : JsonValue) : Option InvalScopesFill :=
  if name = "delete_dir".toList ∨ name = "create_dir".toList then
    some (.ok (pushInvalidationScope [] (argStr v "path") true))
  else none

def isFilePathArgTool (name : Str) : Bool :=
  (["create_file", "modify_file", "delete_files", "append_file", "search_replace",
    "read_binary_meta"].map String.toList).contains name

def fillFilePathArgTools (name : Str) (v : JsonValue) : Option InvalScopesFill :=
  if isFilePathArgTool name then
    some (.ok ((argStrs v "paths").foldl (fun scopes s => pushInvalidationScope scopes s false)
      (pushInvalidationScope [] (argStr v "path") false)))
  else none

def fillCopyMoveTools (name : Str) (v : JsonValue) : Option InvalScopesFill :=
  if name = "copy_file".toList ∨ name = "move_file".toList then
    some (.ok (pushInvalidationScope (pushInvalidationScope [] (argStr v "from") false)
      (argStr v "to") false))
  else none

/-- `Vec::dedup_by`: an element goes when it equals the last one that stayed. -/
def dedupAfter {α : Type} (same : α → α → Bool) (last : α) : List α → List α
  | [] => []
  | x :: xs => if same x last then dedupAfter same last xs else x :: dedupAfter same x xs

def dedupBy {α : Type} (same : α → α → Bool) : List α → List α
  | [] => []
  | x :: xs => x :: dedupAfter same x xs

/-- The path of an old-file header, as it is read for the index. -/
def invalidationHeaderPath (line : Str) : Option Str :=
  (stripPrefix? "--- ".toList (trim line)).bind fun rest =>
    let part := (splitWhitespace rest).head?.getD rest
    let part := (stripPrefix? "a/".toList part).getD part
    if part = "/dev/null".toList || part.isEmpty then none
    else if startsWith "b/".toList part then none
    else some (replaceBackslash part)

def patchPathsFromUnifiedDiff (patch : Str) : List Str :=
  dedupBy (fun a b => a == b)
    (((lines patch).filterMap invalidationHeaderPath).insertionSort fun a b => a ≤ b)

def fillApplyPatchTool (name : Str) (v : JsonValue) : Option InvalScopesFill :=
  if name = "apply_patch".toList then
    let rels := ((argStr v "patch").map patchPathsFromUnifiedDiff).getD []
    let scopes := rels.foldl (fun scopes rel => pushInvalidationScope scopes (some rel) false) []
    some (if scopes.isEmpty then .fullWorkspace else .ok scopes)
  else none

def fillStructuredDocTools (name : Str) (v : JsonValue) : Option InvalScopesFill :=
  if name = "structured".toList ∨ name = "markdown_check_links".toList then
    let scopes := pushInvalidationScope [] (argStr v "path") false
    some (.ok (if name = "markdown_check_links".toList then
      (argStrs v "roots").foldl (fun scopes s => pushInvalidationScope scopes s false) scopes
      else scopes))
  else none

def fillInvalidationScopesForTool (name : Str) (v : JsonValue) : InvalScopesFill :=
  ((((fillDirPathTools name v).or (fillFilePathArgTools name v)).or (fillCopyMoveTools name v)).or
    (fillApplyPatchTool name v)).or (fillStructuredDocTools name v) |>.getD .fullWorkspace

/-- The scopes in the order of their paths, each path once. The flag that a second scope of the
same path would add goes with that scope. -/
def sortedScopes (scopes : List RelScope) : List RelScope :=
  dedupBy (fun a b => a.path == b.path) (scopes.insertionSort fun a b => a.path ≤ b.path)

/-- Scopes that name nothing stand for the whole workspace. -/
def InvalScopesFill.invalidation : InvalScopesFill → SemanticInvalidation
  | .fullWorkspace => .fullWorkspace
  | .ok scopes =>
    if (sortedScopes scopes).isEmpty then .fullWorkspace else .relScopes (sortedScopes scopes)

/-- The scope of a call; `none` for a tool without effects and for arguments that are no JSON. -/
def invalidationForToolCall (writeEffectTools : Option (List Str))
    (fromStr : Str → Option JsonValue) (name argsJson : Str) : Option SemanticInvalidation :=
  if isReadonlyTool writeEffectTools name then none
  else if name = "run_command".toList ∨ name = "workflow_execute".toList ∨
      name = "http_request".toList ∨ startsWith "git_".toList name then some .fullWorkspace
  else
    (fromStr argsJson).map fun v => (fillInvalidationScopesForTool name v).invalidation

def trimEndSlash (s : Str) : Str := s.rdropWhile fun c => c = '/'

/-- The condition of the `DELETE` for a scope. -/
def RelScope.selects (sc : RelScope) (rel : Str) : Bool :=
  if sc.isDir then subtreeSelects (trimEndSlash sc.path) rel else rel == sc.path

def deleteOneRelScope (ws : Str) (idx : Index) (sc : RelScope) : Index :=
  idx.deleteWhere fun k => k.1 = ws && sc.selects k.2

def applyAfterSuccessfulTool (ws : Str) (inv : SemanticInvalidation) (idx : Index) : Index :=
  match inv with
  | .fullWorkspace => idx.deleteWhere fun k => k.1 = ws
  | .relScopes scopes => scopes.foldl (deleteOneRelScope ws) idx

/-- No row of either table has the key. -/
def Index.Gone (idx : Index) (k : RowKey) : Prop := idx.chunksAt k = [] ∧ idx.fileAt k = none

instance (idx : Index) (k : RowKey) : Decidable (idx.Gone k) := inferInstanceAs (Decidable (_ ∧ _))

theorem gone_deleteWhere (idx : Index) (p : RowKey → Bool) (k : RowKey) :
    (idx.deleteWhere p).Gone k ↔ p k = true ∨ idx.Gone k := by
  rw [Index.Gone, Index.chunksAt_deleteWhere, Index.fileAt_deleteWhere]
  by_cases hp : p k = true
  · simp [hp]
  · simp [hp, Index.Gone]

/-- The paths of the workspace whose rows an invalidation deletes. -/
def SemanticInvalidation.Covers (inv : SemanticInvalidation) (rel : Str) : Prop :=
  match inv with
  | .fullWorkspace => True
  | .relScopes scopes => ∃ sc ∈ scopes, sc.selects rel = true

theorem gone_foldl_deleteOneRelScope (ws rel : Str) (scopes : List RelScope) (idx : Index) :
    (scopes.foldl (deleteOneRelScope ws) idx).Gone (ws, rel) ↔
      (∃ sc ∈ scopes, sc.selects rel = true) ∨ idx.Gone (ws, rel) := by
  induction scopes generalizing idx with
  | nil => simp
  | cons sc scopes ih =>
    have hone : (deleteOneRelScope ws idx sc).Gone (ws, rel) ↔
        sc.selects rel = true ∨ idx.Gone (ws, rel) := by
      rw [deleteOneRelScope, gone_deleteWhere]
      simp
    rw [foldl_cons, ih, hone, exists_mem_cons_iff, or_left_comm, or_assoc]

theorem gone_applyAfterSuccessfulTool (ws rel : Str) (inv : SemanticInvalidation) (idx : Index) :
    (applyAfterSuccessfulTool ws inv idx).Gone (ws, rel) ↔ inv.Covers rel ∨ idx.Gone (ws, rel) := by
  cases inv with
  | fullWorkspace =>
    rw [applyAfterSuccessfulTool, gone_deleteWhere]
    simp [SemanticInvalidation.Covers]
  | relScopes scopes => exact gone_foldl_deleteOneRelScope ws rel scopes idx

/-! Sorting and `dedup_by` lose no scope as long as one path has one flag. -/

theorem mem_dedupAfter {α : Type} {same : α → α → Bool} {last x : α} {xs : List α}
    (h : ∀ a ∈ last :: xs, ∀ b ∈ last :: xs, same a b = true → a = b) :
    x = last ∨ x ∈ dedupAfter same last xs ↔ x = last ∨ x ∈ xs := by
  induction xs generalizing last with
  | nil => rfl
  | cons y ys ih =>
    rw [dedupAfter]
    by_cases hy : same y last = true
    · have heq : y = last := h y (by simp) last (by simp) hy
      subst heq
      rw [if_pos hy, ih fun a ha b hb => h a (by simp_all) b (by simp_all), mem_cons]
      exact or_self_left.symm
    · rw [if_neg hy, mem_cons, mem_cons,
        ih fun a ha b hb => h a (mem_cons_of_mem _ ha) b (mem_cons_of_mem _ hb)]

theorem mem_dedupBy {α : Type} {same : α → α → Bool} {x : α} {xs : List α}
    (h : ∀ a ∈ xs, ∀ b ∈ xs, same a b = true → a = b) : x ∈ dedupBy same xs ↔ x ∈ xs := by
  cases xs with
  | nil => rfl
  | cons y ys =>
    rw [dedupBy, mem_cons, mem_cons]
    exact mem_dedupAfter h

theorem mem_patchPathsFromUnifiedDiff (patch path : Str) :
    path ∈ patchPathsFromUnifiedDiff patch ↔
      ∃ line ∈ lines patch, invalidationHeaderPath line = some path := by
  rw [patchPathsFromUnifiedDiff, mem_dedupBy fun a _ b _ => beq_iff_eq.mp, mem_insertionSort,
    mem_filterMap]

/-- The scopes that a list of arguments gives. -/
def argScopes (isDir : Bool) (args : List (Option Str)) : List RelScope :=
  (args.filterMap scopePath).map fun path => ⟨path, isDir⟩

theorem argScopes_cons (isDir : Bool) (s : Option Str) (args : List (Option Str)) :
    argScopes isDir (s :: args) = argScopes isDir [s] ++ argScopes isDir args := by
  rw [argScopes, argScopes, argScopes, ← map_append, ← filterMap_append]
  rfl

theorem pushInvalidationScope_eq (scopes : List RelScope) (s : Option Str) (isDir : Bool) :
    pushInvalidationScope scopes s isDir = scopes ++ argScopes isDir [s] := by
  rw [pushInvalidationScope, argScopes]
  cases h : scopePath s <;> simp [h]

theorem foldl_pushInvalidationScope (scopes : List RelScope) (args : List (Option Str))
    (isDir : Bool) :
    args.foldl (fun scopes s => pushInvalidationScope scopes s isDir) scopes =
      scopes ++ argScopes isDir args := by
  induction args generalizing scopes with
  | nil => simp [argScopes]
  | cons s args ih =>
    rw [foldl_cons, ih, pushInvalidationScope_eq, append_assoc, ← argScopes_cons]

theorem mem_sortedScopes_argScopes (isDir : Bool) (args : List (Option Str)) (sc : RelScope) :
    sc ∈ sortedScopes (argScopes isDir args) ↔ sc ∈ argScopes isDir args := by
  rw [sortedScopes, mem_dedupBy, mem_insertionSort]
  intro a ha b hb hab
  rw [mem_insertionSort, argScopes, mem_map] at ha hb
  obtain ⟨pa, _, rfl⟩ := ha
  obtain ⟨pb, _, rfl⟩ := hb
  have hpath : pa = pb := beq_iff_eq.mp hab
  rw [hpath]

theorem isEmpty_sortedScopes_argScopes (isDir : Bool) (args : List (Option Str)) :
    (sortedScopes (argScopes isDir args)).isEmpty = true ↔ args.filterMap scopePath = [] := by
  rw [List.isEmpty_iff, eq_nil_iff_forall_not_mem]
  simp only [mem_sortedScopes_argScopes]
  rw [← eq_nil_iff_forall_not_mem, argScopes, map_eq_nil_iff]

theorem covers_argScopes (isDir : Bool) (args : List (Option Str)) (rel : Str) :
    (InvalScopesFill.ok (argScopes isDir args)).invalidation.Covers rel ↔
      args.filterMap scopePath = [] ∨
        ∃ arg ∈ args, ∃ text, scopePath arg = some text ∧
          (RelScope.mk text isDir).selects rel = true := by
  rw [InvalScopesFill.invalidation]
  by_cases hnil : args.filterMap scopePath = []
  · rw [if_pos ((isEmpty_sortedScopes_argScopes isDir args).mpr hnil)]
    simp [SemanticInvalidation.Covers, hnil]
  · rw [if_neg (mt (isEmpty_sortedScopes_argScopes isDir args).mp hnil)]
    simp only [SemanticInvalidation.Covers, mem_sortedScopes_argScopes, hnil, false_or]
    simp only [argScopes, mem_map, mem_filterMap]
    constructor
    · rintro ⟨_, ⟨text, ⟨arg, harg, htext⟩, rfl⟩, hsel⟩
      exact ⟨arg, harg, text, htext, hsel⟩
    · rintro ⟨arg, harg, text, htext, hsel⟩
      exact ⟨_, ⟨text, ⟨arg, harg, htext⟩, rfl⟩, hsel⟩

end CodebaseIndex
end CrabMate
