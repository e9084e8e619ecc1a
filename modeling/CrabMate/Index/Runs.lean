import CrabMate.Index.Sync
import Mathlib.Data.Set.Insert

/-! Runs of rebuild calls, with any change of the files between them. After a call the rows of its
scope should be those of a full rebuild into an empty index, and the other rows should be left
alone. A call of a sub-path does that when its `DELETE` selects the catalog rows of the scope and
no others, and its walk sees what the whole walk sees there. -/
namespace CrabMate
namespace CodebaseIndex

open RustStr

section Scope

variable (cfg : RebuildConfig)

/-- The paths at and below the directory or file that the call's path leads to. -/
def inScope (root : List Str) (r : Str) : Bool :=
  if root = cfg.wsRoot then true
  else
    match relPathForWorkspace cfg.wsRoot root with
    | none => false
    | some top => r == top || (top ++ ['/']).isPrefixOf r

/-- The files of the whole workspace that the call's filters let through. -/
def wholeEntries (tree : FileTree) (call : RebuildCall) : List Entry :=
  entries cfg call.fileGlobPat (tree.walk cfg.wsRoot)

/-- The rows of the scope are those of a full rebuild into an empty index, a file that is not there
any more has none, and the rows outside the scope are as they were. -/
def AsFresh (tree : FileTree) (call : RebuildCall) (idx idx' : Index) : Prop :=
  ∃ root fresh note,
    resolveRebuildSearchRoot cfg tree call.subPath = .ok root ∧
    rebuildIndexInOpenDb cfg tree ⟨none, call.fileGlobPat, false⟩ Index.empty = .ok (fresh, note) ∧
    (∀ r, inScope cfg root r = true →
      idx'.chunksAt (cfg.wsKey, r) = fresh.chunksAt (cfg.wsKey, r)) ∧
    (∀ r, inScope cfg root r = true → r ∉ (wholeEntries cfg tree call).map Prod.fst →
      idx'.chunksAt (cfg.wsKey, r) = [] ∧ idx'.fileAt (cfg.wsKey, r) = none) ∧
    ∀ k : RowKey, (k.1 = cfg.wsKey → inScope cfg root k.2 = false) →
      idx'.chunksAt k = idx.chunksAt k ∧ idx'.fileAt k = idx.fileAt k

/-- The workspace has at most `rebuild_max_files` files, and their contents are among `texts`. -/
def WithinLimits (texts : Set Str) (tree : FileTree) (call : RebuildCall) : Prop :=
  (wholeEntries cfg tree call).length ≤ cfg.rebuildMaxFiles ∧
    ∀ e ∈ wholeEntries cfg tree call, ∀ fp ∈ fileFingerprint cfg e.2, fp.text ∈ texts

/-- For a call of a sub-path, the `DELETE` and the walk are about the files of the scope. -/
def ScopeMatches (idx : Index) (tree : FileTree) (call : RebuildCall) (root : List Str) : Prop :=
  match call.deleteScope with
  | none => root = cfg.wsRoot
  | some dir =>
    (entries cfg call.fileGlobPat (tree.walk root)).Perm
        ((wholeEntries cfg tree call).filter fun e => inScope cfg root e.1) ∧
      ∀ row ∈ idx.files.rows, row.workspaceRoot = cfg.wsKey →
        subtreeSelects dir row.relPath = inScope cfg root row.relPath

/-- The condition on a call: different files have different keys, and the scope matches. -/
def CallMatches (idx : Index) (tree : FileTree) (call : RebuildCall) : Prop :=
  ((wholeEntries cfg tree call).map Prod.fst).Nodup ∧
    match resolveRebuildSearchRoot cfg tree call.subPath with
    | .error _ => True
    | .ok root => ScopeMatches cfg idx tree call root

instance (texts : Set Str) [DecidablePred (· ∈ texts)] (tree : FileTree) (call : RebuildCall) :
    Decidable (WithinLimits cfg texts tree call) := by
  unfold WithinLimits
  infer_instance

instance (idx : Index) (tree : FileTree) (call : RebuildCall) (root : List Str) :
    Decidable (ScopeMatches cfg idx tree call root) := by
  unfold ScopeMatches
  split <;> infer_instance

instance (idx : Index) (tree : FileTree) (call : RebuildCall) :
    Decidable (CallMatches cfg idx tree call) := by
  unfold CallMatches
  split <;> infer_instance

def rebuildStep (idx : Index) (op : FileTree × RebuildCall) : Index :=
  match rebuildIndexInOpenDb cfg op.1 op.2 idx with
  | .error _ => idx
  | .ok written => written.1

theorem rebuildStep_of_ok {idx : Index} {tree : FileTree} {call : RebuildCall}
    {written : Index × Str} (h : rebuildIndexInOpenDb cfg tree call idx = .ok written) :
    rebuildStep cfg idx (tree, call) = written.1 := by
  unfold rebuildStep
  rw [h]

end Scope

section Step

variable {cfg : RebuildConfig} {texts : Set Str} {tree : FileTree} {call : RebuildCall}
  {idx : Index} {root : List Str}

theorem inScope_wsRoot (cfg : RebuildConfig) (r : Str) : inScope cfg cfg.wsRoot r = true :=
  if_pos rfl

theorem entriesAt_of_perm {es whole : List Entry} {q : Str → Bool}
    (hperm : es.Perm (whole.filter fun e => q e.1)) (hnodup : (whole.map Prod.fst).Nodup)
    (r : Str) : entriesAt es r = if q r then entriesAt whole r else [] := by
  have hat : (entriesAt es r).Perm (entriesAt (whole.filter fun e => q e.1) r) := hperm.filter _
  rw [entriesAt_filter] at hat
  have hkey : (entriesAt whole r).filter (fun e => q e.1) =
      if q r then entriesAt whole r else [] := by
    have hsame : ∀ e ∈ entriesAt whole r, q e.1 = q r := by
      intro e he
      have hr : e.1 = r := by simpa using (List.mem_filter.mp he).2
      rw [hr]
    cases hq : q r with
    | true => exact List.filter_eq_self.mpr fun e he => (hsame e he).trans hq
    | false => exact List.filter_eq_nil_iff.mpr fun e he => by simp [hsame e he, hq]
  rw [hkey] at hat
  split at hat
  · next hq =>
    rw [if_pos hq]
    obtain ⟨hnone, -⟩ | ⟨file, hone, -⟩ := entriesAt_cases hnodup r
    · rw [hnone] at hat ⊢
      exact hat.eq_nil
    · rw [hone] at hat ⊢
      exact hat.eq_singleton
  · next hq =>
    rw [if_neg hq]
    exact hat.eq_nil

theorem chunksAt_of_fileAt_none (hsync : InSync cfg texts idx) {r : Str}
    (h : idx.fileAt (cfg.wsKey, r) = none) : idx.chunksAt (cfg.wsKey, r) = [] := by
  have hr := hsync r
  unfold InSyncAt at hr
  rw [h] at hr
  exact hr

/-- Where the `DELETE` and the scope disagree there are no rows. -/
theorem rowsAt_of_disagree (hsync : InSync cfg texts idx) {dir : Str}
    (hsel : ∀ row ∈ idx.files.rows, row.workspaceRoot = cfg.wsKey →
      subtreeSelects dir row.relPath = inScope cfg root row.relPath) {r : Str}
    (hr : subtreeSelects dir r ≠ inScope cfg root r) :
    idx.chunksAt (cfg.wsKey, r) = [] ∧ idx.fileAt (cfg.wsKey, r) = none := by
  have hnone : idx.fileAt (cfg.wsKey, r) = none := by
    rw [Index.fileAt, Table.lookup_eq_none_iff]
    rintro row hrow hkey
    obtain ⟨hws, hrel⟩ := Prod.ext_iff.mp hkey
    apply hr
    rw [← show row.relPath = r from hrel]
    exact hsel row hrow hws
  exact ⟨chunksAt_of_fileAt_none hsync hnone, hnone⟩

/-- What one call does: it settles the keys of its scope and leaves the others alone. -/
structure CallEffect (cfg : RebuildConfig) (texts : Set Str) (es : List Entry) (root : List Str)
    (idx idx' : Index) : Prop where
  settled : ∀ r, inScope cfg root r = true → Settled cfg texts es idx' r
  frame : ∀ k : RowKey, (k.1 = cfg.wsKey → inScope cfg root k.2 = false) →
    idx'.chunksAt k = idx.chunksAt k ∧ idx'.fileAt k = idx.fileAt k

theorem CallEffect.inSync {es : List Entry} {idx' : Index}
    (h : CallEffect cfg texts es root idx idx') (hsync : InSync cfg texts idx) :
    InSync cfg texts idx' := by
  intro r
  cases hr : inScope cfg root r with
  | true => exact (h.settled r hr).sync
  | false =>
    obtain ⟨hc, hf⟩ := h.frame (cfg.wsKey, r) fun _ => hr
    exact (hsync r).congr hc hf

/-- A call of the whole workspace, comparing with the catalog. -/
theorem callEffect_incremental (hsha : Set.InjOn cfg.sha256 texts) (hsync : InSync cfg texts idx)
    (hlim : WithinLimits cfg texts tree call)
    (hnodup : ((wholeEntries cfg tree call).map Prod.fst).Nodup) (hinc : call.incremental = true) :
    CallEffect cfg texts (wholeEntries cfg tree call) cfg.wsRoot idx
      (rebuildIndexWriteScan cfg call (tree.walk cfg.wsRoot) false idx).1 where
  settled := fun r _ => settled_of_tracked hinc rfl hsha hsync rfl hlim.1 hnodup hlim.2 r
  frame := by
    intro k hk
    refine rowsAt_rebuildIndexWriteScan_of_ne false idx hlim.1 fun hws => ?_
    have hout := hk hws
    rw [inScope_wsRoot] at hout
    cases hout

/-- A call of the whole workspace that clears it first. -/
theorem callEffect_full (hlim : WithinLimits cfg texts tree call)
    (hnodup : ((wholeEntries cfg tree call).map Prod.fst).Nodup) (hinc : call.incremental = false) :
    CallEffect cfg texts (wholeEntries cfg tree call) cfg.wsRoot idx
      (rebuildIndexWriteScan cfg call (tree.walk cfg.wsRoot) false
        (idx.deleteWhere fun k => k.1 = cfg.wsKey)).1 where
  settled := by
    intro r _
    refine settled_of_cleared (by simp [hinc]) hlim.1 hnodup hlim.2 rfl ?_ ?_
    · rw [Index.chunksAt_deleteWhere]
      simp
    · rw [Index.fileAt_deleteWhere]
      simp
  frame := by
    intro k hk
    have hne : k.1 ≠ cfg.wsKey := by
      intro hws
      have hout := hk hws
      rw [inScope_wsRoot] at hout
      cases hout
    obtain ⟨hc, hf⟩ := rowsAt_rebuildIndexWriteScan_of_ne false
      (idx.deleteWhere fun k => k.1 = cfg.wsKey) hlim.1 hne
    rw [hc, hf, Index.chunksAt_deleteWhere, Index.fileAt_deleteWhere]
    simp [hne]

/-- A call of a sub-path whose `DELETE` and walk are about the files of the scope. -/
theorem callEffect_subtree (hsync : InSync cfg texts idx) (hlim : WithinLimits cfg texts tree call)
    (hnodup : ((wholeEntries cfg tree call).map Prod.fst).Nodup) {dir : Str}
    (hperm : (entries cfg call.fileGlobPat (tree.walk root)).Perm
      ((wholeEntries cfg tree call).filter fun e => inScope cfg root e.1))
    (hsel : ∀ row ∈ idx.files.rows, row.workspaceRoot = cfg.wsKey →
      subtreeSelects dir row.relPath = inScope cfg root row.relPath) :
    CallEffect cfg texts (wholeEntries cfg tree call) root idx
      (rebuildIndexWriteScan cfg call (tree.walk root) true
        (idx.deleteWhere fun k => k.1 = cfg.wsKey && subtreeSelects dir k.2)).1 := by
  have hat := entriesAt_of_perm hperm hnodup
  have hmax : (entries cfg call.fileGlobPat (tree.walk root)).length ≤ cfg.rebuildMaxFiles := by
    rw [hperm.length_eq]
    exact (List.length_filter_le _ _).trans hlim.1
  have hcleared : ∀ r, inScope cfg root r = true →
      (idx.deleteWhere fun k => k.1 = cfg.wsKey && subtreeSelects dir k.2).chunksAt
          (cfg.wsKey, r) = [] ∧
        (idx.deleteWhere fun k => k.1 = cfg.wsKey && subtreeSelects dir k.2).fileAt
          (cfg.wsKey, r) = none := by
    intro r hr
    rw [Index.chunksAt_deleteWhere, Index.fileAt_deleteWhere]
    cases hdel : subtreeSelects dir r with
    | true => simp
    | false =>
      have hrows := rowsAt_of_disagree hsync hsel (r := r) (by rw [hdel, hr]; simp)
      simp [hrows.1, hrows.2]
  have hkept : ∀ k : RowKey, (k.1 = cfg.wsKey → inScope cfg root k.2 = false) →
      (idx.deleteWhere fun k => k.1 = cfg.wsKey && subtreeSelects dir k.2).chunksAt k =
          idx.chunksAt k ∧
        (idx.deleteWhere fun k => k.1 = cfg.wsKey && subtreeSelects dir k.2).fileAt k =
          idx.fileAt k := by
    rintro ⟨ws, r⟩ hk
    rw [Index.chunksAt_deleteWhere, Index.fileAt_deleteWhere]
    by_cases hws : ws = cfg.wsKey
    · subst hws
      cases hdel : subtreeSelects dir r with
      | false => simp
      | true =>
        have hrows := rowsAt_of_disagree hsync hsel (r := r) (by rw [hdel, hk rfl]; simp)
        simp [hrows.1, hrows.2]
    · simp [hws]
  constructor
  · intro r hr
    exact settled_of_cleared (by simp) hmax hnodup hlim.2 (by rw [hat, if_pos hr])
      (hcleared r hr).1 (hcleared r hr).2
  · rintro ⟨ws, r⟩ hk
    obtain ⟨hc, hf⟩ := hkept (ws, r) hk
    by_cases hws : ws = cfg.wsKey
    · subst hws
      have hnone : entriesAt (entries cfg call.fileGlobPat (tree.walk root)) r = [] := by
        rw [hat, if_neg (by simp [hk rfl])]
      have htracks : (call.incremental && !true) = false := Bool.and_false _
      obtain ⟨hc', hf'⟩ := rowsAt_of_unwalked
        (idx.deleteWhere fun k => k.1 = cfg.wsKey && subtreeSelects dir k.2) htracks hmax hnone
      exact ⟨hc'.trans hc, hf'.trans hf⟩
    · obtain ⟨hc', hf'⟩ := rowsAt_rebuildIndexWriteScan_of_ne true
        (idx.deleteWhere fun k => k.1 = cfg.wsKey && subtreeSelects dir k.2) hmax
        (k := (ws, r)) hws
      exact ⟨hc'.trans hc, hf'.trans hf⟩

/-- The step lemma: one matching call from an index that is in step. -/
theorem callEffect_of_ok (hsha : Set.InjOn cfg.sha256 texts) (hsync : InSync cfg texts idx)
    (hlim : WithinLimits cfg texts tree call) (hmatch : CallMatches cfg idx tree call)
    {written : Index × Str} (hcall : rebuildIndexInOpenDb cfg tree call idx = .ok written) :
    ∃ root, resolveRebuildSearchRoot cfg tree call.subPath = .ok root ∧
      CallEffect cfg texts (wholeEntries cfg tree call) root idx written.1 := by
  obtain ⟨hnodup, hscope⟩ := hmatch
  unfold rebuildIndexInOpenDb at hcall
  cases hres : resolveRebuildSearchRoot cfg tree call.subPath with
  | error e =>
    rw [hres] at hcall
    cases hcall
  | ok root =>
    simp only [hres] at hcall hscope
    refine ⟨root, rfl, ?_⟩
    cases hcall
    unfold ScopeMatches at hscope
    cases hdel : call.deleteScope with
    | none =>
      simp only [hdel] at hscope
      subst hscope
      simp only [clearRebuildScopeRows, hdel]
      cases hinc : call.incremental with
      | true => exact callEffect_incremental hsha hsync hlim hnodup hinc
      | false => exact callEffect_full hlim hnodup hinc
    | some dir =>
      simp only [hdel] at hscope
      simp only [clearRebuildScopeRows, hdel]
      exact callEffect_subtree hsync hlim hnodup hscope.1 hscope.2

/-- A full rebuild into an empty index writes, key by key, the rows of a fresh scan. -/
theorem exists_fresh (hlim : WithinLimits cfg texts tree call)
    (hnodup : ((wholeEntries cfg tree call).map Prod.fst).Nodup) :
    ∃ fresh note, rebuildIndexInOpenDb cfg tree ⟨none, call.fileGlobPat, false⟩ Index.empty =
        .ok (fresh, note) ∧
      ∀ r, fresh.chunksAt (cfg.wsKey, r) = freshChunksAt cfg (wholeEntries cfg tree call) r := by
  refine ⟨_, _, rfl, fun r => ?_⟩
  have heffect : CallEffect cfg texts (wholeEntries cfg tree call) cfg.wsRoot Index.empty _ :=
    @callEffect_full cfg texts tree ⟨none, call.fileGlobPat, false⟩ Index.empty hlim hnodup rfl
  exact (heffect.settled r (inScope_wsRoot cfg r)).chunks

theorem asFresh_of_callEffect {idx' : Index}
    (hres : resolveRebuildSearchRoot cfg tree call.subPath = .ok root)
    (hlim : WithinLimits cfg texts tree call)
    (hnodup : ((wholeEntries cfg tree call).map Prod.fst).Nodup)
    (h : CallEffect cfg texts (wholeEntries cfg tree call) root idx idx') :
    AsFresh cfg tree call idx idx' := by
  obtain ⟨fresh, note, hfresh, hrows⟩ := exists_fresh hlim hnodup
  refine ⟨root, fresh, note, hres, hfresh, ?_, ?_, h.frame⟩
  · intro r hr
    rw [(h.settled r hr).chunks, hrows]
  · intro r hr hgone
    refine ⟨?_, (h.settled r hr).gone hgone⟩
    have hnone : entriesAt (wholeEntries cfg tree call) r = [] := by
      obtain ⟨hnone, -⟩ | ⟨file, -, hmem⟩ := entriesAt_cases hnodup r
      · exact hnone
      · exact absurd (List.mem_map_of_mem hmem) hgone
    rw [(h.settled r hr).chunks, freshChunksAt, hnone]
    rfl

/-- The invariant of a run, by induction over its calls. -/
theorem inSync_run (hsha : Set.InjOn cfg.sha256 texts) (hsync : InSync cfg texts idx)
    {ops : List (FileTree × RebuildCall)}
    (hok : Run.AllOk (rebuildStep cfg)
      (fun idx op => WithinLimits cfg texts op.1 op.2 ∧ CallMatches cfg idx op.1 op.2) idx ops) :
    InSync cfg texts (Run.run (rebuildStep cfg) idx ops) := by
  have hstep : ∀ (idx : Index) (op : FileTree × RebuildCall), InSync cfg texts idx →
      WithinLimits cfg texts op.1 op.2 ∧ CallMatches cfg idx op.1 op.2 →
      InSync cfg texts (rebuildStep cfg idx op) := by
    rintro idx ⟨tree, call⟩ hsync ⟨hlim, hmatch⟩
    cases hcall : rebuildIndexInOpenDb cfg tree call idx with
    | error e =>
      unfold rebuildStep
      rw [hcall]
      exact hsync
    | ok written =>
      obtain ⟨root, -, heffect⟩ := callEffect_of_ok hsha hsync hlim hmatch hcall
      rw [rebuildStep_of_ok cfg hcall]
      exact heffect.inSync hsync
  exact Run.invariant hstep hsync hok

/-- In a run of matching calls, every call leaves the rows of a fresh rebuild in its scope and
the other rows as they were. -/
theorem rebuild_run_as_fresh (hsha : Set.InjOn cfg.sha256 texts)
    (hstart : ∀ r, idx.chunksAt (cfg.wsKey, r) = [] ∧ idx.fileAt (cfg.wsKey, r) = none)
    {before : List (FileTree × RebuildCall)}
    (hok : Run.AllOk (rebuildStep cfg)
      (fun idx op => WithinLimits cfg texts op.1 op.2 ∧ CallMatches cfg idx op.1 op.2) idx
      (before ++ [(tree, call)]))
    {written : Index × Str}
    (hcall : rebuildIndexInOpenDb cfg tree call (Run.run (rebuildStep cfg) idx before) =
      .ok written) :
    AsFresh cfg tree call (Run.run (rebuildStep cfg) idx before) written.1 := by
  obtain ⟨hbefore, ⟨hlim, hmatch⟩, -⟩ := (Run.allOk_append _ _ _ _ _).mp hok
  have hsync : InSync cfg texts idx := by
    intro r
    unfold InSyncAt
    rw [(hstart r).2]
    exact (hstart r).1
  obtain ⟨root, hres, heffect⟩ :=
    callEffect_of_ok hsha (inSync_run hsha hsync hbefore) hlim hmatch hcall
  exact asFresh_of_callEffect hres hlim hmatch.1 heffect

end Step

namespace Sample

def mainText : Str := "fn main() \x7b\x7d".toList

def noteText : Str := "notes on it\n".toList

def newNoteText : Str := "other notes".toList

def texts : List Str := [mainText, noteText, newNoteText]

/-- The SHA-256 digests of the texts below and of their chunks. -/
def digests : List (Str × Str) :=
  [(mainText, "ef32637cb9c3ec2e3968c9cbdf26a5e9c172be94f88af533e14bd43f892d5297".toList),
    (noteText, "e5646c8ce74f0a1c8bbc232acadf95c35d0a797a68cfd14c5ed052ab32fff102".toList),
    (newNoteText, "5f7c3a9a215b4fff1749338f4494f423452584946d2c6866e3f98aa8a8f58740".toList),
    ("a.rs\x00".toList ++ mainText,
      "1bd9ff2e04dd2cc0aee1b420da75c6e62d1b50aa568f8ee0a54a6e858ebcf799".toList),
    ("docs/n.md\x00notes on it".toList,
      "634c052218aaecffabf9be006cc8429faf5ed5be68f77868ecf0fcb937be7c6b".toList),
    ("docs/n.md\x00".toList ++ newNoteText,
      "8a77699d62519ca5544ee46a5f12e0286db5e0dee3d94ba7971e28f48a2f579d".toList),
    ("src/lib.rs\x00".toList ++ mainText,
      "78d1d1fd7db9a5b6259b6714e3d206403f71bbafb16373c7de8bd0a6ca8d02dd".toList)]

def config : RebuildConfig where
  wsRoot := ["w".toList]
  wsKey := "/w".toList
  indexPath := "/w/.crabmate/codebase_semantic.sqlite".toList
  maxFileBytes := 1000
  chunkMaxChars := 40
  rebuildMaxFiles := 10
  extSet := ["rs".toList, "md".toList]
  sha256 := fun s => ((digests.find? fun d => d.1 = s).map Prod.snd).getD []

def file (path : List String) (text : Str) (mtimeNs : ℤ) : WalkedFile :=
  ⟨"w".toList :: path.map String.toList, some (text.map fun c => UInt8.ofNat c.toNat), mtimeNs⟩

/-- A workspace without links, hidden files or ignored files. -/
def tree (files : List WalkedFile) : FileTree where
  canonicalize := fun s => .ok ["w".toList, s]
  walk := fun root => files.filter fun f => root.isPrefixOf f.path

def mainFile : WalkedFile := file ["a.rs"] mainText 1

def libTree : FileTree := tree [file ["src", "lib.rs"] mainText 1]

def full : RebuildCall := ⟨none, none, false⟩

def incremental : RebuildCall := ⟨none, none, true⟩

def subPath (s : String) : RebuildCall := ⟨some s.toList, none, true⟩

def before : List (FileTree × RebuildCall) :=
  [(tree [mainFile], full),
    (tree [mainFile, file ["docs", "n.md"] noteText 2], subPath "docs")]

theorem injOn_sha256 : Set.InjOn config.sha256 {s | s ∈ texts} := by
  have hall : ∀ s ∈ texts, ∀ t ∈ texts, config.sha256 s = config.sha256 t → s = t := by
    decide +kernel
  exact fun s hs t ht => hall s hs t ht

end Sample

open Sample in
/-- A full call, a call of a directory that had no rows, then an incremental call after a file of
that directory has changed. -/
theorem rebuild_run_as_fresh_threeCalls :
    ∃ written, AsFresh config (tree [mainFile, file ["docs", "n.md"] newNoteText 3]) incremental
      (Run.run (rebuildStep config) Index.empty before) written :=
  ⟨_, rebuild_run_as_fresh injOn_sha256 (fun _ => ⟨rfl, rfl⟩) (by decide +kernel) rfl⟩

open Sample in
/-- A directory that is rebuilt after the whole workspace keeps its old rows next to the new ones:
the `DELETE` of the call selects none of them. -/
theorem rebuild_subPath_keeps_old_rows :
    ∃ written, rebuildIndexInOpenDb config libTree (subPath "src")
        (Run.run (rebuildStep config) Index.empty [(libTree, full)]) = .ok written ∧
      WithinLimits config {s | s ∈ texts} libTree full ∧
      WithinLimits config {s | s ∈ texts} libTree (subPath "src") ∧
      ¬ AsFresh config libTree (subPath "src")
        (Run.run (rebuildStep config) Index.empty [(libTree, full)]) written.1 := by
  refine ⟨_, rfl, by decide +kernel, by decide +kernel, ?_⟩
  rintro ⟨root, fresh, note, hres, hfresh, hrows, -⟩
  obtain rfl : ["w".toList, "src".toList] = root := Except.ok.inj hres
  have hfreshIndex : rebuildStep config Index.empty (libTree, full) = fresh :=
    rebuildStep_of_ok config hfresh
  rw [← hfreshIndex] at hrows
  have hlen := congrArg List.length (hrows "src/lib.rs".toList (by decide +kernel))
  exact absurd hlen (by decide +kernel)

end CodebaseIndex
end CrabMate
