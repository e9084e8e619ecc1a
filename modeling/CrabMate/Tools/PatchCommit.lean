import CrabMate.Lib.KeyedFold
import CrabMate.Files.Changelist
import CrabMate.Tools.Patch

/-! `apply_patch` as a whole: the files and the changelist it leaves, against the chunks of the
patch applied one after another. -/
namespace CrabMate
open RustStr LexPath List Option

inductive FileContent where
  | text (s : Str)
  | binary (bytes : List UInt8)
  deriving DecidableEq

/-- A disk with the regular files it holds. `fileAt` is the file a path leads to, whatever its
spelling or name; taking away one of several names is left out. Directories and the temporary file
beside a target are not among the contents. -/
structure FileSystem (σ K : Type) [DecidableEq K] extends Disk σ where
  fileAt : FsPath → K
  content : σ → K → Option FileContent
  read_ok : ∀ {s p t}, readToString s p = .ok t → content s (fileAt p) = some (.text t)
  absent : ∀ {s p}, present s p = false → content s (fileAt p) = none
  createDirAll_ok : ∀ {s p s'}, createDirAll s p = .ok s' → content s' = content s
  createDirAll_links : ∀ {s p s'}, createDirAll s p = .ok s' →
    targetHasMultipleLinks s' = targetHasMultipleLinks s
  createTmp_ok : ∀ {s p t s'}, createTmp s p t = .ok s' → content s' = content s
  commitTmp_ok : ∀ {s p t s₁ s₂}, createTmp s p t = .ok s₁ → commitTmp s₁ p = .ok s₂ →
    content s₂ = Function.update (content s) (fileAt p) (some (.text t))
  removeFile_ok : ∀ {s p s'}, removeFile s p = .ok s' →
    content s' = Function.update (content s) (fileAt p) none

section Recorded

variable {P σ : Type} (diffy : Diffy P) (disk : Disk σ) (apply : PatchApply)

/-- A preview does not touch the changelist. -/
def recordPlan (plan : PlannedPatch) (cl : Option WorkspaceChangelist) :
    Option WorkspaceChangelist :=
  if apply.dryRun then cl
  else
    cl.map fun cl =>
      match plan with
      | .modify rel before after => cl.recordMutation rel (some before) (some after)
      | .create rel after => cl.recordMutation rel none (some after)
      | .delete rel before => cl.recordMutation rel before none

/-- The commit loop with the changelist: each committed plan is recorded, the first failure ends
the loop. -/
def commitRecorded : List PlannedPatch → σ → Option WorkspaceChangelist →
    Except Str Unit × σ × Option WorkspaceChangelist
  | [], s, cl => (.ok (), s, cl)
  | plan :: plans, s, cl =>
    let ran := commitPlanned disk apply plan s
    match ran.result with
    | .error e => (.error e, ran.state, cl)
    | .ok () => commitRecorded plans ran.state (recordPlan apply plan cl)

/-- Everything before the commit loop: the plans, or why there are none. -/
def patchPlans (absolutizeFrom : AbsolutizeFrom) (s : σ) (patch : Option Str) (strip : ℕ) :
    Except ToolError (List PlannedPatch) :=
  match patch.filter fun p => !(trim p).isEmpty with
  | none => .error (.invalidArgs "错误：缺少 patch 参数".toList)
  | some patchText =>
    match validatePatchPaths absolutizeFrom (fun dir => disk.present s (absolute dir)) patchText
      apply.root with
    | .error e => .error (.invalidArgs ("补丁路径校验失败: ".toList ++ e))
    | .ok () =>
      let chunks := splitPatchByFile patchText
      match (chunks.filterMap fun chunk => errorOf (diffy.fromStr chunk)).head? with
      | some e => .error (.invalidArgs ("解析 unified diff 失败: ".toList ++ e))
      | none =>
        let planned := chunks.map fun chunk => planSingleHunk diffy disk apply s chunk strip
        let errors := planned.filterMap fun p => errorOf p.1
        let plans := planned.filterMap fun p => p.1.toOption.join
        if !errors.isEmpty then
          .error (.applyPatchFailed (unifiedPatchFormatOutcome [] errors))
        else if (baseRevisionArg apply).isSome ∧ 1 < plans.length then
          .error (.invalidArgs (multiFileBaseRevision plans.length))
        else .ok plans

/-- The tool call with the changelist of the session. -/
def runWithChangelist (absolutizeFrom : AbsolutizeFrom) (s : σ) (cl : Option WorkspaceChangelist)
    (patch : Option Str) (strip : ℕ) : PatchRun σ × Option WorkspaceChangelist :=
  (runApplyPatch diffy disk apply absolutizeFrom s patch strip,
    match patchPlans diffy disk apply absolutizeFrom s patch strip with
    | .error _ => cl
    | .ok plans => (commitRecorded disk apply plans s cl).2.2)

theorem commitRecorded_eq_commitAll (plans : List PlannedPatch) (s : σ)
    (cl : Option WorkspaceChangelist) :
    (commitRecorded disk apply plans s cl).1 = (commitAll disk apply plans s).result ∧
      (commitRecorded disk apply plans s cl).2.1 = (commitAll disk apply plans s).state := by
  induction plans generalizing s cl with
  | nil => exact ⟨rfl, rfl⟩
  | cons plan plans ih =>
    cases hran : (commitPlanned disk apply plan s).result with
    | error e => simp [commitRecorded, commitAll, Ran.andThen, hran]
    | ok => simpa [commitRecorded, commitAll, Ran.andThen, hran] using ih _ _

/-- How a call ends, from what the planning gave. -/
def settle (s : σ) : Except ToolError (List PlannedPatch) → Except ToolError Str × σ
  | .error e => (.error e, s)
  | .ok plans =>
    (((commitAll disk apply plans s).result.mapError ToolError.applyPatchFailed).map fun _ =>
        unifiedPatchFormatOutcome (plans.map PlannedPatch.appliedFile) [],
      (commitAll disk apply plans s).state)

/-- A refused patch is an error that leaves the disk; otherwise the call is its commit loop. -/
theorem runApplyPatch_eq (absolutizeFrom : AbsolutizeFrom) (s : σ) (patch : Option Str)
    (strip : ℕ) :
    ((runApplyPatch diffy disk apply absolutizeFrom s patch strip).result,
      (runApplyPatch diffy disk apply absolutizeFrom s patch strip).state) =
      settle disk apply s (patchPlans diffy disk apply absolutizeFrom s patch strip) := by
  unfold patchPlans runApplyPatch
  cases patch.filter fun p => !(trim p).isEmpty with
  | none => rfl
  | some patchText =>
    dsimp only
    cases validatePatchPaths absolutizeFrom (fun dir => disk.present s (absolute dir)) patchText
      apply.root with
    | error e => rfl
    | ok =>
      dsimp only [applyUnifiedPatch]
      cases ((splitPatchByFile patchText).filterMap
        fun chunk => errorOf (diffy.fromStr chunk)).head? with
      | some e => rfl
      | none =>
        dsimp only
        split
        · rfl
        · split
          · rfl
          · rfl

end Recorded

section Effects

variable {σ K : Type} [DecidableEq K] (fs : FileSystem σ K) (apply : PatchApply)

/-- The content a committed plan leaves in its file. -/
def PlannedPatch.leaves : PlannedPatch → Option FileContent
  | .modify _ _ after => some (.text after)
  | .create _ after => some (.text after)
  | .delete _ _ => none

def leaveOn (m : K → Option FileContent) (plan : PlannedPatch) : K → Option FileContent :=
  Function.update m (fs.fileAt (apply.path plan.rel)) plan.leaves

theorem verifyWriteRevision_state (target : FsPath) (s : σ) :
    (verifyWriteRevision fs.toDisk apply target s).state = s := by
  unfold verifyWriteRevision
  split
  · rfl
  · next expected _ =>
    cases fs.revisionOfPath s target with
    | error e => rfl
    | ok current =>
      by_cases h : normalizeRevision expected = normalizeRevision current
      · simp [h, Ran.call]
      · simp [h, Ran.call]

/-- An operation that ends well leaves `m'` in the files, and one that fails leaves `m`, unless it
is a write back `inPlace`. -/
def Ran.Moves (r : Ran σ) (m m' : K → Option FileContent) (inPlace : FsPath → Prop) : Prop :=
  (r.result = .ok () → fs.content r.state = m') ∧
    ∀ e, r.result = .error e →
      (∃ target, inPlace target ∧ Access.write target ∈ r.trace) ∨ fs.content r.state = m

variable {fs apply} {inPlace : FsPath → Prop}

theorem Ran.Moves.inContext {r : Ran σ} {m m' : K → Option FileContent}
    (h : r.Moves fs m m' inPlace) (context : Str) :
    (r.inContext context).Moves fs m m' inPlace := by
  obtain ⟨hok, herr⟩ := h
  cases hres : r.result with
  | ok =>
    refine ⟨fun _ => hok hres, fun e he => ?_⟩
    simp [Ran.inContext, hres, Except.mapError] at he
  | error e =>
    exact ⟨fun h => by simp [Ran.inContext, hres, Except.mapError] at h, fun _ _ => herr e hres⟩

theorem Ran.Moves.andThen {r : Ran σ} {next : σ → Ran σ} {m m' : K → Option FileContent}
    (h : r.Moves fs m m inPlace)
    (hnext : r.result = .ok () → (next r.state).Moves fs m m' inPlace) :
    (r.andThen next).Moves fs m m' inPlace := by
  cases hres : r.result with
  | ok =>
    simp only [Ran.andThen, hres]
    obtain ⟨hok, herr⟩ := hnext hres
    refine ⟨hok, fun e he => (herr e he).imp_left ?_⟩
    rintro ⟨target, htarget, hmem⟩
    exact ⟨target, htarget, mem_append_right _ hmem⟩
  | error e =>
    simp only [Ran.andThen, hres]
    exact ⟨fun hok => by simp [hres] at hok, h.2⟩

theorem moves_call {access : Access} {s : σ} {answer : Except Str σ} {m' : K → Option FileContent}
    (h : ∀ s', answer = .ok s' → fs.content s' = m') :
    (Ran.call access s answer).Moves fs (fs.content s) m' inPlace := by
  cases answer with
  | ok s' => exact ⟨fun _ => h s' rfl, fun e he => by simp [Ran.call] at he⟩
  | error e => exact ⟨fun hok => by simp [Ran.call] at hok, fun _ _ => .inr rfl⟩

theorem moves_commitTmpOverTarget {target : FsPath} {preserveInode : Bool} {s : σ}
    {m' : K → Option FileContent} (hin : preserveInode = true → inPlace target)
    (h : ∀ s', fs.commitTmp s target = .ok s' → fs.content s' = m') :
    (commitTmpOverTarget fs.toDisk target preserveInode s).Moves fs (fs.content s) m' inPlace := by
  unfold commitTmpOverTarget
  cases hcommit : fs.commitTmp s target with
  | ok s' => exact ⟨fun _ => h s' hcommit, fun e he => by cases he⟩
  | error e =>
    refine ⟨fun hok => by simp at hok, fun _ _ => ?_⟩
    cases preserveInode with
    | true => exact .inl ⟨target, hin rfl, mem_singleton_self _⟩
    | false => exact .inr rfl

theorem moves_verifyWriteRevision (target : FsPath) (s : σ) :
    (verifyWriteRevision fs.toDisk apply target s).Moves fs (fs.content s) (fs.content s)
      inPlace := by
  refine ⟨fun _ => ?_, fun _ _ => .inr ?_⟩ <;> rw [verifyWriteRevision_state]

/-- The path leads to a file of several names. -/
def MultipleLinks (fs : FileSystem σ K) (s : σ) (target : FsPath) : Prop :=
  fs.targetHasMultipleLinks s target = true

theorem moves_writePlanned (hdry : apply.dryRun = false) (rel content : Str) (s : σ) :
    (writePlanned fs.toDisk apply rel content s).Moves fs (fs.content s)
      (Function.update (fs.content s) (fs.fileAt (apply.path rel)) (some (.text content)))
      (MultipleLinks fs s) := by
  simp only [writePlanned, hdry, Bool.false_eq_true, if_false]
  apply Ran.Moves.inContext
  refine Ran.Moves.andThen ⟨fun _ => rfl, fun _ _ => .inr rfl⟩ fun _ => ?_
  cases htmp : fs.createTmp s (apply.path rel) content with
  | error e =>
    exact ⟨fun hok => by simp [Ran.call, Ran.andThen] at hok, fun _ _ => .inr rfl⟩
  | ok s₁ =>
    have hsame : fs.content s₁ = fs.content s := fs.createTmp_ok htmp
    rw [← hsame]
    refine Ran.Moves.andThen ⟨fun _ => rfl, fun _ _ => .inr rfl⟩ fun _ => ?_
    refine Ran.Moves.andThen (moves_verifyWriteRevision _ _) fun _ => ?_
    rw [verifyWriteRevision_state]
    refine moves_commitTmpOverTarget id fun s₂ hs₂ => ?_
    rw [fs.commitTmp_ok htmp hs₂, ← hsame]

variable (fs) in
theorem moves_commitPlanned (hdry : apply.dryRun = false) (plan : PlannedPatch) (s : σ) :
    (commitPlanned fs.toDisk apply plan s).Moves fs (fs.content s)
      (leaveOn fs apply (fs.content s) plan) (MultipleLinks fs s) := by
  cases plan with
  | modify rel before after => exact moves_writePlanned hdry rel after s
  | create rel after =>
    simp only [commitPlanned, ensureParentDir, hdry, Bool.false_eq_true, if_false]
    split
    · refine Ran.Moves.andThen ⟨fun _ => rfl, fun _ _ => .inr rfl⟩ fun _ => ?_
      exact moves_writePlanned hdry rel after s
    · next dir _ =>
      cases hdir : fs.createDirAll s dir with
      | error e =>
        exact ⟨fun hok => by simp [Ran.call, Ran.inContext, Ran.andThen, Except.mapError] at hok,
          fun _ _ => .inr rfl⟩
      | ok s₁ =>
        have hsame : fs.content s₁ = fs.content s := fs.createDirAll_ok hdir
        have hlinks : MultipleLinks fs s₁ = MultipleLinks fs s := by
          funext target
          rw [MultipleLinks, fs.createDirAll_links hdir, ← MultipleLinks]
        rw [← hsame, ← hlinks]
        refine Ran.Moves.andThen ⟨fun _ => rfl, fun _ _ => .inr rfl⟩ fun _ => ?_
        exact moves_writePlanned hdry rel after s₁
  | delete rel before =>
    simp only [commitPlanned, hdry, Bool.false_eq_true, if_false]
    refine Ran.Moves.andThen (moves_verifyWriteRevision _ _) fun _ => ?_
    rw [verifyWriteRevision_state]
    apply Ran.Moves.inContext
    exact moves_call fun s' hs' => fs.removeFile_ok hs'

/-- The change that the disk refuses, with the changes committed before it and the disk that it
finds. -/
def refusedCommit (fs : FileSystem σ K) (apply : PatchApply) :
    List PlannedPatch → σ → Option (List PlannedPatch × PlannedPatch × σ)
  | [], _ => none
  | plan :: plans, s =>
    let ran := commitPlanned fs.toDisk apply plan s
    match ran.result with
    | .error _ => some ([], plan, s)
    | .ok () => (refusedCommit fs apply plans ran.state).map fun r => (plan :: r.1, r.2)

/-- What breaks off is the writing over a file of several names. -/
def BreaksWriteBack (fs : FileSystem σ K) (apply : PatchApply) (plan : PlannedPatch) (s : σ) :
    Prop :=
  ∃ target, MultipleLinks fs s target ∧
    Access.write target ∈ (commitPlanned fs.toDisk apply plan s).trace

/-- What the commit loop leaves, in the files and in the changelist. -/
theorem commitRecorded_leaves (fs : FileSystem σ K) (hdry : apply.dryRun = false)
    (plans : List PlannedPatch) (s : σ) (cl : Option WorkspaceChangelist) :
    let r := commitRecorded fs.toDisk apply plans s cl
    let record := fun (cl : Option WorkspaceChangelist) plan => recordPlan apply plan cl
    match refusedCommit fs apply plans s with
    | none => r.1 = .ok () ∧ r.2.2 = plans.foldl record cl ∧
        fs.content r.2.1 = plans.foldl (leaveOn fs apply) (fs.content s)
    | some (done, plan, s') => (∃ e, r.1 = .error e) ∧ r.2.2 = done.foldl record cl ∧
      (¬ BreaksWriteBack fs apply plan s' →
        fs.content r.2.1 = done.foldl (leaveOn fs apply) (fs.content s)) := by
  induction plans generalizing s cl with
  | nil => exact ⟨rfl, rfl, rfl⟩
  | cons plan plans ih =>
    obtain ⟨hok, herr⟩ := moves_commitPlanned fs hdry plan s
    cases hran : (commitPlanned fs.toDisk apply plan s).result with
    | error e =>
      simp only [commitRecorded, refusedCommit, hran]
      exact ⟨⟨e, rfl⟩, rfl, (herr e hran).resolve_left⟩
    | ok =>
      have hrest := ih (commitPlanned fs.toDisk apply plan s).state (recordPlan apply plan cl)
      simp only [commitRecorded, refusedCommit, hran]
      cases hrefused :
        refusedCommit fs apply plans (commitPlanned fs.toDisk apply plan s).state with
      | none => simpa [hrefused, hok hran] using hrest
      | some refused => simpa [hrefused, hok hran] using hrest

end Effects

section Sequential

variable {P σ K : Type} [DecidableEq K] (diffy : Diffy P) (fs : FileSystem σ K)
  (apply : PatchApply) (strip : ℕ)

/-- A chunk with the file it is about. -/
structure FileChunk (K : Type) where
  key : K
  rel : Str
  kind : Option DevNullHunkKind
  hunk : Str
  deriving DecidableEq

def fileChunk (chunk : Str) : Option (FileChunk K) :=
  (extractTargetPath chunk strip).map fun paths =>
    let kind := classifyDevNullHunk paths.1 paths.2
    let rel := if kind = some .delete then paths.2 else paths.1
    ⟨fs.fileAt (apply.path rel), rel, kind, chunk⟩

/-- A chunk applied to the content of its file: it creates only what is absent, removes only the
text its hunk removes, and there is nothing to remove where there is no file. -/
def FileChunk.applied (c : FileChunk K) : Option FileContent → Option (Option FileContent)
  | none =>
    match c.kind with
    | some .create =>
      (patched diffy c.rel [] c.hunk).toOption.map fun after => some (.text after)
    | some .delete => some none
    | none => none
  | some (.text before) =>
    match c.kind with
    | some .create => none
    | some .delete =>
      if (patched diffy c.rel before c.hunk).toOption = some [] then some none else none
    | none => (patched diffy c.rel before c.hunk).toOption.map fun after => some (.text after)
  | some (.binary _) => none

/-- The plan the tool makes for a chunk from the disk before the call. -/
def FileChunk.planned (s : σ) (c : FileChunk K) : Option PlannedPatch :=
  (planSingleHunk diffy fs.toDisk apply s c.hunk strip).1.toOption.join

/-- The content left by the last planned of these chunks, which all name one file. -/
def lastLeft (s : σ) (chunks : List (FileChunk K)) (v : Option FileContent) : Option FileContent :=
  chunks.foldl (fun v c => ((c.planned diffy fs apply strip s).map PlannedPatch.leaves).getD v) v

/-- A file named by one chunk: it is absent when the chunk creates it, and absent or just the text
that the hunk removes when the chunk deletes it. -/
def FileChunk.Fits (c : FileChunk K) (v : Option FileContent) : Prop :=
  match c.kind with
  | some .create => v = none
  | some .delete => v = none ∨ ∃ before, v = some (.text before) ∧
      (patched diffy c.rel before c.hunk).toOption = some []
  | none => True

variable {diffy fs apply strip}

/-- The plan of a chunk that plans well. -/
theorem planSingleHunk_ok {s : σ} {chunk : Str} {plan : Option PlannedPatch}
    (h : (planSingleHunk diffy fs.toDisk apply s chunk strip).1 = .ok plan) :
    ∃ c, fileChunk fs apply strip chunk = some c ∧ c.hunk = chunk ∧
      c.key = fs.fileAt (apply.path c.rel) ∧
      ((c.kind = some .create ∧
          ∃ after, patched diffy c.rel [] chunk = .ok after ∧ plan = some (.create c.rel after)) ∨
        (c.kind = some .delete ∧
          ((plan = none ∧ fs.content s c.key = none) ∨
            ∃ before, plan = some (.delete c.rel before))) ∨
        (c.kind = none ∧ ∃ before after, fs.content s c.key = some (.text before) ∧
          patched diffy c.rel before chunk = .ok after ∧
          plan = some (.modify c.rel before after))) := by
  unfold planSingleHunk at h
  unfold fileChunk
  cases hpaths : extractTargetPath chunk strip with
  | none => simp [hpaths] at h
  | some paths =>
    obtain ⟨filePath, originalPath⟩ := paths
    simp only [hpaths] at h
    cases hkind : classifyDevNullHunk filePath originalPath with
    | none =>
      simp only [hkind] at h
      refine ⟨⟨fs.fileAt (apply.path filePath), filePath, none, chunk⟩, by simp [hkind], rfl, rfl,
        .inr (.inr ⟨rfl, ?_⟩)⟩
      cases hread : fs.readToString s (apply.path filePath) with
      | error e => simp [hread, Except.mapError, bind, Except.bind] at h
      | ok before =>
        cases hpatched : patched diffy filePath before chunk with
        | error e => simp [hread, hpatched, Except.mapError, bind, Except.bind] at h
        | ok after =>
          refine ⟨before, after, fs.read_ok hread, hpatched, ?_⟩
          simpa [hread, hpatched, Except.mapError, bind, Except.bind, pure, Except.pure]
            using h.symm
    | some kind =>
      cases kind with
      | create =>
        simp only [hkind] at h
        refine ⟨⟨fs.fileAt (apply.path filePath), filePath, some .create, chunk⟩, by simp [hkind],
          rfl, rfl, .inl ⟨rfl, ?_⟩⟩
        cases hpatched : patched diffy filePath [] chunk with
        | error e => simp [hpatched, Except.map] at h
        | ok after => exact ⟨after, rfl, by simpa [hpatched, Except.map] using h.symm⟩
      | delete =>
        simp only [hkind] at h
        refine ⟨⟨fs.fileAt (apply.path originalPath), originalPath, some .delete, chunk⟩,
          by simp [hkind], rfl, rfl, .inr (.inl ⟨rfl, ?_⟩)⟩
        by_cases hpresent : fs.present s (apply.path originalPath) = true
        · simp only [hpresent, if_true, Except.ok.injEq] at h
          exact .inr ⟨_, h.symm⟩
        · simp only [hpresent, if_false, Bool.false_eq_true, Except.ok.injEq] at h
          exact .inl ⟨h.symm, fs.absent (by simpa using hpresent)⟩

/-- A chunk whose plan was made, with the plan. -/
structure Plans (diffy : Diffy P) (fs : FileSystem σ K) (apply : PatchApply) (strip : ℕ) (s : σ)
    (c : FileChunk K) : Prop where
  path : ∀ plan, c.planned diffy fs apply strip s = some plan →
    fs.fileAt (apply.path plan.rel) = c.key
  fits : KeyedFold.runOn (FileChunk.applied diffy) [c] (fs.content s c.key) =
      some (lastLeft diffy fs apply strip s [c] (fs.content s c.key)) ↔
    c.Fits diffy (fs.content s c.key)

theorem plans_of_planSingleHunk {s : σ} {chunk : Str} {plan : Option PlannedPatch}
    (h : (planSingleHunk diffy fs.toDisk apply s chunk strip).1 = .ok plan) :
    ∃ c, fileChunk fs apply strip chunk = some c ∧
      c.planned diffy fs apply strip s = plan ∧ Plans diffy fs apply strip s c := by
  obtain ⟨c, hc, hhunk, hkey, hplan⟩ := planSingleHunk_ok h
  have hplanned : c.planned diffy fs apply strip s = plan := by
    rw [FileChunk.planned, hhunk, h]
    rfl
  refine ⟨c, hc, hplanned, ?_, ?_⟩
  · intro q hq
    rw [hplanned] at hq
    obtain ⟨-, after, -, rfl⟩ | ⟨-, ⟨rfl, -⟩ | ⟨before, rfl⟩⟩ | ⟨-, before, after, -, -, rfl⟩ :=
      hplan
    · rw [← Option.some.inj hq, hkey]
      rfl
    · cases hq
    · rw [← Option.some.inj hq, hkey]
      rfl
    · rw [← Option.some.inj hq, hkey]
      rfl
  · simp only [KeyedFold.runOn, bind_fun_some, lastLeft, foldl_cons, foldl_nil,
      hplanned]
    rw [← hhunk] at hplan
    obtain ⟨hkind, after, hpatched, rfl⟩ | ⟨hkind, hdel⟩ |
      ⟨hkind, before, after, hcontent, hpatched, rfl⟩ := hplan
    · cases hv : fs.content s c.key with
      | none =>
        simp [FileChunk.applied, FileChunk.Fits, hkind, hpatched, Except.toOption,
          PlannedPatch.leaves]
      | some v => cases v <;> simp [FileChunk.applied, FileChunk.Fits, hkind]
    · have hleft : (plan.map PlannedPatch.leaves).getD (fs.content s c.key) = none := by
        obtain ⟨rfl, hnone⟩ | ⟨before, rfl⟩ := hdel
        · exact hnone
        · rfl
      rw [hleft]
      cases hv : fs.content s c.key with
      | none => simp [FileChunk.applied, FileChunk.Fits, hkind]
      | some v => cases v <;> simp [FileChunk.applied, FileChunk.Fits, hkind]
    · rw [hcontent]
      simp [FileChunk.applied, FileChunk.Fits, hkind, hpatched, Except.toOption,
        PlannedPatch.leaves]

theorem exists_fileChunks {s : σ} {chunks : List Str}
    (h : ∀ chunk ∈ chunks, ∃ plan,
      (planSingleHunk diffy fs.toDisk apply s chunk strip).1 = .ok plan) :
    ∃ cs, chunks.mapM (fileChunk fs apply strip) = some cs ∧
      (∀ c ∈ cs, Plans diffy fs apply strip s c) ∧
      (chunks.filterMap fun chunk =>
        (planSingleHunk diffy fs.toDisk apply s chunk strip).1.toOption.join) =
        cs.filterMap fun c => c.planned diffy fs apply strip s := by
  induction chunks with
  | nil => exact ⟨[], rfl, by simp, rfl⟩
  | cons chunk chunks ih =>
    obtain ⟨plan, hplan⟩ := h chunk mem_cons_self
    obtain ⟨c, hc, hplanned, hplans⟩ := plans_of_planSingleHunk hplan
    obtain ⟨cs, hcs, hall, hmap⟩ := ih fun d hd => h d (mem_cons_of_mem chunk hd)
    refine ⟨c :: cs, by simp [mapM_cons, hc, hcs], ?_, ?_⟩
    · intro d hd
      obtain rfl | hd := mem_cons.mp hd
      · exact hplans
      · exact hall d hd
    · rw [filterMap_cons, filterMap_cons, hmap, hplanned, hplan]
      rfl

theorem patchPlans_ok {absolutizeFrom : AbsolutizeFrom} {s : σ} {patch : Option Str}
    {plans : List PlannedPatch}
    (h : patchPlans diffy fs.toDisk apply absolutizeFrom s patch strip = .ok plans) :
    ∃ patchText cs, patch = some patchText ∧
      (splitPatchByFile patchText).mapM (fileChunk fs apply strip) = some cs ∧
      (∀ c ∈ cs, Plans diffy fs apply strip s c) ∧
      plans = cs.filterMap fun c => c.planned diffy fs apply strip s := by
  unfold patchPlans at h
  split at h
  · cases h
  · next patchText hpatch =>
    split at h
    · cases h
    · dsimp only at h
      split at h
      · cases h
      · split at h
        · cases h
        · next herrors =>
          split at h
          · cases h
          · have hall : ∀ chunk ∈ splitPatchByFile patchText, ∃ plan,
                (planSingleHunk diffy fs.toDisk apply s chunk strip).1 = .ok plan := by
              intro chunk hchunk
              cases hplan : (planSingleHunk diffy fs.toDisk apply s chunk strip).1 with
              | ok plan => exact ⟨plan, rfl⟩
              | error e =>
                refine absurd ?_ herrors
                simp only [Bool.not_eq_eq_eq_not, Bool.not_true, isEmpty_eq_false_iff]
                refine ne_nil_of_mem (a := e) (mem_filterMap.mpr ⟨_,
                  List.mem_map_of_mem hchunk, ?_⟩)
                rw [hplan]
                rfl
            obtain ⟨cs, hcs, hplans, hmap⟩ := exists_fileChunks hall
            refine ⟨patchText, cs, (filter_eq_some_iff.mp hpatch).1, hcs, hplans, ?_⟩
            rw [← hmap, ← Except.ok.inj h, filterMap_map]
            rfl

end Sequential

section AllOrNothing

variable {P σ K : Type} [DecidableEq K] (diffy : Diffy P) (fs : FileSystem σ K)
  (apply : PatchApply) (absolutizeFrom : AbsolutizeFrom)

def changelistEntries (cl : Option WorkspaceChangelist) : Option (List TrackedFile) :=
  cl.map fun cl => cl.files.rows

/-- The planned change leaves its file as it is, and its entry of the changelist. -/
def PlannedPatch.Idle (plan : PlannedPatch) (s : σ) (cl : Option WorkspaceChangelist) : Prop :=
  plan.leaves = fs.content s (fs.fileAt (apply.path plan.rel)) ∧
    changelistEntries (recordPlan apply plan cl) = changelistEntries cl

variable {diffy fs apply absolutizeFrom}

theorem commitRecorded_dryRun (hdry : apply.dryRun = true) (plans : List PlannedPatch) (s : σ)
    (cl : Option WorkspaceChangelist) :
    commitRecorded fs.toDisk apply plans s cl = (.ok (), s, cl) := by
  induction plans with
  | nil => rfl
  | cons plan plans ih =>
    have hplan : commitPlanned fs.toDisk apply plan s = .done s := by
      cases plan <;> simp [commitPlanned, writePlanned, ensureParentDir, hdry, Ran.done,
        Ran.andThen]
    have hrecord : recordPlan apply plan cl = cl := by simp [recordPlan, hdry]
    simp only [commitRecorded, hplan, Ran.done, hrecord]
    exact ih

theorem runWithChangelist_refused {s : σ} (cl : Option WorkspaceChangelist) {patch : Option Str}
    {strip : ℕ} {e : ToolError}
    (h : patchPlans diffy fs.toDisk apply absolutizeFrom s patch strip = .error e) :
    let r := runWithChangelist diffy fs.toDisk apply absolutizeFrom s cl patch strip
    r.1.result = .error e ∧ r.1.state = s ∧ r.2 = cl := by
  have heq := runApplyPatch_eq diffy fs.toDisk apply absolutizeFrom s patch strip
  rw [h] at heq
  refine ⟨congrArg Prod.fst heq, congrArg Prod.snd heq, ?_⟩
  simp only [runWithChangelist, h]

theorem runWithChangelist_committed {s : σ} (cl : Option WorkspaceChangelist)
    {patch : Option Str} {strip : ℕ} {plans : List PlannedPatch}
    (h : patchPlans diffy fs.toDisk apply absolutizeFrom s patch strip = .ok plans) :
    let r := runWithChangelist diffy fs.toDisk apply absolutizeFrom s cl patch strip
    let committed := commitRecorded fs.toDisk apply plans s cl
    ((∃ report, r.1.result = .ok report) ↔ committed.1 = .ok ()) ∧
      r.1.state = committed.2.1 ∧ r.2 = committed.2.2 := by
  have heq := runApplyPatch_eq diffy fs.toDisk apply absolutizeFrom s patch strip
  obtain ⟨hresult, hstate⟩ := commitRecorded_eq_commitAll fs.toDisk apply plans s cl
  rw [h, settle] at heq
  have hfst := congrArg Prod.fst heq
  have hsnd := congrArg Prod.snd heq
  dsimp only at hfst hsnd
  refine ⟨?_, hsnd.trans hstate.symm, by simp only [runWithChangelist, h]⟩
  rw [hresult, runWithChangelist, hfst]
  cases (commitAll fs.toDisk apply plans s).result with
  | error e => simp [Except.mapError, Except.map]
  | ok => simp [Except.mapError, Except.map]

end AllOrNothing

section SameFileTwice

/-- A file system whose state is its files and the text staged beside a target. -/
def plainFiles : FileSystem ((FsPath → Option FileContent) × Option Str) FsPath where
  present s p := (s.1 (p.filter (· ≠ .curDir))).isSome || p = absolute ["w".toList]
  readToString s p :=
    match s.1 (p.filter (· ≠ .curDir)) with
    | some (.text t) => .ok t
    | _ => .error "No such file or directory (os error 2)".toList
  revisionOfPath _ _ := .error []
  targetHasMultipleLinks _ _ := false
  leftByWriteBack s _ := s
  createDirAll s _ := .ok s
  createTmp s _ t := .ok (s.1, some t)
  commitTmp s p :=
    match s.2 with
    | some t => .ok (Function.update s.1 (p.filter (· ≠ .curDir)) (some (.text t)), none)
    | none => .error []
  removeFile s p :=
    match s.1 (p.filter (· ≠ .curDir)) with
    | some _ => .ok (Function.update s.1 (p.filter (· ≠ .curDir)) none, s.2)
    | none => .error "No such file or directory (os error 2)".toList
  fileAt p := p.filter (· ≠ .curDir)
  content s := s.1
  read_ok := by
    intro s p t h
    split at h
    · next u hu => rw [hu, Except.ok.inj h]
    · cases h
  absent := by
    intro s p h
    simp only [Bool.or_eq_false_iff, isSome_eq_false_iff, isNone_iff_eq_none] at h
    exact h.1
  createDirAll_ok := by
    intro s p s' h
    rw [Except.ok.inj h]
  createDirAll_links _ := rfl
  createTmp_ok := by
    intro s p t s' h
    rw [← Except.ok.inj h]
  commitTmp_ok := by
    intro s p t s₁ s₂ h₁ h₂
    obtain rfl := Except.ok.inj h₁
    exact congrArg Prod.fst (Except.ok.inj h₂).symm
  removeFile_ok := by
    intro s p s' h
    split at h
    · rw [← Except.ok.inj h]
    · cases h

def firstLineChunk : Str := "--- f\n+++ f\n@@ -1,1 +1,1 @@\n-a\n+A\n".toList

def lastLineChunk : Str := "--- f\n+++ f\n@@ -3,1 +3,1 @@\n-b\n+B\n".toList

/-- What the library makes of these two chunks on the texts that occur. -/
def twoLineDiffy : Diffy Str where
  fromStr := .ok
  apply before chunk :=
    if chunk = firstLineChunk ∧ before = "a\nx\nb\n".toList then .ok "A\nx\nb\n".toList
    else if chunk = lastLineChunk ∧ before = "a\nx\nb\n".toList then .ok "a\nx\nB\n".toList
    else if chunk = lastLineChunk ∧ before = "A\nx\nb\n".toList then .ok "A\nx\nB\n".toList
    else .error "error applying hunk #1".toList

def twoChunkRoot : PatchApply := ⟨["w".toList], false, none⟩

end SameFileTwice

end CrabMate
