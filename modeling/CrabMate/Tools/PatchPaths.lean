import CrabMate.Tools.Patch

/-! Which files a patch can reach. The headers are validated without their `a/` or `b/`, but used
without their first `strip` components; the theorem says for which headers the second path stays
in the workspace. -/
namespace CrabMate
open RustStr LexPath List

section Validation

variable {absolutizeFrom : AbsolutizeFrom} {present : List Str → Bool} {root : List Str}

theorem existingAncestor_within (hroot : present root = true) {up : List Str}
    (h : root.reverse <:+ up) :
    ∃ ancestor, existingAncestor present up = some ancestor ∧ root <+: ancestor := by
  induction up with
  | nil =>
    have hnil : root = [] := by simpa using eq_nil_of_suffix_nil h
    exact ⟨[], by simp [existingAncestor, hnil ▸ hroot], by simp [hnil]⟩
  | cons name up ih =>
    rw [existingAncestor]
    split
    · refine ⟨_, rfl, ?_⟩
      simpa using reverse_prefix.mpr h
    · next habsent =>
      rcases suffix_cons_iff.mp h with heq | htail
      · rw [← heq, reverse_reverse] at habsent
        exact absurd hroot habsent
      · exact ih htail

theorem ensureExistingAncestorWithinRoot_ok (hroot : present root = true) {target : List Str}
    (h : root <+: target) : ensureExistingAncestorWithinRoot present root target = .ok () := by
  obtain ⟨ancestor, hancestor, hin⟩ :=
    existingAncestor_within hroot (reverse_suffix.mpr h)
  simp only [ensureExistingAncestorWithinRoot, hancestor]
  exact if_pos hin

/-- Without symbolic links the ancestor check adds nothing. -/
theorem validateSinglePath_present (hroot : present root = true) (rawPath : Str) :
    validateSinglePath absolutizeFrom present root rawPath =
      validateSinglePath absolutizeFrom (fun _ => true) root rawPath := by
  simp only [validateSinglePath]
  split
  · rfl
  · split
    · rfl
    · next normalized hnorm =>
      have hin : root <+: normalized := by
        unfold absolutizeRelativeUnderRoot at hnorm
        simp only at hnorm
        split at hnorm
        · cases hnorm
        · split at hnorm
          · cases hnorm
          · split at hnorm
            · next h =>
              cases hnorm
              exact h
            · cases hnorm
      have hall : (fun _ : List Str => true) root = true := rfl
      rw [ensureExistingAncestorWithinRoot_ok hroot hin,
        ensureExistingAncestorWithinRoot_ok hall hin]

theorem validateHeaders_present (hroot : present root = true) (headers : List Str) :
    validateHeaders absolutizeFrom present root headers =
      validateHeaders absolutizeFrom (fun _ => true) root headers := by
  induction headers with
  | nil => rfl
  | cons rawPath rest ih =>
    simp only [validateHeaders, ih, validateSinglePath_present hroot]

/-- The headers pass the validation. -/
def acceptsHeaders (absolutizeFrom : AbsolutizeFrom) (patchText : Str) (root : List Str) : Bool :=
  (validatePatchPaths absolutizeFrom (fun _ => true) patchText root).isOk

theorem validatePatchPaths_present (hroot : present root = true) (patchText : Str) :
    validatePatchPaths absolutizeFrom present patchText root =
      validatePatchPaths absolutizeFrom (fun _ => true) patchText root := by
  simp only [validatePatchPaths, validateHeaders_present hroot]

end Validation

section Commit

variable {σ : Type} {disk : Disk σ} {apply : PatchApply}

theorem Ran.mem_andThen {r : Ran σ} {next : σ → Ran σ} {a : Access}
    (h : a ∈ (r.andThen next).trace) : a ∈ r.trace ∨ a ∈ (next r.state).trace := by
  unfold Ran.andThen at h
  split at h
  · exact .inl h
  · exact mem_append.mp h

theorem Ran.trace_call (access : Access) (s : σ) (answer : Except Str σ) :
    (Ran.call access s answer).trace = [access] := by
  cases answer <;> rfl

theorem trace_commitTmpOverTarget (target : FsPath) (preserveInode : Bool) (s : σ) :
    (commitTmpOverTarget disk target preserveInode s).trace = [.write target] := by
  unfold commitTmpOverTarget
  split <;> rfl

theorem Ran.andThen_ok {r : Ran σ} (h : r.result = .ok ()) (next : σ → Ran σ) :
    r.andThen next =
      ⟨(next r.state).result, (next r.state).state, r.trace ++ (next r.state).trace⟩ := by
  simp [Ran.andThen, h]

theorem verifyWriteRevision_file {target : FsPath} {s : σ} {a : Access}
    (h : a ∈ (verifyWriteRevision disk apply target s).trace) : a = .read target := by
  unfold verifyWriteRevision at h
  split at h
  · cases h
  · rw [Ran.trace_call] at h
    exact mem_singleton.mp h

theorem writePlanned_file {rel content : Str} {s : σ} {a : Access} {path : FsPath}
    (h : a ∈ (writePlanned disk apply rel content s).trace) (hp : a.file = some path) :
    path = apply.path rel := by
  unfold writePlanned at h
  split at h
  · cases h
  · unfold writeBytesWithRevisionGuard at h
    rcases Ran.mem_andThen h with h | h
    · rw [mem_singleton.mp h] at hp
      exact (Option.some.inj hp).symm
    · rcases Ran.mem_andThen h with h | h
      · rw [Ran.trace_call] at h
        rw [mem_singleton.mp h] at hp
        cases hp
      · rcases Ran.mem_andThen h with h | h
        · rw [verifyWriteRevision_file h] at hp
          exact (Option.some.inj hp).symm
        · rw [trace_commitTmpOverTarget] at h
          rw [mem_singleton.mp h] at hp
          exact (Option.some.inj hp).symm

/-- A commit uses no file but its own. -/
theorem commitPlanned_file {plan : PlannedPatch} {s : σ} {a : Access} {path : FsPath}
    (h : a ∈ (commitPlanned disk apply plan s).trace) (hp : a.file = some path) :
    path = apply.path plan.rel := by
  cases plan with
  | modify rel before after => exact writePlanned_file h hp
  | create rel after =>
    rcases Ran.mem_andThen h with h | h
    · unfold ensureParentDir at h
      split at h
      · cases h
      · split at h
        · cases h
        · have h : a ∈ (Ran.call (.makeDirs _) s _).trace := h
          rw [Ran.trace_call] at h
          rw [mem_singleton.mp h] at hp
          cases hp
    · exact writePlanned_file h hp
  | delete rel before =>
    simp only [commitPlanned] at h
    split at h
    · cases h
    · rcases Ran.mem_andThen h with h | h
      · rw [verifyWriteRevision_file h] at hp
        exact (Option.some.inj hp).symm
      · have h : a ∈ (Ran.call (.remove _) _ _).trace := h
        rw [Ran.trace_call] at h
        rw [mem_singleton.mp h] at hp
        exact (Option.some.inj hp).symm

theorem commitAll_file {plans : List PlannedPatch} {s : σ} {a : Access} {path : FsPath}
    (h : a ∈ (commitAll disk apply plans s).trace) (hp : a.file = some path) :
    ∃ plan ∈ plans, path = apply.path plan.rel := by
  induction plans generalizing s with
  | nil => cases h
  | cons plan plans ih =>
    rcases Ran.mem_andThen h with h | h
    · exact ⟨plan, mem_cons_self, commitPlanned_file h hp⟩
    · obtain ⟨q, hq, heq⟩ := ih h
      exact ⟨q, mem_cons_of_mem _ hq, heq⟩

end Commit

section Plan

/-- The path of a chunk that is used on the disk. -/
def usedPath (filePath originalPath : Str) : Str :=
  if classifyDevNullHunk filePath originalPath = some .delete then originalPath else filePath

/-- The chunk applies when the files it modifies have the given contents. -/
def ChunkApplies {P : Type} (diffy : Diffy P) (root : List Str) (contents : FsPath → Option Str)
    (strip : ℕ) (chunk : Str) : Prop :=
  ∃ filePath originalPath, extractTargetPath chunk strip = some (filePath, originalPath) ∧
    match classifyDevNullHunk filePath originalPath with
    | some .create => (patched diffy filePath [] chunk).isOk
    | some .delete => True
    | none => ∃ before, contents (join (absolute root) (components filePath)) = some before ∧
        (patched diffy filePath before chunk).isOk

variable {P σ : Type} {diffy : Diffy P} {disk : Disk σ} {apply : PatchApply} {s : σ}
  {chunk : Str} {strip : ℕ}

/-- Planning reads no file but the used one. -/
theorem planSingleHunk_file {a : Access} {path : FsPath}
    (h : a ∈ (planSingleHunk diffy disk apply s chunk strip).2) (hp : a.file = some path) :
    ∃ filePath originalPath, extractTargetPath chunk strip = some (filePath, originalPath) ∧
      classifyDevNullHunk filePath originalPath ≠ some .create ∧
      path = apply.path (usedPath filePath originalPath) := by
  unfold planSingleHunk at h
  split at h
  · cases h
  · next filePath originalPath hextract =>
    refine ⟨filePath, originalPath, hextract, ?_⟩
    split at h
    · cases h
    · next hkind =>
      refine ⟨by simp [hkind], ?_⟩
      rw [usedPath, if_pos hkind]
      have hsource : a = .stat (apply.path originalPath) ∨
          a = .read (apply.path originalPath) := by
        simp only at h
        split at h
        · simpa using h
        · exact .inl (by simpa using h)
      rcases hsource with rfl | rfl
      · exact (Option.some.inj hp).symm
      · exact (Option.some.inj hp).symm
    · next hkind =>
      refine ⟨by simp [hkind], ?_⟩
      rw [usedPath, if_neg (by simp [hkind])]
      rw [mem_singleton.mp h] at hp
      exact (Option.some.inj hp).symm

theorem planSingleHunk_rel {plan : PlannedPatch}
    (h : (planSingleHunk diffy disk apply s chunk strip).1 = .ok (some plan)) :
    ∃ filePath originalPath, extractTargetPath chunk strip = some (filePath, originalPath) ∧
      plan.rel = usedPath filePath originalPath := by
  unfold planSingleHunk at h
  split at h
  · cases h
  · next filePath originalPath hextract =>
    refine ⟨filePath, originalPath, hextract, ?_⟩
    split at h
    · next hkind =>
      rw [usedPath, if_neg (by simp [hkind])]
      simp only at h
      cases hp : patched diffy filePath [] chunk with
      | error e => simp [hp, Except.map] at h
      | ok after =>
        simp only [hp, Except.map, Except.ok.injEq, Option.some.injEq] at h
        rw [← h]
        rfl
    · next hkind =>
      rw [usedPath, if_pos hkind]
      simp only at h
      split at h
      · cases h
        rfl
      · cases h
    · next hkind =>
      rw [usedPath, if_neg (by simp [hkind])]
      simp only [bind, Except.bind, pure, Except.pure] at h
      split at h
      · cases h
      · split at h
        · cases h
        · cases h
          rfl

theorem planSingleHunk_isOk :
    (planSingleHunk diffy disk apply s chunk strip).1.isOk = true ↔
      ChunkApplies diffy apply.root (fun path => (disk.readToString s path).toOption) strip
        chunk := by
  cases hextract : extractTargetPath chunk strip with
  | none => simp [planSingleHunk, ChunkApplies, hextract, Except.isOk, Except.toBool]
  | some paths =>
    obtain ⟨filePath, originalPath⟩ := paths
    cases hkind : classifyDevNullHunk filePath originalPath with
    | some kind =>
      cases kind with
      | create =>
        cases hp : patched diffy filePath [] chunk with
        | error e =>
          simp [planSingleHunk, ChunkApplies, hextract, hkind, hp, Except.isOk, Except.toBool,
            Except.map]
        | ok after =>
          simp [planSingleHunk, ChunkApplies, hextract, hkind, hp, Except.isOk, Except.toBool,
            Except.map]
      | delete =>
        by_cases hpresent : disk.present s (apply.path originalPath) = true
        · simp [planSingleHunk, ChunkApplies, hextract, hkind, hpresent, Except.isOk,
            Except.toBool]
        · simp [planSingleHunk, ChunkApplies, hextract, hkind, hpresent, Except.isOk,
            Except.toBool]
    | none =>
      have hpath : join (absolute apply.root) (components filePath) = apply.path filePath := rfl
      cases hread : disk.readToString s (apply.path filePath) with
      | error e =>
        simp [planSingleHunk, ChunkApplies, hextract, hkind, hpath, hread, Except.isOk,
          Except.toBool, Except.toOption, Except.mapError, bind, Except.bind]
      | ok before =>
        cases hp : patched diffy filePath before chunk with
        | error e =>
          simp [planSingleHunk, ChunkApplies, hextract, hkind, hpath, hread, hp, Except.isOk,
            Except.toBool, Except.toOption, Except.mapError, bind, Except.bind]
        | ok after =>
          simp [planSingleHunk, ChunkApplies, hextract, hkind, hpath, hread, hp, Except.isOk,
            Except.toBool, Except.toOption, Except.mapError, bind, Except.bind, pure, Except.pure]

end Plan

section Apply

variable {P σ : Type} {diffy : Diffy P} {disk : Disk σ} {apply : PatchApply} {s : σ}
  {patchText : Str} {strip : ℕ}

/-- Every file of the trace lies under the root. -/
def Inside (root : List Str) (trace : List Access) : Prop :=
  ∀ a ∈ trace, ∀ path, a.file = some path → root <+: resolve [] path

/-- The unified-diff library reads every chunk of the patch. -/
def allParse (diffy : Diffy P) (patchText : Str) : Bool :=
  (splitPatchByFile patchText).all fun chunk => (diffy.fromStr chunk).isOk

/-- Some contents of the modified files make every chunk of the patch apply. -/
def Applicable (diffy : Diffy P) (root : List Str) (patchText : Str) (strip : ℕ) : Prop :=
  ∃ contents, ∀ chunk ∈ splitPatchByFile patchText,
    ChunkApplies diffy root contents strip chunk

/-- The used paths of the patch stay under the root; that of a new file matters only if the
patch as a whole can apply. -/
def UsedPathsStay (diffy : Diffy P) (root : List Str) (patchText : Str) (strip : ℕ) : Prop :=
  ∀ chunk ∈ splitPatchByFile patchText, ∀ filePath originalPath,
    extractTargetPath chunk strip = some (filePath, originalPath) →
    (classifyDevNullHunk filePath originalPath = some .create →
      Applicable diffy root patchText strip) →
    (normalize (components (usedPath filePath originalPath))).Stays root

theorem allParse_iff :
    ((splitPatchByFile patchText).filterMap fun chunk => errorOf (diffy.fromStr chunk)).head? =
      none ↔ allParse diffy patchText = true := by
  rw [head?_eq_none_iff, filterMap_eq_nil_iff, allParse, all_eq_true]
  refine forall₂_congr fun chunk _ => ?_
  cases diffy.fromStr chunk <;> simp [errorOf, Except.isOk, Except.toBool]

theorem errors_nil_iff (chunks : List Str) :
    ((chunks.map fun chunk => planSingleHunk diffy disk apply s chunk strip).filterMap
      fun p => errorOf p.1) = [] ↔
      ∀ chunk ∈ chunks, ChunkApplies diffy apply.root
        (fun path => (disk.readToString s path).toOption) strip chunk := by
  rw [filterMap_eq_nil_iff, forall_mem_map]
  refine forall₂_congr fun chunk _ => ?_
  rw [← planSingleHunk_isOk]
  cases (planSingleHunk diffy disk apply s chunk strip).1 <;>
    simp [errorOf, Except.isOk, Except.toBool]

theorem plan_of_mem {chunks : List Str} {plan : PlannedPatch}
    (h : plan ∈ (chunks.map fun chunk => planSingleHunk diffy disk apply s chunk strip).filterMap
      fun p => p.1.toOption.join) :
    ∃ chunk ∈ chunks, (planSingleHunk diffy disk apply s chunk strip).1 = .ok (some plan) := by
  obtain ⟨p, hp, hplan⟩ := mem_filterMap.mp h
  obtain ⟨chunk, hchunk, rfl⟩ := mem_map.mp hp
  refine ⟨chunk, hchunk, ?_⟩
  cases hres : (planSingleHunk diffy disk apply s chunk strip).1 with
  | error e => simp [hres, Except.toOption] at hplan
  | ok plan? => simpa [hres, Except.toOption] using hplan

theorem applyUnifiedPatch_inside (h : UsedPathsStay diffy apply.root patchText strip) :
    Inside apply.root (applyUnifiedPatch diffy disk apply s patchText strip).trace := by
  have hplanned : Inside apply.root (((splitPatchByFile patchText).map fun chunk =>
      planSingleHunk diffy disk apply s chunk strip).flatMap Prod.snd) := by
    intro a ha path hp
    obtain ⟨p, hmem, ha⟩ := mem_flatMap.mp ha
    obtain ⟨chunk, hchunk, rfl⟩ := mem_map.mp hmem
    obtain ⟨filePath, originalPath, hextract, hkind, rfl⟩ := planSingleHunk_file ha hp
    exact (stays_iff_resolve _ _).mp
      (h chunk hchunk filePath originalPath hextract fun hc => absurd hc hkind)
  unfold applyUnifiedPatch
  simp only
  split
  · exact fun a ha => absurd ha (not_mem_nil)
  · split
    · exact hplanned
    · next herrors =>
      have happlies := (errors_nil_iff _).mp (by simpa using herrors)
      split
      · exact hplanned
      · intro a ha path hp
        rcases mem_append.mp ha with ha | ha
        · exact hplanned a ha path hp
        · obtain ⟨plan, hplan, rfl⟩ := commitAll_file ha hp
          obtain ⟨chunk, hchunk, hok⟩ := plan_of_mem hplan
          obtain ⟨filePath, originalPath, hextract, hrel⟩ := planSingleHunk_rel hok
          rw [hrel]
          exact (stays_iff_resolve _ _).mp
            (h chunk hchunk filePath originalPath hextract fun _ => ⟨_, happlies⟩)

end Apply

section Reach

/-- A disk on which every file is there, with the given contents, and every operation works. -/
def willingDisk (contents : FsPath → Option Str) : Disk Unit where
  present _ _ := true
  readToString _ path := (contents path).elim (.error []) .ok
  revisionOfPath _ _ := .ok []
  targetHasMultipleLinks _ _ := false
  createDirAll s _ := .ok s
  createTmp s _ _ := .ok s
  commitTmp s _ := .ok s
  leftByWriteBack s _ := s
  removeFile s _ := .ok s

variable {P : Type} {diffy : Diffy P} {contents : FsPath → Option Str} {root : List Str}
  {patchText : Str} {strip : ℕ}

theorem commitPlanned_willing (plan : PlannedPatch) :
    (commitPlanned (willingDisk contents) ⟨root, false, none⟩ plan ()).result = .ok () ∧
      ∃ a ∈ (commitPlanned (willingDisk contents) ⟨root, false, none⟩ plan ()).trace,
        a.file = some (PatchApply.path ⟨root, false, none⟩ plan.rel) := by
  cases plan with
  | modify rel before after => exact ⟨rfl, _, mem_cons_self, rfl⟩
  | create rel after =>
    simp only [commitPlanned, ensureParentDir]
    cases parent (PatchApply.path ⟨root, false, none⟩ rel) with
    | none => exact ⟨rfl, _, mem_cons_self, rfl⟩
    | some dir => exact ⟨rfl, _, mem_cons_of_mem _ mem_cons_self, rfl⟩
  | delete rel before => exact ⟨rfl, _, mem_cons_self, rfl⟩

theorem commitAll_willing {plans : List PlannedPatch} {plan : PlannedPatch} (h : plan ∈ plans) :
    ∃ a ∈ (commitAll (willingDisk contents) ⟨root, false, none⟩ plans ()).trace,
      a.file = some (PatchApply.path ⟨root, false, none⟩ plan.rel) := by
  induction plans with
  | nil => cases h
  | cons first plans ih =>
    obtain ⟨hok, a, ha, hp⟩ := commitPlanned_willing first
    rw [commitAll, Ran.andThen_ok hok]
    rcases mem_cons.mp h with rfl | h
    · exact ⟨a, mem_append_left _ ha, hp⟩
    · obtain ⟨b, hb, hbp⟩ := ih h
      exact ⟨b, mem_append_right _ hb, hbp⟩

theorem willingDisk_contents (contents : FsPath → Option Str) :
    (fun path => ((willingDisk contents).readToString () path).toOption) = contents := by
  funext path
  show ((contents path).elim (.error []) .ok : Except Str Str).toOption = contents path
  cases contents path <;> rfl

/-- The trace begins with what planning read. -/
theorem mem_trace_of_planned {σ : Type} {disk : Disk σ} {apply : PatchApply} {s : σ}
    (hparse : allParse diffy patchText = true) {chunk : Str}
    (hchunk : chunk ∈ splitPatchByFile patchText) {a : Access}
    (ha : a ∈ (planSingleHunk diffy disk apply s chunk strip).2) :
    a ∈ (applyUnifiedPatch diffy disk apply s patchText strip).trace := by
  have hmem : a ∈ ((splitPatchByFile patchText).map fun chunk =>
      planSingleHunk diffy disk apply s chunk strip).flatMap Prod.snd :=
    mem_flatMap.mpr ⟨_, mem_map_of_mem hchunk, ha⟩
  unfold applyUnifiedPatch
  simp only [allParse_iff.mpr hparse]
  split
  · exact hmem
  · split
    · exact hmem
    · exact mem_append_left _ hmem

/-- Planning a chunk that does not create a file uses its path. -/
theorem planSingleHunk_uses {σ : Type} {disk : Disk σ} {apply : PatchApply} {s : σ} {chunk : Str}
    {filePath originalPath : Str}
    (hextract : extractTargetPath chunk strip = some (filePath, originalPath))
    (hkind : classifyDevNullHunk filePath originalPath ≠ some .create) :
    ∃ a ∈ (planSingleHunk diffy disk apply s chunk strip).2,
      a.file = some (apply.path (usedPath filePath originalPath)) := by
  cases hclass : classifyDevNullHunk filePath originalPath with
  | none =>
    simp only [planSingleHunk, hextract, hclass, usedPath, reduceCtorEq, if_false]
    exact ⟨_, mem_cons_self, rfl⟩
  | some kind =>
    cases kind with
    | create => exact absurd hclass hkind
    | delete =>
      simp only [planSingleHunk, hextract, hclass, usedPath, if_true]
      split
      · exact ⟨_, mem_cons_self, rfl⟩
      · exact ⟨_, mem_cons_self, rfl⟩

/-- The used path of a chunk is used; that of a new file when the patch applies. -/
theorem applyUnifiedPatch_uses (hparse : allParse diffy patchText = true) {chunk : Str}
    (hchunk : chunk ∈ splitPatchByFile patchText) {filePath originalPath : Str}
    (hextract : extractTargetPath chunk strip = some (filePath, originalPath))
    (happlies : classifyDevNullHunk filePath originalPath = some .create →
      ∀ chunk ∈ splitPatchByFile patchText, ChunkApplies diffy root contents strip chunk) :
    ∃ a ∈ (applyUnifiedPatch diffy (willingDisk contents) ⟨root, false, none⟩ () patchText
        strip).trace,
      a.file = some (PatchApply.path ⟨root, false, none⟩ (usedPath filePath originalPath)) := by
  by_cases hkind : classifyDevNullHunk filePath originalPath = some .create
  · have hall := happlies hkind
    rw [← willingDisk_contents contents] at hall
    have herrors : (((splitPatchByFile patchText).map fun chunk => planSingleHunk diffy
        (willingDisk contents) ⟨root, false, none⟩ () chunk strip).filterMap
          fun p => errorOf p.1) = [] := (errors_nil_iff _).mpr hall
    obtain ⟨f, o, hextract', happly⟩ := hall chunk hchunk
    rw [hextract, Option.some.injEq, Prod.mk.injEq] at hextract'
    obtain ⟨rfl, rfl⟩ := hextract'
    simp only [hkind] at happly
    cases hp : patched diffy filePath [] chunk with
    | error e => simp [hp, Except.isOk, Except.toBool] at happly
    | ok after =>
      have hplan : (.create filePath after : PlannedPatch) ∈
          ((splitPatchByFile patchText).map fun chunk => planSingleHunk diffy
            (willingDisk contents) ⟨root, false, none⟩ () chunk strip).filterMap
              fun p => p.1.toOption.join := by
        refine mem_filterMap.mpr ⟨_, mem_map_of_mem hchunk, ?_⟩
        simp [planSingleHunk, hextract, hkind, hp, Except.map, Except.toOption]
      obtain ⟨a, ha, hfile⟩ := commitAll_willing hplan
      refine ⟨a, ?_, ?_⟩
      · unfold applyUnifiedPatch
        simp only [allParse_iff.mpr hparse]
        rw [if_neg (by simp [herrors]), if_neg (by simp [baseRevisionArg])]
        exact mem_append_right _ ha
      · rw [usedPath, if_neg (by simp [hkind])]
        exact hfile
  · obtain ⟨a, ha, hfile⟩ := planSingleHunk_uses hextract hkind
    exact ⟨a, mem_trace_of_planned hparse hchunk ha, hfile⟩

/-- On every disk without symbolic links, in preview or not, the call uses files under the root
only. -/
def StaysInWorkspace (diffy : Diffy P) (absolutizeFrom : AbsolutizeFrom) (root : List Str)
    (patch : Option Str) (strip : ℕ) : Prop :=
  ∀ (σ : Type) (disk : Disk σ) (s : σ) (dryRun : Bool) (baseRevision : Option Str),
    disk.present s (absolute root) = true →
    Inside root (runApplyPatch diffy disk ⟨root, dryRun, baseRevision⟩ absolutizeFrom s patch
      strip).trace

/-- The call stays in the workspace exactly if nothing is applied (no patch, headers refused, a
chunk the diff library cannot read), or the paths left after `strip` components stay there. -/
theorem applyPatch_stays_iff (diffy : Diffy P) (absolutizeFrom : AbsolutizeFrom)
    (root : List Str) (patch : Option Str) (strip : ℕ) :
    StaysInWorkspace diffy absolutizeFrom root patch strip ↔
      ∀ patchText, patch = some patchText → (trim patchText).isEmpty = false →
        acceptsHeaders absolutizeFrom patchText root = true →
        allParse diffy patchText = true →
        UsedPathsStay diffy root patchText strip := by
  constructor
  · rintro h patchText rfl hblank haccepts hparse chunk hchunk filePath originalPath hextract
      hcreate
    have hcontents : ∃ contents, classifyDevNullHunk filePath originalPath = some .create →
        ∀ chunk ∈ splitPatchByFile patchText, ChunkApplies diffy root contents strip chunk := by
      by_cases hkind : classifyDevNullHunk filePath originalPath = some .create
      · obtain ⟨contents, hall⟩ := hcreate hkind
        exact ⟨contents, fun _ => hall⟩
      · exact ⟨fun _ => none, fun hc => absurd hc hkind⟩
    obtain ⟨contents, happlies⟩ := hcontents
    obtain ⟨a, ha, hfile⟩ := applyUnifiedPatch_uses hparse hchunk hextract happlies
    rw [stays_iff_resolve]
    have hvalid : validatePatchPaths absolutizeFrom (fun _ => true) patchText root = .ok () := by
      unfold acceptsHeaders at haccepts
      cases hv : validatePatchPaths absolutizeFrom (fun _ => true) patchText root with
      | error e => simp [hv, Except.isOk, Except.toBool] at haccepts
      | ok u => rfl
    refine h Unit (willingDisk contents) () false none rfl a ?_ _ hfile
    show a ∈ (runApplyPatch diffy (willingDisk contents) ⟨root, false, none⟩ absolutizeFrom ()
      (some patchText) strip).trace
    have hsome : Option.filter (fun p => !(trim p).isEmpty) (some patchText) =
        some patchText := by
      simp [Option.filter_some, hblank]
    simp only [runApplyPatch, hsome, willingDisk, hvalid]
    exact ha
  · intro h σ disk s dryRun baseRevision hroot
    unfold runApplyPatch
    split
    · exact fun a ha => absurd ha not_mem_nil
    · next patchText hpatch =>
      rw [Option.filter_eq_some_iff] at hpatch
      have hsame : validatePatchPaths absolutizeFrom (fun dir => disk.present s (absolute dir))
          patchText root = validatePatchPaths absolutizeFrom (fun _ => true) patchText root :=
        validatePatchPaths_present hroot patchText
      simp only [hsame]
      split
      · exact fun a ha => absurd ha not_mem_nil
      · next hvalid =>
        cases hparse : allParse diffy patchText with
        | true =>
          exact applyUnifiedPatch_inside (h patchText hpatch.1 (by simpa using hpatch.2)
            (by simp [acceptsHeaders, hvalid, Except.isOk, Except.toBool]) hparse)
        | false =>
          have hfail : ((splitPatchByFile patchText).filterMap fun chunk =>
              errorOf (diffy.fromStr chunk)).head? ≠ none := by
            rw [ne_eq, allParse_iff, hparse]
            simp
          unfold applyUnifiedPatch
          simp only
          split
          · exact fun a ha => absurd ha not_mem_nil
          · next hnone => exact absurd hnone hfail

/-- A diff library that knows the patch turning the line `a` into `b`. -/
def lineDiffy : Diffy Str where
  fromStr := .ok
  apply before _ := if before = "a\n".toList then .ok "b\n".toList
    else .error "error applying hunk #1".toList

/-- With `strip = 1` the validated header `x//etc/passwd` is used as `/etc/passwd`. -/
theorem strip_leaves_workspace :
    .write (absolute ["etc".toList, "passwd".toList]) ∈
        (runApplyPatch lineDiffy (willingDisk fun _ => some "a\n".toList)
          ⟨["work".toList], false, none⟩ (fun root sub => resolve root (components sub)) ()
          (some "--- x//etc/passwd\n+++ x//etc/passwd\n@@ -1 +1 @@\n-a\n+b\n".toList) 1).trace ∧
      ¬StaysInWorkspace lineDiffy (fun root sub => resolve root (components sub))
        ["work".toList]
        (some "--- x//etc/passwd\n+++ x//etc/passwd\n@@ -1 +1 @@\n-a\n+b\n".toList) 1 := by
  have hwrite : .write (absolute ["etc".toList, "passwd".toList]) ∈
      (runApplyPatch lineDiffy (willingDisk fun _ => some "a\n".toList)
        ⟨["work".toList], false, none⟩ (fun root sub => resolve root (components sub)) ()
        (some "--- x//etc/passwd\n+++ x//etc/passwd\n@@ -1 +1 @@\n-a\n+b\n".toList) 1).trace := by
    decide +kernel
  refine ⟨hwrite, fun h => ?_⟩
  have hin := h Unit (willingDisk fun _ => some "a\n".toList) () false none rfl _ hwrite _ rfl
  exact absurd hin (by decide)

end Reach
end CrabMate
