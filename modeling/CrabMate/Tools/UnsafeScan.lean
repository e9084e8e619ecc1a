import CrabMate.Tools.Prepare

/-! The scan for arguments that a person has to approve, and the preparation that refuses
them. -/
namespace CrabMate
open RustStr LexPath List Except

section Scan

/-- A hit is listed once. -/
def recordUnsafe (found : List Str) (hit : Bool) (arg : Str) : List Str :=
  if hit && !found.contains arg then found ++ [arg] else found

def collectUnsafeCmdArgs (cmdName : Str) (cmdArgs : List Str) (hasWorkspaceExec : Bool) :
    List Str :=
  cmdArgs.filter fun a => argIsUnsafeForCmd cmdName a hasWorkspaceExec

variable (disk : DirDisk)

/-- Whether the directory lies outside the workspace, and the directory the scan goes on in. A
missing one is left to the preparation. -/
def scanCdJoinEscape (candidate anchor : Str) (patternUnsafe : Bool) (workingDir : Str) :
    Except RunCommandError (Bool × Str) :=
  if !disk.isDir candidate then .ok (false, workingDir)
  else
    match disk.canonicalize candidate with
    | .error e => .error (.cd (.spawnOther ("canonicalize(".toList ++ candidate ++ ")".toList) e))
    | .ok canonCand =>
      if !(components anchor).isPrefixOf (components canonCand) then .ok (true, workingDir)
      else .ok (false, if patternUnsafe then workingDir else canonCand)

/-- One directory of the scan, of a `cd` prefix or of the `cwd` field. -/
def scanDir (anchor workingDir dir : Str) : Except RunCommandError (Bool × Str) :=
  let patternUnsafe := !isArgSafe "cd".toList dir
  match scanCdJoinEscape disk (joinText workingDir dir) anchor patternUnsafe workingDir with
  | .error e => .error e
  | .ok (escapeUnsafe, next) => .ok (patternUnsafe || escapeUnsafe, next)

def canonicalizeWorkspace (workingDir : Str) : Except RunCommandError Str :=
  cdError <| match disk.canonicalize workingDir with
    | .error e => .error (.spawnOther "canonicalize(workspace)".toList e)
    | .ok anchor => .ok anchor

def scanExplicitCwdUnsafe (cwd workingDir : Str) : Except RunCommandError (Bool × Str) := do
  let anchor ← canonicalizeWorkspace disk workingDir
  scanDir disk anchor workingDir cwd

/-- The loop of `advance_cd_prefixes_collecting_unsafe`. -/
def advanceCdPrefixes (anchor workingDir cmd : Str) (args found : List Str) :
    Except RunCommandError (ResolvedCommand × List Str) :=
  if !isCd cmd then .ok (⟨cmd, args, workingDir⟩, found)
  else
    match _h : parseCdPrefix args with
    | some (dir, next :: rest) =>
      match scanDir disk anchor workingDir dir with
      | .error e => .error e
      | .ok (hit, workingDir) =>
        advanceCdPrefixes anchor workingDir (splitCommandPrefixIfEmbedded next rest).1
          (splitCommandPrefixIfEmbedded next rest).2 (recordUnsafe found hit dir)
    | _ => .ok (⟨cmd, args, workingDir⟩, found)
termination_by visible cmd + weight args
decreasing_by
  have hsplit := splitCommandPrefixIfEmbedded_weight next rest
  have hpeel := parseCdPrefix_weight _h
  omega

def advanceCdPrefixesCollectingUnsafe (workspaceRoot workingDir cmd : Str)
    (args found : List Str) : Except RunCommandError (ResolvedCommand × List Str) := do
  let anchor ← canonicalizeWorkspace disk workspaceRoot
  advanceCdPrefixes disk anchor workingDir cmd args found

variable (host : PrepareHost)

/-- A command that is not allowed is scanned all the same. -/
def collectUnsafeAfterResolve (r : ResolvedCommand) (found : List Str) :
    Except PrepareError (List Str) :=
  let workspaceExec := (startsWith "./".toList r.program || r.program.contains '/') &&
    (host.resolveWorkspaceExecutable r.dir r.program).isSome
  let collect := fun cmdName hasExec =>
    (collectUnsafeCmdArgs cmdName r.args hasExec).foldl (fun out a => recordUnsafe out true a) found
  match resolveRunCommandExecPath host r.program r.dir with
  | .ok named => .ok (collect named.1 named.2.isSome)
  | .error (.disallowedCommand _ _) => .ok (collect (host.toLowercase r.program) workspaceExec)
  | .error e => .error e

/-- The directory of the `cwd` field, and the field itself where it is unsafe. -/
def scanCwd (workingDir : Str) (cwd : Option Str) : Except RunCommandError (List Str × Str) :=
  match cwd with
  | none => .ok ([], workingDir)
  | some cwd => do
    let scanned ← scanExplicitCwdUnsafe disk cwd workingDir
    .ok (if scanned.1 then [cwd] else [], scanned.2)

def scanRunCommandUnsafeArgsSpec (workingDir : Str) (spec : CommandSpec) :
    Except PrepareError (List Str) := do
  let start ← liftRun (scanCwd host.disk workingDir spec.cwd)
  match spec.script with
  | some _ => .ok start.1
  | none => do
    let scanned ← liftRun (advanceCdPrefixesCollectingUnsafe host.disk workingDir start.2
      spec.command spec.args start.1)
    collectUnsafeAfterResolve host scanned.1 scanned.2

end Scan

section Found

variable {found args : List Str} {a : Str}

theorem recordUnsafe_hit_ne_nil (found : List Str) (arg : Str) :
    recordUnsafe found true arg ≠ [] := by
  unfold recordUnsafe
  split
  · exact append_ne_nil_of_right_ne_nil _ (cons_ne_nil _ _)
  · next h =>
    rintro rfl
    exact h rfl

theorem recordUnsafe_ne_nil {hit : Bool} (h : found ≠ []) : recordUnsafe found hit a ≠ [] := by
  unfold recordUnsafe
  split
  · exact append_ne_nil_of_left_ne_nil h _
  · exact h

theorem recordAll_eq_nil :
    args.foldl (fun out a => recordUnsafe out true a) found = [] ↔ found = [] ∧ args = [] := by
  induction args generalizing found with
  | nil => simp
  | cons a args ih =>
    rw [foldl_cons, ih]
    constructor
    · exact fun h => absurd h.1 (recordUnsafe_hit_ne_nil found a)
    · exact fun h => nomatch h.2

end Found

section Agreement

variable {disk : DirDisk} {anchor dir dir' d cmd : Str} {args found found' : List Str} {hit : Bool}
  {r : ResolvedCommand}

/-- Scanning one directory: what the preparation enters is no hit, what it refuses as unsafe is
one. -/
theorem scanDir_agrees (h : scanDir disk anchor dir d = .ok (hit, dir')) :
    (∀ w, resolveCdPrefixDir disk dir d anchor false = .ok w → hit = false ∧ dir' = w) ∧
      (resolveCdPrefixDir disk dir d anchor false = .error .unsafeArg → hit = true) := by
  unfold scanDir scanCdJoinEscape at h
  unfold resolveCdPrefixDir
  cases hsafe : isArgSafe "cd".toList d with
  | false =>
    simp only [hsafe] at h ⊢
    split at h
    · cases h
    · cases h
      simp
  | true =>
    cases hdir : disk.isDir (joinText dir d) with
    | false => simp [hdir]
    | true =>
      cases hcanon : disk.canonicalize (joinText dir d) with
      | error e => simp [hdir, hcanon]
      | ok w =>
        cases hbelow : (components anchor).isPrefixOf (components w) with
        | false =>
          simp only [hsafe, hdir, hcanon, hbelow] at h ⊢
          cases h
          simp
        | true =>
          simp only [hsafe, hdir, hcanon, hbelow] at h ⊢
          cases h
          simp

theorem peelCdPrefixes_of_cd {next : Str} {rest : List Str} (hcd : isCd cmd = true)
    (hparse : parseCdPrefix args = some (d, next :: rest)) :
    peelCdPrefixes disk anchor false dir cmd args =
      match resolveCdPrefixDir disk dir d anchor false with
      | .error e => .error e
      | .ok w => peelCdPrefixes disk anchor false w (splitCommandPrefixIfEmbedded next rest).1
          (splitCommandPrefixIfEmbedded next rest).2 := by
  rw [peelCdPrefixes.eq_def, hcd]
  simp only [Bool.not_true, Bool.false_eq_true, if_false]
  split
  · next d' next' rest' hparse' =>
    cases hparse.symm.trans hparse'
    rfl
  · next hnone => exact absurd hparse (hnone _ _ _)

theorem peelCdPrefixes_of_bare (hcd : isCd cmd = true)
    (hparse : ∀ d next rest, parseCdPrefix args ≠ some (d, next :: rest)) :
    peelCdPrefixes disk anchor false dir cmd args = .error (.cdPrefixInvalid cdUsage dir) := by
  rw [peelCdPrefixes.eq_def, hcd]
  simp only [Bool.not_true, Bool.false_eq_true, if_false]

/-- Where the preparation peels all prefixes, the scan has taken the same steps and found nothing
new; where a prefix is refused as unsafe, the scan has listed it. -/
theorem advanceCdPrefixes_agrees
    (h : advanceCdPrefixes disk anchor dir cmd args found = .ok (r, found')) :
    (found ≠ [] → found' ≠ []) ∧
      (∀ p, peelCdPrefixes disk anchor false dir cmd args = .ok p →
        r = ⟨p.2.cmd, p.2.args, p.1⟩ ∧ found' = found) ∧
      (peelCdPrefixes disk anchor false dir cmd args = .error .unsafeArg → found' ≠ []) := by
  fun_induction advanceCdPrefixes disk anchor dir cmd args found generalizing r found' with
  | case1 dir cmd args found hcd =>
    cases h
    rw [peelCdPrefixes_of_not_cd (by simpa using hcd)]
    exact ⟨id, fun p hp => by cases hp; exact ⟨rfl, rfl⟩, (fun hp => nomatch hp)⟩
  | case2 dir cmd args found hcd d next rest hparse e hscan => cases h
  | case3 dir cmd args found hcd d next rest hparse hit dir' hscan ih =>
    obtain ⟨hkeep, hok, herror⟩ := ih h
    obtain ⟨henter, hrefuse⟩ := scanDir_agrees hscan
    rw [peelCdPrefixes_of_cd (by simpa using hcd) hparse]
    cases hresolve : resolveCdPrefixDir disk dir d anchor false with
    | error e =>
      refine ⟨fun hfound => hkeep (recordUnsafe_ne_nil hfound), (fun p hp => nomatch hp), fun hp => hkeep ?_⟩
      cases hp
      rw [hrefuse hresolve]
      exact recordUnsafe_hit_ne_nil found d
    | ok w =>
      obtain ⟨rfl, rfl⟩ := henter w hresolve
      exact ⟨fun hfound => hkeep (recordUnsafe_ne_nil hfound), hok, herror⟩
  | case4 dir cmd args found hcd hparse =>
    cases h
    rw [peelCdPrefixes_of_bare (by simpa using hcd) hparse]
    exact ⟨id, (fun p hp => nomatch hp), (fun hp => nomatch hp)⟩

end Agreement

section Claim

variable {host : PrepareHost} {workingDir : Str} {spec : CommandSpec} {r : ResolvedCommand}
  {found hits : List Str}

def PrepareError.isUnsafeArg : PrepareError → Bool
  | .run .unsafeArg | .run (.cd .unsafeArg) => true
  | _ => false

/-- The directory of the `cwd` field, as the preparation enters it. -/
def enterCwd (disk : DirDisk) (workingDir anchor : Str) (cwd : Option Str) :
    Except RunCommandError Str :=
  match cwd with
  | none => .ok workingDir
  | some cwd => cdError (resolveCdPrefixDir disk workingDir cwd anchor false)

theorem resolveCommand_eq {anchor : Str} {host : CommandHost} (hskip : host.skipArgSafety = false)
    (hanchor : host.disk.canonicalize workingDir = .ok anchor) :
    resolveCommand host workingDir spec =
      (enterCwd host.disk workingDir anchor spec.cwd >>= fun dir =>
        initialInvocation spec host.allowed >>= fun cmd =>
          cdError (peelCdPrefixes host.disk anchor false dir cmd.1 cmd.2) >>= fun p =>
            .ok ⟨p.2.cmd, p.2.args, p.1⟩) := by
  unfold resolveCommand enterCwd peelWorkspaceCdPrefix
  rw [hanchor, hskip]
  cases spec.cwd <;> rfl

theorem resolveCommand_of_no_anchor {e : Str} {host : CommandHost}
    (hanchor : host.disk.canonicalize workingDir = .error e) :
    resolveCommand host workingDir spec =
      .error (.cd (.spawnOther "canonicalize(workspace)".toList e)) := by
  unfold resolveCommand
  rw [hanchor]
  rfl

/-- The `cwd` field is scanned and entered alike. -/
theorem scanCwd_agrees {disk : DirDisk} {anchor dir : Str} {cwd : Option Str}
    (hanchor : disk.canonicalize workingDir = .ok anchor)
    (h : scanCwd disk workingDir cwd = .ok (found, dir)) :
    (∀ w, enterCwd disk workingDir anchor cwd = .ok w → found = [] ∧ dir = w) ∧
      ∀ e, enterCwd disk workingDir anchor cwd = .error e →
        (PrepareError.run e).isUnsafeArg = true → found ≠ [] := by
  cases cwd with
  | none =>
    cases h
    exact ⟨fun w hw => ⟨rfl, Except.ok.inj hw⟩, (fun e he => nomatch he)⟩
  | some cwd =>
    obtain ⟨⟨hit, next⟩, hscan, h⟩ := bind_eq_ok.mp h
    cases h
    unfold scanExplicitCwdUnsafe canonicalizeWorkspace at hscan
    rw [hanchor] at hscan
    obtain ⟨henter, hrefuse⟩ := scanDir_agrees hscan
    have hcd : enterCwd disk workingDir anchor (some cwd) =
        cdError (resolveCdPrefixDir disk workingDir cwd anchor false) := rfl
    rw [hcd]
    cases hresolve : resolveCdPrefixDir disk workingDir cwd anchor false with
    | ok w =>
      obtain ⟨rfl, rfl⟩ := henter w hresolve
      exact ⟨fun w' hw => ⟨rfl, Except.ok.inj hw⟩, (fun e he => nomatch he)⟩
    | error e =>
      refine ⟨(fun w hw => nomatch hw), fun e' he hrefused => ?_⟩
      cases he
      cases e with
      | unsafeArg =>
        rw [if_pos (hrefuse hresolve)]
        exact cons_ne_nil _ _
      | _ => cases hrefused

/-- What the preparation resolves to is what is scanned, and nothing was listed on the way. -/
theorem resolveCommand_agrees {host : CommandHost} {dir : Str} (hskip : host.skipArgSafety = false)
    (hscript : spec.script = none)
    (hcwd : scanCwd host.disk workingDir spec.cwd = .ok (found, dir))
    (hscan : advanceCdPrefixesCollectingUnsafe host.disk workingDir dir spec.command spec.args
      found = .ok (r, hits)) :
    (∀ r', resolveCommand host workingDir spec = .ok r' → r' = r ∧ hits = []) ∧
      ∀ e, resolveCommand host workingDir spec = .error e →
        (PrepareError.run e).isUnsafeArg = true → hits ≠ [] := by
  obtain ⟨anchor, hanchor, hscan⟩ := bind_eq_ok.mp hscan
  replace hanchor : host.disk.canonicalize workingDir = .ok anchor := by
    unfold canonicalizeWorkspace at hanchor
    cases hc : host.disk.canonicalize workingDir with
    | error e =>
      rw [hc] at hanchor
      cases hanchor
    | ok a =>
      rw [hc] at hanchor
      cases hanchor
      rfl
  obtain ⟨henter, hrefuse⟩ := scanCwd_agrees hanchor hcwd
  obtain ⟨hkeep, hok, herror⟩ := advanceCdPrefixes_agrees hscan
  rw [resolveCommand_eq hskip hanchor]
  cases hdir : enterCwd host.disk workingDir anchor spec.cwd with
  | error e =>
    refine ⟨fun r' h => ?_, fun e' he hrefused => ?_⟩
    · cases h
    cases he
    exact hkeep (hrefuse e hdir hrefused)
  | ok w =>
    obtain ⟨rfl, rfl⟩ := henter w hdir
    have hinit : initialInvocation spec host.allowed = .ok (spec.command, spec.args) := by
      rw [initialInvocation, hscript]
    rw [hinit]
    simp only [ok_bind]
    cases hpeel : peelCdPrefixes host.disk anchor false dir spec.command spec.args with
    | ok p =>
      obtain ⟨rfl, rfl⟩ := hok p hpeel
      refine ⟨fun r' h => ⟨(Except.ok.inj h).symm, rfl⟩, fun e he => ?_⟩
      cases he
    | error e =>
      refine ⟨fun r' h => ?_, fun e' he hrefused => ?_⟩
      · cases h
      cases he
      cases e with
      | unsafeArg => exact herror hpeel
      | _ => cases hrefused

/-- The first part of a script's preparation can only be refused as unsafe for its `cwd`. -/
theorem resolveCommand_script {host : CommandHost} {dir script : Str}
    (hskip : host.skipArgSafety = false) (hscript : spec.script = some script)
    (hcwd : scanCwd host.disk workingDir spec.cwd = .ok (found, dir)) :
    (∀ r', resolveCommand host workingDir spec = .ok r' → found = []) ∧
      ∀ e, resolveCommand host workingDir spec = .error e →
        (PrepareError.run e).isUnsafeArg = true → found ≠ [] := by
  cases hanchor : host.disk.canonicalize workingDir with
  | error e =>
    rw [resolveCommand_of_no_anchor hanchor]
    refine ⟨(fun r' h => nomatch h), fun e' he hrefused => ?_⟩
    cases he
    cases hrefused
  | ok anchor =>
    obtain ⟨henter, hrefuse⟩ := scanCwd_agrees hanchor hcwd
    rw [resolveCommand_eq hskip hanchor]
    cases hdir : enterCwd host.disk workingDir anchor spec.cwd with
    | error e =>
      refine ⟨(fun r' h => nomatch h), fun e' he hrefused => ?_⟩
      cases he
      exact hrefuse e hdir hrefused
    | ok w =>
      refine ⟨fun _ _ => (henter w hdir).1, fun e he hrefused => ?_⟩
      rw [initialInvocation, hscript] at he
      cases hshell : posixShellOnAllowlist host.allowed with
      | none =>
        rw [hshell] at he
        cases he
        cases hrefused
      | some shell =>
        have hcd : isCd shell = false := by
          unfold posixShellOnAllowlist at hshell
          split_ifs at hshell <;> cases hshell <;> decide
        simp only [hshell, ok_bind, peelCdPrefixes_of_not_cd hcd] at he
        cases he

variable {p : PreparedRunCommand} {e : PrepareError} {named : Str × Option Str}

theorem liftRun_eq_ok {α : Type} {x : Except RunCommandError α} {a : α} :
    liftRun x = .ok a ↔ x = .ok a := by
  cases x with
  | error e => exact iff_of_false (fun h => nomatch h) (fun h => nomatch h)
  | ok b => exact ⟨fun h => congrArg _ (Except.ok.inj h), fun h => congrArg _ (Except.ok.inj h)⟩

theorem resolveRunCommandExecPath_error {cmd dir : Str}
    (h : resolveRunCommandExecPath host cmd dir = .error e) :
    ∃ attempted allowed, e = .disallowedCommand attempted allowed := by
  simp only [resolveRunCommandExecPath] at h
  generalize (if startsWith "./".toList cmd || cmd.contains '/' then
    host.resolveWorkspaceExecutable dir cmd else none) = execPath at h
  split at h
  · exact ⟨_, _, (Except.error.inj h).symm⟩
  · cases h

theorem checkUnless_error {skip : Bool} {check : Except PrepareError Unit}
    (h : checkUnless skip check = .error e) : skip = false ∧ check = .error e := by
  cases skip with
  | false => exact ⟨rfl, h⟩
  | true => cases h

theorem shellVariable_not_refused {cmd : Str} {args : List Str}
    (h : checkShellVariableReferences cmd args = .error e) : e.isUnsafeArg = false := by
  unfold checkShellVariableReferences at h
  split at h
  · cases h
    rfl
  · cases h

theorem validate_eq_ok_iff {cmdName : Str} {args : List Str} {hasExec : Bool} {u : Unit} :
    validateRunCommandArgsSafety cmdName args hasExec = .ok u ↔
      collectUnsafeCmdArgs cmdName args hasExec = [] := by
  unfold validateRunCommandArgsSafety collectUnsafeCmdArgs
  rw [filter_eq_nil_iff]
  split
  · next h => simpa using h
  · next h => simpa using h

theorem finalizeInvocation_ok (hskip : host.skipArgSafety = false)
    (h : finalizeInvocation host r true = .ok p) :
    ∃ named, resolveRunCommandExecPath host r.program r.dir = .ok named ∧
      collectUnsafeCmdArgs named.1 r.args named.2.isSome = [] := by
  obtain ⟨named, hnamed, h⟩ := bind_eq_ok.mp h
  obtain ⟨u, hcheck, -⟩ := bind_eq_ok.mp h
  rw [hskip] at hcheck
  exact ⟨named, hnamed, validate_eq_ok_iff.mp hcheck⟩

theorem finalizeInvocation_refused {validateArgs : Bool}
    (h : finalizeInvocation host r validateArgs = .error e) (hrefused : e.isUnsafeArg = true) :
    validateArgs = true ∧ ∃ named, resolveRunCommandExecPath host r.program r.dir = .ok named ∧
      collectUnsafeCmdArgs named.1 r.args named.2.isSome ≠ [] := by
  unfold finalizeInvocation at h
  cases hnamed : resolveRunCommandExecPath host r.program r.dir with
  | error e' =>
    obtain ⟨attempted, allowed, rfl⟩ := resolveRunCommandExecPath_error hnamed
    rw [hnamed] at h
    cases h
    cases hrefused
  | ok named =>
    rw [hnamed, ok_bind] at h
    cases hcheck : checkUnless (!validateArgs || host.skipArgSafety)
        (validateRunCommandArgsSafety named.1 r.args named.2.isSome) with
    | error e' =>
      obtain ⟨hskip, hvalidate⟩ := checkUnless_error hcheck
      simp only [Bool.or_eq_false_iff, Bool.not_eq_false'] at hskip
      refine ⟨hskip.1, named, rfl, fun hnil => ?_⟩
      rw [(validate_eq_ok_iff (u := ())).mpr hnil] at hvalidate
      cases hvalidate
    | ok u =>
      rw [hcheck, ok_bind] at h
      unfold wrapPosixShellReresolve at h
      split at h
      · cases h
      · next shell cmd args hwrap =>
        cases hagain : resolveRunCommandExecPath host cmd r.dir with
        | error e' =>
          obtain ⟨attempted, allowed, rfl⟩ := resolveRunCommandExecPath_error hagain
          rw [hagain] at h
          cases h
          cases hrefused
        | ok wrapped =>
          rw [hagain] at h
          cases h

/-- A refused preparation was refused while it resolved the command, or by a later check. -/
theorem prepareRunCommandSpec_refused (h : prepareRunCommandSpec host workingDir spec = .error e)
    (hrefused : e.isUnsafeArg = true) :
    (∃ e', resolveCommand host.toCommandHost workingDir spec = .error e' ∧
        (PrepareError.run e').isUnsafeArg = true) ∨
      spec.script = none ∧ ∃ r named, resolveCommand host.toCommandHost workingDir spec = .ok r ∧
        resolveRunCommandExecPath host r.program r.dir = .ok named ∧
        collectUnsafeCmdArgs named.1 r.args named.2.isSome ≠ [] := by
  unfold prepareRunCommandSpec at h
  cases hresolve : resolveCommand host.toCommandHost workingDir spec with
  | error e' =>
    rw [hresolve] at h
    cases h
    exact .inl ⟨e', rfl, hrefused⟩
  | ok r =>
    rw [hresolve] at h
    change (checkUnless _ _ >>= fun _ => _) = _ at h
    cases hshell : checkUnless (skipShellVariableCheck r.program r.args host.allowed)
        (checkShellVariableReferences r.program r.args) with
    | error e' =>
      rw [hshell] at h
      cases h
      rw [shellVariable_not_refused (checkUnless_error hshell).2] at hrefused
      cases hrefused
    | ok u =>
      rw [hshell, ok_bind] at h
      obtain ⟨hvalidate, named, hnamed, hne⟩ := finalizeInvocation_refused h hrefused
      exact .inr ⟨Option.isNone_iff_eq_none.mp hvalidate, r, named, rfl, hnamed, hne⟩

/-- What is prepared from a command has passed the check of the arguments. -/
theorem prepareRunCommandSpec_validated (hskip : host.skipArgSafety = false)
    (hscript : spec.script = none) (h : prepareRunCommandSpec host workingDir spec = .ok p) :
    ∃ r named, resolveCommand host.toCommandHost workingDir spec = .ok r ∧
      resolveRunCommandExecPath host r.program r.dir = .ok named ∧
      collectUnsafeCmdArgs named.1 r.args named.2.isSome = [] := by
  obtain ⟨r, hr, h⟩ := bind_eq_ok.mp h
  obtain ⟨-, -, h⟩ := bind_eq_ok.mp h
  rw [hscript] at h
  obtain ⟨named, hnamed, hsafe⟩ := finalizeInvocation_ok hskip h
  exact ⟨r, named, liftRun_eq_ok.mp hr, hnamed, hsafe⟩

theorem collectUnsafeAfterResolve_ok (hnamed : resolveRunCommandExecPath host r.program r.dir =
      .ok named) (h : collectUnsafeAfterResolve host r found = .ok hits) :
    hits = [] ↔ found = [] ∧ collectUnsafeCmdArgs named.1 r.args named.2.isSome = [] := by
  unfold collectUnsafeAfterResolve at h
  rw [hnamed] at h
  cases h
  exact recordAll_eq_nil

theorem collectUnsafeAfterResolve_found (h : collectUnsafeAfterResolve host r found = .ok hits)
    (hfound : found ≠ []) : hits ≠ [] := by
  unfold collectUnsafeAfterResolve at h
  split at h
  all_goals
    cases h
    try exact fun hnil => hfound (recordAll_eq_nil.mp hnil).1

/-- The scan asks for approval exactly where the preparation would refuse: with nothing listed it
never refuses an argument, and with something listed it fails. -/
theorem scan_agrees_with_prepare (hskip : host.skipArgSafety = false)
    (hscan : scanRunCommandUnsafeArgsSpec host workingDir spec = .ok hits) :
    (hits = [] → ∀ e, prepareRunCommandSpec host workingDir spec = .error e →
      e.isUnsafeArg = false) ∧
      (hits ≠ [] → ∃ e, prepareRunCommandSpec host workingDir spec = .error e) := by
  obtain ⟨⟨found, dir⟩, hcwd, hscan⟩ := bind_eq_ok.mp hscan
  replace hcwd := liftRun_eq_ok.mp hcwd
  cases hscript : spec.script with
  | some script =>
    rw [hscript] at hscan
    cases hscan
    obtain ⟨hok, herror⟩ := resolveCommand_script hskip hscript hcwd
    refine ⟨fun hnil e he => ?_, fun hne => ?_⟩
    · by_contra hrefused
      rw [Bool.not_eq_false] at hrefused
      obtain ⟨e', he', hrefused'⟩ | ⟨hnone, -⟩ := prepareRunCommandSpec_refused he hrefused
      · exact herror e' he' hrefused' hnil
      · cases hscript.symm.trans hnone
    · cases hprepare : prepareRunCommandSpec host workingDir spec with
      | error e => exact ⟨e, rfl⟩
      | ok p =>
        obtain ⟨r, hr, -⟩ := prepareRunCommandSpec_ok hprepare
        exact absurd (hok r hr) hne
  | none =>
    rw [hscript] at hscan
    obtain ⟨⟨r, found'⟩, hadvance, hcollect⟩ := bind_eq_ok.mp hscan
    replace hadvance := liftRun_eq_ok.mp hadvance
    obtain ⟨hok, herror⟩ := resolveCommand_agrees hskip hscript hcwd hadvance
    refine ⟨fun hnil e he => ?_, fun hne => ?_⟩
    · by_contra hrefused
      rw [Bool.not_eq_false] at hrefused
      obtain ⟨e', he', hrefused'⟩ | ⟨-, r', named, hr', hnamed, hne⟩ :=
        prepareRunCommandSpec_refused he hrefused
      · exact collectUnsafeAfterResolve_found hcollect (herror e' he' hrefused') hnil
      · obtain ⟨rfl, rfl⟩ := hok r' hr'
        exact hne ((collectUnsafeAfterResolve_ok hnamed hcollect).mp hnil).2
    · cases hprepare : prepareRunCommandSpec host workingDir spec with
      | error e => exact ⟨e, rfl⟩
      | ok p =>
        obtain ⟨r', named, hr', hnamed, hsafe⟩ :=
          prepareRunCommandSpec_validated hskip hscript hprepare
        obtain ⟨rfl, rfl⟩ := hok r' hr'
        exact absurd ((collectUnsafeAfterResolve_ok hnamed hcollect).mpr ⟨rfl, hsafe⟩) hne

def catHost : PrepareHost where
  disk := ⟨fun _ => true, .ok⟩
  allowed := ["cat".toList]
  skipArgSafety := false
  toLowercase := id
  resolveWorkspaceExecutable := fun _ _ => none

def catPasswd : CommandSpec := ⟨"cat".toList, ["/etc/passwd".toList], none, none⟩

theorem scan_agrees_with_prepare_passwd :
    scanRunCommandUnsafeArgsSpec catHost ['/', 'w'] catPasswd = .ok ["/etc/passwd".toList] ∧
      ∃ e, prepareRunCommandSpec catHost ['/', 'w'] catPasswd = .error e := by
  have hcat : isCd "cat".toList = false := by decide
  have hscan : scanRunCommandUnsafeArgsSpec catHost ['/', 'w'] catPasswd =
      .ok ["/etc/passwd".toList] := by
    have hadvance : advanceCdPrefixes catHost.disk ['/', 'w'] ['/', 'w'] "cat".toList
        ["/etc/passwd".toList] [] =
          .ok (⟨"cat".toList, ["/etc/passwd".toList], ['/', 'w']⟩, []) := by
      rw [advanceCdPrefixes.eq_def, hcat]
      rfl
    change (liftRun (advanceCdPrefixes catHost.disk ['/', 'w'] ['/', 'w'] "cat".toList
      ["/etc/passwd".toList] []) >>= fun scanned =>
        collectUnsafeAfterResolve catHost scanned.1 scanned.2) = _
    rw [hadvance]
    decide +kernel
  exact ⟨hscan, (scan_agrees_with_prepare rfl hscan).2 (cons_ne_nil _ _)⟩

end Claim
end CrabMate
