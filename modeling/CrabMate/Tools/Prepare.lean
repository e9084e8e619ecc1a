import CrabMate.Lib.Except
import CrabMate.Tools.CommandSpec
import CrabMate.Tools.ShellTokens

/-! From a parsed `run_command` call to the process that is spawned, and what a shell between the
two would run. -/
namespace CrabMate
open RustStr ShellLex ShellLex.Lexer Except

section Prepare

inductive PrepareError where
  | run (error : RunCommandError)
  | shellVariableDetected (pattern : Str)
  | disallowedCommand (attempted allowed : Str)
  deriving DecidableEq

def liftRun {α : Type} : Except RunCommandError α → Except PrepareError α
  | .error e => .error (.run e)
  | .ok a => .ok a

/-- `toLowercase` is the one of `str`, with the Unicode tables; `resolveWorkspaceExecutable` looks
for an executable file below a directory. -/
structure PrepareHost extends CommandHost where
  toLowercase : Str → Str
  resolveWorkspaceExecutable : Str → Str → Option Str

/-- What is spawned, and where. -/
structure PreparedRunCommand where
  cmdRaw : Str
  cmdName : Str
  execPath : Option Str
  cmdArgs : List Str
  effectiveWorkingDir : Str
  deriving DecidableEq

variable (host : PrepareHost)

def resolveRunCommandExecPath (cmdRaw workingDir : Str) : Except PrepareError (Str × Option Str) :=
  let cmdName := host.toLowercase cmdRaw
  let execPath :=
    if startsWith "./".toList cmdRaw || cmdRaw.contains '/' then
      host.resolveWorkspaceExecutable workingDir cmdRaw
    else none
  if execPath.isNone && !allowlistAllowsAll host.allowed &&
      !host.allowed.any fun c => eqIgnoreAsciiCase c cmdName then
    .error (.disallowedCommand cmdName (", ".toList.intercalate host.allowed))
  else .ok (cmdName, execPath)

def argIsUnsafeForCmd (cmdName arg : Str) (hasWorkspaceExec : Bool) : Bool :=
  if hasWorkspaceExec then argHasParentDirRef arg || startsWith ['/'] (trimStart arg)
  else !isArgSafe cmdName arg

def validateRunCommandArgsSafety (cmdName : Str) (cmdArgs : List Str) (hasWorkspaceExec : Bool) :
    Except PrepareError Unit :=
  if cmdArgs.any fun a => argIsUnsafeForCmd cmdName a hasWorkspaceExec then .error (.run .unsafeArg)
  else .ok ()

def skipShellVariableCheck (cmd : Str) (args allowed : List Str) : Bool :=
  isShellDashCInvocation cmd args ||
    ((posixShellOnAllowlist allowed).isSome && argvNeedsPosixShellWrap cmd args)

def checkShellVariableReferences (cmd : Str) (args : List Str) : Except PrepareError Unit :=
  match (cmd :: args).findSome? detectShellExpansionToken with
  | some pattern => .error (.shellVariableDetected pattern.label)
  | none => .ok ()

def checkUnless (skip : Bool) (check : Except PrepareError Unit) : Except PrepareError Unit :=
  if skip then .ok () else check

/-- A wrapped command is looked up once more, as the shell. -/
def wrapPosixShellReresolve (r : ResolvedCommand) (named : Str × Option Str) :
    Except PrepareError PreparedRunCommand :=
  match maybeWrapArgvWithPosixShell r.program r.args host.allowed with
  | (none, cmd, args) => .ok ⟨cmd, named.1, named.2, args, r.dir⟩
  | (some _, cmd, args) => do
    let wrapped ← resolveRunCommandExecPath host cmd r.dir
    .ok ⟨cmd, wrapped.1, wrapped.2, args, r.dir⟩

def finalizeInvocation (r : ResolvedCommand) (validateArgs : Bool) :
    Except PrepareError PreparedRunCommand := do
  let named ← resolveRunCommandExecPath host r.program r.dir
  checkUnless (!validateArgs || host.skipArgSafety)
    (validateRunCommandArgsSafety named.1 r.args named.2.isSome)
  wrapPosixShellReresolve host r named

def prepareRunCommandSpec (workingDir : Str) (spec : CommandSpec) :
    Except PrepareError PreparedRunCommand := do
  let r ← liftRun (resolveCommand host.toCommandHost workingDir spec)
  checkUnless (skipShellVariableCheck r.program r.args host.allowed)
    (checkShellVariableReferences r.program r.args)
  finalizeInvocation host r spec.script.isNone

variable {host} {workingDir : Str} {spec : CommandSpec} {p : PreparedRunCommand}

theorem wrapPosixShellReresolve_ok {r : ResolvedCommand} {named : Str × Option Str}
    (h : wrapPosixShellReresolve host r named = .ok p) :
    (maybeWrapArgvWithPosixShell r.program r.args host.allowed).2 = (p.cmdRaw, p.cmdArgs) := by
  unfold wrapPosixShellReresolve at h
  split at h
  · next cmd args hwrap =>
    cases h
    rw [hwrap]
  · next cmd args hwrap =>
    obtain ⟨wrapped, -, h⟩ := bind_eq_ok.mp h
    cases h
    rw [hwrap]

theorem prepareRunCommandSpec_ok (h : prepareRunCommandSpec host workingDir spec = .ok p) :
    ∃ r, resolveCommand host.toCommandHost workingDir spec = .ok r ∧
      (maybeWrapArgvWithPosixShell r.program r.args host.allowed).2 = (p.cmdRaw, p.cmdArgs) := by
  unfold prepareRunCommandSpec at h
  obtain ⟨r, hr, h⟩ := bind_eq_ok.mp h
  obtain ⟨-, -, h⟩ := bind_eq_ok.mp h
  unfold finalizeInvocation at h
  obtain ⟨named, -, h⟩ := bind_eq_ok.mp h
  obtain ⟨-, -, h⟩ := bind_eq_ok.mp h
  refine ⟨r, ?_, wrapPosixShellReresolve_ok h⟩
  cases hresolve : resolveCommand host.toCommandHost workingDir spec with
  | error e =>
    rw [hresolve] at hr
    cases hr
  | ok r' =>
    rw [hresolve] at hr
    cases hr
    rfl

theorem resolveCommand_of_not_cd {host : CommandHost} {r : ResolvedCommand}
    (hscript : spec.script = none) (hcd : isCd spec.command = false)
    (h : resolveCommand host workingDir spec = .ok r) :
    r.program = spec.command ∧ r.args = spec.args := by
  unfold resolveCommand at h
  obtain ⟨anchor, -, h⟩ := bind_eq_ok.mp h
  have hrest : ∃ dir, (do
      let peeled ← cdError (peelWorkspaceCdPrefix host.disk workingDir dir spec.command spec.args
        host.skipArgSafety)
      .ok (⟨peeled.2.cmd, peeled.2.args, peeled.1⟩ : ResolvedCommand)) = .ok r := by
    rw [initialInvocation, hscript] at h
    cases hcwd : spec.cwd with
    | none =>
      rw [hcwd] at h
      exact ⟨workingDir, h⟩
    | some cwd =>
      rw [hcwd] at h
      obtain ⟨dir, -, h⟩ := bind_eq_ok.mp h
      exact ⟨dir, h⟩
  obtain ⟨dir, h⟩ := hrest
  obtain ⟨peeled, hpeeled, h⟩ := bind_eq_ok.mp h
  rw [peelWorkspaceCdPrefix] at hpeeled
  cases hcanon : host.disk.canonicalize workingDir with
  | error e =>
    rw [hcanon] at hpeeled
    cases hpeeled
  | ok anchor' =>
    simp only [hcanon, peelCdPrefixes_of_not_cd hcd] at hpeeled
    cases hpeeled
    cases h
    exact ⟨rfl, rfl⟩

theorem resolveCommand_plain {host : CommandHost} {anchor : Str} (hscript : spec.script = none)
    (hcwd : spec.cwd = none) (hcd : isCd spec.command = false)
    (hanchor : host.disk.canonicalize workingDir = .ok anchor) :
    resolveCommand host workingDir spec = .ok ⟨spec.command, spec.args, workingDir⟩ := by
  simp [resolveCommand, cdError, initialInvocation, peelWorkspaceCdPrefix, hscript, hcwd, hanchor,
    peelCdPrefixes_of_not_cd hcd, bind, Except.bind]

end Prepare

section OneCommand

/-- A shell reads the argument as one word, with no operator in it. -/
def argIsOneWord (arg : Str) : Bool := !tokenIsShellOperator arg && argCloses arg

/-- The shell reads the script as one command with one word for each argument. -/
def ReadsOneCommand (script cmd : Str) (args : List Str) : Prop :=
  start.tokenise script = .ok (.word cmd :: args.map fun arg => .word (quoteScriptToken arg))

/-- An operator token is written as it is, and is no word. -/
theorem quoteScriptToken_operator {arg : Str} (h : tokenIsShellOperator arg = true) :
    Begins (quoteScriptToken arg) ∧ closes [] false (quoteScriptToken arg) = false := by
  have htoken := token_argPiece arg
  rw [Piece.token, argPiece, argToken, if_pos h, if_pos h] at htoken
  have hq : quoteScriptToken arg = trim arg := Token.operator.inj htoken
  rw [hq]
  have hmem : trim arg ∈ shellOperatorTokens := by
    rwa [tokenIsShellOperator, List.contains_iff_mem] at h
  have hall : ∀ op ∈ shellOperatorTokens,
      op ≠ [] ∧ op.any isWhitespace = false ∧ closes [] false op = false := by decide +kernel
  obtain ⟨hne, hws, hopen⟩ := hall _ hmem
  refine ⟨begins_of_no_whitespace hne fun c hc => ?_, hopen⟩
  simpa using List.any_eq_false.mp hws c hc

theorem begins_quoteScriptToken (arg : Str) : Begins (quoteScriptToken arg) := by
  cases hop : tokenIsShellOperator arg with
  | false =>
    have hsound := argPiece_sound arg
    rwa [argPiece, hop] at hsound
  | true => exact (quoteScriptToken_operator hop).1

theorem closedWord_quoteScriptToken_iff (arg : Str) :
    ClosedWord (quoteScriptToken arg) ↔ argIsOneWord arg = true := by
  cases hop : tokenIsShellOperator arg with
  | false =>
    rw [argIsOneWord, hop, Bool.not_false, Bool.true_and, ← argPiece_ends]
    exact ⟨fun h _ => h, fun h => h hop⟩
  | true =>
    obtain ⟨hbegins, hopen⟩ := quoteScriptToken_operator hop
    rw [closedWord_iff hbegins, hopen, argIsOneWord, hop]
    simp

theorem readsOneCommand_iff {cmd : Str} (hcmd : PlainWord cmd) (args : List Str) :
    ReadsOneCommand (joinRunCommandShellScript cmd args) cmd args ↔
      ∀ arg ∈ args, argIsOneWord arg = true := by
  have hbegins : Begins cmd := begins_of_no_whitespace hcmd.1 fun c hc => (hcmd.2 c hc).2
  have hclosed : ClosedWord cmd :=
    closedWord_of_ordinary hcmd.1 (fun c hc => (hcmd.2 c hc).1) fun c hc => (hcmd.2 c hc).2
  -- All pieces are meant as words here, the operators too.
  let pieces : List Piece := ⟨cmd, false⟩ :: args.map fun arg => ⟨quoteScriptToken arg, false⟩
  have hsound : ∀ p ∈ pieces, p.Sound := by
    refine List.forall_mem_cons.mpr ⟨hbegins, List.forall_mem_map.mpr fun arg _ => ?_⟩
    exact begins_quoteScriptToken arg
  have htext : pieces.map Piece.text =
      ((⟨cmd, false⟩ : Piece) :: args.map argPiece).map Piece.text := by
    simp [pieces, argPiece, Function.comp_def]
  have htoken : pieces.map Piece.token =
      .word cmd :: args.map fun arg => .word (quoteScriptToken arg) := by
    simp [pieces, Piece.token, Function.comp_def]
  have hread := tokenise_pieces [] (List.cons_ne_nil _ _ : pieces ≠ []) hsound
  rw [htext, ← joinRunCommandShellScript_eq hcmd, List.nil_append, htoken] at hread
  refine hread.trans ?_
  rw [List.forall_mem_cons, List.forall_mem_map]
  constructor
  · exact fun h arg harg => (closedWord_quoteScriptToken_iff arg).mp (h.2 arg harg rfl)
  · exact fun h => ⟨fun _ => hclosed,
      fun arg harg _ => (closedWord_quoteScriptToken_iff arg).mpr (h arg harg)⟩

/-- The program is spawned itself, or a shell that reads it as the only command. -/
def PreparedRunCommand.RunsOnly (p : PreparedRunCommand) (cmd : Str) (args : List Str) : Prop :=
  (p.cmdRaw = cmd ∧ p.cmdArgs = args) ∨
    ∃ script, p.cmdArgs = ["-c".toList, script] ∧ ReadsOneCommand script cmd args

/-- The arguments with which the command goes to a shell. -/
def goesToShell (cmd : Str) (args allowed : List Str) : Bool :=
  !argvInvokesNestedShell cmd args && (posixShellOnAllowlist allowed).isSome &&
    argvNeedsPosixShellWrap cmd args

theorem maybeWrap_of_not_goesToShell {cmd : Str} {args allowed : List Str}
    (h : goesToShell cmd args allowed = false) :
    (maybeWrapArgvWithPosixShell cmd args allowed).2 = (cmd, args) := by
  unfold maybeWrapArgvWithPosixShell
  cases hnested : argvInvokesNestedShell cmd args with
  | true => rfl
  | false =>
    cases hshell : posixShellOnAllowlist allowed with
    | none => rfl
    | some shell =>
      have hwrap : argvNeedsPosixShellWrap cmd args = false := by
        simpa [goesToShell, hnested, hshell] using h
      simp [hwrap]

theorem maybeWrap_of_goesToShell {cmd : Str} {args allowed : List Str}
    (h : goesToShell cmd args allowed = true) :
    ∃ shell, posixShellOnAllowlist allowed = some shell ∧
      (maybeWrapArgvWithPosixShell cmd args allowed).2 =
        (shell, ["-c".toList, joinRunCommandShellScript cmd args]) := by
  simp only [goesToShell, Bool.and_eq_true, Bool.not_eq_true'] at h
  obtain ⟨⟨hnested, hshell⟩, hwrap⟩ := h
  obtain ⟨shell, hshell⟩ := Option.isSome_iff_exists.mp hshell
  refine ⟨shell, hshell, ?_⟩
  unfold maybeWrapArgvWithPosixShell
  simp [hnested, hshell, hwrap]

theorem isPosixShellName_of_allowlist {allowed : List Str} {shell : Str}
    (h : posixShellOnAllowlist allowed = some shell) : isPosixShellName shell = true := by
  unfold posixShellOnAllowlist at h
  split_ifs at h
  all_goals
    cases h
    decide

variable {host : PrepareHost} {workingDir : Str} {spec : CommandSpec} {p : PreparedRunCommand}

theorem runsOnly_iff (hscript : spec.script = none) (hcd : isCd spec.command = false)
    (hcmd : PlainWord spec.command) (hname : isPosixShellName spec.command = false)
    (h : prepareRunCommandSpec host workingDir spec = .ok p) :
    p.RunsOnly spec.command spec.args ↔
      (goesToShell spec.command spec.args host.allowed = true →
        ∀ arg ∈ spec.args, argIsOneWord arg = true) := by
  obtain ⟨r, hr, hwrap⟩ := prepareRunCommandSpec_ok h
  obtain ⟨hprogram, hargs⟩ := resolveCommand_of_not_cd hscript hcd hr
  rw [hprogram, hargs] at hwrap
  cases hgo : goesToShell spec.command spec.args host.allowed with
  | false =>
    rw [maybeWrap_of_not_goesToShell hgo] at hwrap
    obtain ⟨hraw, hspawned⟩ := Prod.mk.inj hwrap
    exact iff_of_true (.inl ⟨hraw.symm, hspawned.symm⟩) fun h => absurd h Bool.false_ne_true
  | true =>
    obtain ⟨shell, hshell, hpair⟩ := maybeWrap_of_goesToShell hgo
    rw [hpair] at hwrap
    obtain ⟨hraw, hspawned⟩ := Prod.mk.inj hwrap
    rw [← readsOneCommand_iff hcmd, PreparedRunCommand.RunsOnly, ← hraw, ← hspawned]
    have hne : shell ≠ spec.command := by
      rintro rfl
      rw [isPosixShellName_of_allowlist hshell] at hname
      cases hname
    constructor
    · rintro (⟨heq, -⟩ | ⟨script, heq, hreads⟩) -
      · exact absurd heq hne
      · cases heq
        exact hreads
    · exact fun hreads => .inr ⟨_, rfl, hreads rfl⟩

end OneCommand
end CrabMate
