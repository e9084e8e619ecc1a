import CrabMate.Tools.Prepare

/-! Which `run_command` calls the cache of read-only results may answer. -/
namespace CrabMate
open RustStr ShellLex.Lexer List Except

section Eligible

def argsForbidAbsoluteOrDotdot (args : List Str) : Bool :=
  args.any fun a => contains "..".toList a || startsWith ['/'] a

/-- The options of `git` that are followed by a value. -/
def gitOptionTakesValue (a : Str) : Bool :=
  ["-C", "--work-tree", "--git-dir"].any fun option => a = option.toList

def firstGitSubcommand : List Str → Option Str
  | [] => none
  | [a] => if gitOptionTakesValue a || startsWith ['-'] a then none else some a
  | a :: value :: rest =>
    if gitOptionTakesValue a then firstGitSubcommand rest
    else if startsWith ['-'] a then firstGitSubcommand (value :: rest)
    else some a

def gitSubcommands : List Str :=
  ["status", "diff", "log", "show", "branch", "rev-parse", "describe", "ls-files", "ls-tree",
    "cat-file", "blame", "grep"].map String.toList

def gitSubcommandTtlEligible (sub : Str) : Bool := gitSubcommands.contains sub

def cargoSubcommands : List Str :=
  ["metadata", "tree", "pkgid", "locate-project"].map String.toList

def cargoFirstSubcommandTtlEligible (args : List Str) : Bool :=
  (args.find? fun a => !startsWith ['-'] a).any cargoSubcommands.contains

def standaloneCommands : List Str :=
  ["cat", "head", "tail", "wc", "stat", "file", "ls", "pwd", "echo", "printf", "dirname",
    "basename", "readlink", "realpath", "which", "type", "grep", "egrep", "fgrep", "rg", "jq",
    "sort", "uniq", "cut", "tr", "column", "cmp", "diff", "objdump", "nm", "readelf", "strings",
    "size", "hexdump", "ldd", "od", "xxd", "zcat", "c++filt"].map String.toList

def standaloneTtlEligible (cmd : Str) : Bool := standaloneCommands.contains cmd

def shellInterpreters : List Str :=
  ["sh", "bash", "zsh", "fish", "dash", "csh", "tcsh", "ksh", "busybox"].map String.toList

def commandTtlEligible (cmd : Str) (args : List Str) : Bool :=
  if cmd = "git".toList then (firstGitSubcommand args).any gitSubcommandTtlEligible
  else if cmd = "cargo".toList then cargoFirstSubcommandTtlEligible args
  else standaloneTtlEligible cmd

/-- The call is parsed as in the directory `.`, wherever it will run. -/
def runCommandInvocationTtlCacheEligible (reader : ArgsReader) (argsJson : Str) : Bool :=
  let async := (((reader.fromStr argsJson).bind (·.get? "async")).bind JsonValue.asBool?).getD false
  if async then false
  else
    match parseCommandSpec reader argsJson ['.'] with
    | .error _ => false
    | .ok spec =>
      if spec.command.isEmpty || argsForbidAbsoluteOrDotdot spec.args then false
      else if shellInterpreters.contains spec.command then false
      else commandTtlEligible spec.command spec.args

/-- The programs of which the cache may answer for some calls. -/
def cachedPrograms : List Str := "git".toList :: "cargo".toList :: standaloneCommands

end Eligible

section Parsed

variable {reader : ArgsReader} {argsJson workingDir dir cmdRaw : Str} {args : List Str}
  {v : JsonValue} {spec listed : CommandSpec} {cmd cmd' : Str × List Str}

theorem mergeDotSlash_of_ne (h : trim cmdRaw ≠ "./".toList) :
    mergeDotSlashWithSingleRelativePath cmdRaw args = (cmdRaw, args) := by
  cases args with
  | nil => rfl
  | cons first rest =>
    unfold mergeDotSlashWithSingleRelativePath
    simp only [ne_eq, h, not_false_eq_true, decide_true, Bool.true_or, if_true]

/-- Whatever is merged behind `./`, the command keeps its slash. -/
theorem mergeDotSlash_slash (args : List Str) :
    ∃ rest, (mergeDotSlashWithSingleRelativePath "./".toList args).1 = '.' :: '/' :: rest := by
  cases args with
  | nil => exact ⟨[], rfl⟩
  | cons first rest =>
    unfold mergeDotSlashWithSingleRelativePath
    simp only
    split
    · exact ⟨[], rfl⟩
    · simp only
      split
      · next hdot =>
        rw [startsWith, isPrefixOf_iff_prefix] at hdot
        obtain ⟨tail, htail⟩ := hdot
        exact ⟨tail, htail.symm⟩
      · exact ⟨trim first, rfl⟩

theorem not_isPosixShellName_of_dot {rest : Str} (h : ∀ c ∈ rest, isWhitespace c = false) :
    isPosixShellName ('.' :: rest) = false := by
  have htrim : trim ('.' :: rest) = '.' :: rest :=
    trim_eq_self_of_forall (forall_mem_cons.mpr ⟨by decide, h⟩)
  have hlower : toAsciiLowercase ('.' :: rest) = '.' :: toAsciiLowercase rest := rfl
  rw [isPosixShellName, htrim, hlower]
  simp

/-- A command with `./` in front is not taken apart. -/
theorem embeddedCommand_slash (rest : Str) : embeddedCommand ('.' :: '/' :: rest) = none := by
  have hscript : splitEmbeddedShellScript ('.' :: '/' :: rest) = none := by
    have hstart : trimStart ('.' :: '/' :: rest) = '.' :: '/' :: rest := by
      rw [trimStart, dropWhile_cons_of_neg (by decide)]
    have hhead : ('.' :: '/' :: rest).takeWhile (fun c => !isWhitespace c) =
        '.' :: ('/' :: rest).takeWhile fun c => !isWhitespace c :=
      takeWhile_cons_of_pos (by decide)
    have hname : isPosixShellName
        ('.' :: ('/' :: rest).takeWhile fun c => !isWhitespace c) = false :=
      not_isPosixShellName_of_dot fun c hc => by simpa using mem_takeWhile_imp hc
    simp [splitEmbeddedShellScript, splitFirstToken, hstart, hhead, hname]
  rw [embeddedCommand, hscript]
  simp

theorem extract_ok (h : extractRunCommandNameAndArgs v dir = .ok cmd) :
    ∃ raw args, (v.get? "command").bind JsonValue.asStr? = some raw ∧
      cmd = splitCommandPrefixIfEmbedded
        (mergeDotSlashWithSingleRelativePath (trim raw.toList) args).1
        (mergeDotSlashWithSingleRelativePath (trim raw.toList) args).2 := by
  unfold extractRunCommandNameAndArgs at h
  cases hraw : (v.get? "command").bind JsonValue.asStr? with
  | none =>
    rw [hraw] at h
    cases h
  | some raw =>
    rw [hraw] at h
    cases hargs : v.get? "args" with
    | none =>
      rw [hargs] at h
      cases h
      exact ⟨raw, _, rfl, rfl⟩
    | some value =>
      rw [hargs] at h
      cases value with
      | arr xs =>
        cases h
        exact ⟨raw, _, rfl, rfl⟩
      | null | bool | num | str | obj => cases h

theorem extract_command_eq (h : extractRunCommandNameAndArgs v dir = .ok cmd)
    (h' : extractRunCommandNameAndArgs v workingDir = .ok cmd') (hslash : '/' ∉ cmd.1) :
    cmd'.1 = cmd.1 := by
  obtain ⟨raw, args, hraw, rfl⟩ := extract_ok h
  obtain ⟨raw', args', hraw', rfl⟩ := extract_ok h'
  obtain rfl : raw = raw' := Option.some.inj (hraw.symm.trans hraw')
  by_cases hdot : trim raw.toList = "./".toList
  · obtain ⟨rest, hrest⟩ := mergeDotSlash_slash args
    rw [hdot, hrest, splitCommandPrefixIfEmbedded, embeddedCommand_slash] at hslash
    simp at hslash
  · have hne : trim (trim raw.toList) ≠ "./".toList := by rwa [trim_trim]
    rw [mergeDotSlash_of_ne hne, mergeDotSlash_of_ne hne]
    unfold splitCommandPrefixIfEmbedded
    cases embeddedCommand (trim raw.toList) with
    | none => rfl
    | some split => rfl

/-- A parsed call is a script, or a command with its arguments. -/
theorem parseCommandSpec_ok (h : parseCommandSpec reader argsJson workingDir = .ok spec) :
    ∃ v script, parseRunCommandValueWithRepair reader argsJson = .ok v ∧
      readOptionalStringField v "script" = .ok script ∧ spec.script = script ∧
      (script.isSome → spec.command = []) ∧
      (script = none → ∃ cmd, extractRunCommandNameAndArgs v workingDir = .ok cmd ∧
        spec.command = cmd.1) := by
  unfold parseCommandSpec at h
  obtain ⟨v, hv, h⟩ := bind_eq_ok.mp h
  obtain ⟨script, hscript, h⟩ := bind_eq_ok.mp h
  obtain ⟨cwd, -, h⟩ := bind_eq_ok.mp h
  refine ⟨v, script, hv, hscript, ?_⟩
  split at h
  · cases h
  · cases script with
    | none =>
      obtain ⟨cmd, hcmd, h⟩ := bind_eq_ok.mp h
      cases h
      exact ⟨rfl, (fun hsome => nomatch hsome), fun _ => ⟨cmd, hcmd, rfl⟩⟩
    | some script =>
      obtain ⟨conflict, -, h⟩ := bind_eq_ok.mp h
      cases conflict
      · cases h
        exact ⟨rfl, fun _ => rfl, (fun hnone => nomatch hnone)⟩
      · cases h

/-- Parsed in another directory, a call of a listed program is still one of that program. -/
theorem parseCommandSpec_listed (h : parseCommandSpec reader argsJson dir = .ok listed)
    (h' : parseCommandSpec reader argsJson workingDir = .ok spec) (hne : listed.command ≠ [])
    (hslash : '/' ∉ listed.command) : spec.script = none ∧ spec.command = listed.command := by
  obtain ⟨v, script, hv, hscript, -, hsome, hnone⟩ := parseCommandSpec_ok h
  obtain ⟨v', script', hv', hscript', hspec, -, hnone'⟩ := parseCommandSpec_ok h'
  obtain rfl : v = v' := Except.ok.inj (hv.symm.trans hv')
  obtain rfl : script = script' := Except.ok.inj (hscript.symm.trans hscript')
  cases script with
  | some script => exact absurd (hsome rfl) hne
  | none =>
    obtain ⟨cmd, hcmd, hcommand⟩ := hnone rfl
    obtain ⟨cmd', hcmd', hcommand'⟩ := hnone' rfl
    rw [hcommand] at hslash
    exact ⟨hspec, by rw [hcommand', hcommand, extract_command_eq hcmd hcmd' hslash]⟩

theorem eligible_listed (h : runCommandInvocationTtlCacheEligible reader argsJson = true) :
    ∃ listed, parseCommandSpec reader argsJson ['.'] = .ok listed ∧
      listed.command ∈ cachedPrograms := by
  unfold runCommandInvocationTtlCacheEligible at h
  simp only at h
  split at h
  · cases h
  · split at h
    · cases h
    · next listed hparse =>
      refine ⟨listed, hparse, ?_⟩
      split at h
      · cases h
      · split at h
        · cases h
        · unfold commandTtlEligible at h
          split at h
          · next hgit => exact hgit ▸ mem_cons_self
          · split at h
            · next hcargo => exact hcargo ▸ mem_cons_of_mem _ mem_cons_self
            · rw [standaloneTtlEligible, contains_iff_mem] at h
              exact mem_cons_of_mem _ (mem_cons_of_mem _ h)

/-- The listed programs are plain words, and neither `cd` nor a shell. -/
theorem cachedPrograms_plain {cmd : Str} (h : cmd ∈ cachedPrograms) :
    PlainWord cmd ∧ '/' ∉ cmd ∧ isCd cmd = false ∧ isPosixShellName cmd = false := by
  have hall : ∀ cmd ∈ cachedPrograms, cmd ≠ [] ∧
      (cmd.all fun c => ordinary c && !isWhitespace c) = true ∧
      '/' ∉ cmd ∧ isCd cmd = false ∧ isPosixShellName cmd = false := by decide +kernel
  obtain ⟨hne, hplain, hrest⟩ := hall cmd h
  exact ⟨.of_all hne hplain, hrest⟩

end Parsed

section Cached

variable {reader : ArgsReader} {argsJson workingDir : Str} {host : PrepareHost}
  {spec : CommandSpec} {p : PreparedRunCommand}

/-- A call that the cache may answer runs the listed program alone exactly if it goes to no shell,
or each of its arguments is one word for the shell. -/
theorem cached_command_runs_only_iff
    (heligible : runCommandInvocationTtlCacheEligible reader argsJson = true)
    (hspec : parseCommandSpec reader argsJson workingDir = .ok spec)
    (hprepare : prepareRunCommandSpec host workingDir spec = .ok p) :
    (spec.command ∈ cachedPrograms ∧ p.RunsOnly spec.command spec.args) ↔
      (goesToShell spec.command spec.args host.allowed = true →
        ∀ arg ∈ spec.args, argIsOneWord arg = true) := by
  obtain ⟨listed, hlisted, hmem⟩ := eligible_listed heligible
  obtain ⟨hplain, hslash, hcd, hname⟩ := cachedPrograms_plain hmem
  obtain ⟨hscript, hcommand⟩ := parseCommandSpec_listed hlisted hspec hplain.1 hslash
  rw [← hcommand] at hmem hplain hcd hname
  rw [← runsOnly_iff hscript hcd hplain hname hprepare]
  exact and_iff_right hmem

/-- A reader that knows one call. -/
def callReader (argsJson : Str) (command : String) (args : List String) : ArgsReader where
  fromStr text :=
    if text = argsJson then
      some (.obj [("command", .str command), ("args", .arr (args.map .str))])
    else none
  repair _ := none

def bashHost : PrepareHost where
  disk := ⟨fun _ => true, .ok⟩
  allowed := ["ls".toList, "echo".toList, "bash".toList]
  skipArgSafety := false
  toLowercase := toAsciiLowercase
  resolveWorkspaceExecutable _ _ := none

/-- What `bash` is given when a call goes to it from the directory `/ws`. -/
def bashCommand (script : String) : PreparedRunCommand :=
  ⟨"bash".toList, "bash".toList, none, ["-c".toList, script.toList], "/ws".toList⟩

def lsCall : Str := "\x7b\"command\":\"ls\",\"args\":[\"*.rs\"]\x7d".toList

def lsSpec : CommandSpec := ⟨"ls".toList, ["*.rs".toList], none, none⟩

theorem prepare_lsSpec :
    prepareRunCommandSpec bashHost "/ws".toList lsSpec = .ok (bashCommand "ls *.rs") := by
  have hresolve : resolveCommand bashHost.toCommandHost "/ws".toList lsSpec =
      .ok ⟨"ls".toList, ["*.rs".toList], "/ws".toList⟩ :=
    resolveCommand_plain rfl rfl (by decide) rfl
  rw [prepareRunCommandSpec, hresolve]
  rfl

theorem cached_command_runs_only_ls :
    "ls".toList ∈ cachedPrograms ∧
      (bashCommand "ls *.rs").RunsOnly "ls".toList ["*.rs".toList] :=
  (@cached_command_runs_only_iff (callReader lsCall "ls" ["*.rs"]) lsCall "/ws".toList bashHost
    lsSpec (bashCommand "ls *.rs") (by decide +kernel) (by decide +kernel) prepare_lsSpec).mpr
    fun _ => by decide +kernel

def echoCall : Str :=
  "\x7b\"command\":\"echo\",\"args\":[\"hi\",\">\",\"out.txt\"]\x7d".toList

def echoSpec : CommandSpec :=
  ⟨"echo".toList, ["hi".toList, ">".toList, "out.txt".toList], none, none⟩

theorem prepare_echoSpec :
    prepareRunCommandSpec bashHost "/ws".toList echoSpec =
      .ok (bashCommand "echo hi > out.txt") := by
  have hresolve : resolveCommand bashHost.toCommandHost "/ws".toList echoSpec =
      .ok ⟨"echo".toList, ["hi".toList, ">".toList, "out.txt".toList], "/ws".toList⟩ :=
    resolveCommand_plain rfl rfl (by decide) rfl
  rw [prepareRunCommandSpec, hresolve]
  rfl

/-- `echo hi > out.txt` may be answered from the cache, and writes a file. -/
theorem not_cached_command_runs_only :
    ¬∀ (reader : ArgsReader) (argsJson workingDir : Str) (host : PrepareHost) (spec : CommandSpec)
      (p : PreparedRunCommand), runCommandInvocationTtlCacheEligible reader argsJson = true →
      parseCommandSpec reader argsJson workingDir = .ok spec →
      prepareRunCommandSpec host workingDir spec = .ok p →
      spec.command ∈ cachedPrograms ∧ p.RunsOnly spec.command spec.args := by
  intro h
  have hruns := (h (callReader echoCall "echo" ["hi", ">", "out.txt"]) echoCall "/ws".toList
    bashHost echoSpec _ (by decide +kernel) (by decide +kernel) prepare_echoSpec).2
  have htokens : start.tokenise "echo hi > out.txt".toList = .ok [.word "echo".toList,
      .word "hi".toList, .operator ">".toList, .word "out.txt".toList] := by rfl
  rcases hruns with ⟨hraw, -⟩ | ⟨script, hscript, hreads⟩
  · exact absurd hraw (by decide)
  · cases hscript
    rw [ReadsOneCommand, htokens] at hreads
    exact absurd hreads (by decide +kernel)

end Cached
end CrabMate
