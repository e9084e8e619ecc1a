import CrabMate.Lib.Json
import CrabMate.Tools.CommandLine

/-! The arguments of `run_command`: the strict reading that is executed, the lenient one that only
makes keys, and the working directory in which a command really runs. -/
namespace CrabMate
open RustStr LexPath

section Parse

inductive RunCommandError where
  | jsonParse
  | fieldNotString (field : Str)
  | unsafeArg
  | scriptCommandConflict
  | missingCommand
  | argsNotArray
  | scriptShellUnavailable
  | cd (error : CdPeelError)
  deriving DecidableEq

structure CommandSpec where
  command : Str
  args : List Str
  cwd : Option Str
  script : Option Str
  deriving DecidableEq

def readOptionalStringField (v : JsonValue) (field : String) :
    Except RunCommandError (Option Str) :=
  match v.get? field with
  | none | some .null => .ok none
  | some (.str s) => .ok (some (trim s.toList) |>.filter fun t => !t.isEmpty)
  | some _ => .error (.fieldNotString field.toList)

def scriptConflictsWithCommandOrArgs (v : JsonValue) : Except RunCommandError Bool := do
  let commandNonEmpty ← match v.get? "command" with
    | some (.str c) => .ok !(trim c.toList).isEmpty
    | some _ => .error .missingCommand
    | none => .ok false
  let argsNonEmpty ← match v.get? "args" with
    | some (.arr xs) => .ok !xs.isEmpty
    | some _ => .error .argsNotArray
    | none => .ok false
  .ok (commandNonEmpty || argsNonEmpty)

/-- The string elements of an array; the others are left out. -/
def stringElements (xs : List JsonValue) : List Str :=
  xs.filterMap fun x => x.asStr?.map String.toList

/-- What is left of a path's parts after the empty ones, the `.` and `n` names. -/
def dropParts : ℕ → List Str → List Str
  | _, [] => []
  | n, part :: rest =>
    if part = [] ∨ part = ['.'] then dropParts n rest
    else
      match n with
      | 0 => part :: rest
      | n + 1 => dropParts n rest

/-- `Path::strip_prefix` by an absolute directory, as text. -/
def stripDir? (base path : Str) : Option Str :=
  if (components base).isPrefixOf (components path) then
    let rest := dropParts (components base).tail.length (path.splitOn '/')
    some (['/'].intercalate (rest.rdropWhile fun part => part = [] ∨ part = ['.']))
  else none

def normalizeWorkspaceAbsoluteArg (workingDir arg : Str) : Str :=
  let a := trim arg
  if !startsWith ['/'] a then arg
  else
    match stripDir? workingDir a with
    | none => arg
    | some rel => if rel.isEmpty then ['.'] else rel

def mergeDotSlashWithSingleRelativePath (cmdRaw : Str) (cmdArgs : List Str) : Str × List Str :=
  match cmdArgs with
  | [] => (cmdRaw, cmdArgs)
  | first :: rest =>
    let arg := trim first
    if trim cmdRaw ≠ "./".toList || arg.isEmpty || startsWith ['-'] arg ||
        argHasParentDirRef arg || startsWith ['/'] arg then (cmdRaw, cmdArgs)
    else (if startsWith "./".toList arg then arg else "./".toList ++ arg, rest)

def extractRunCommandNameAndArgs (v : JsonValue) (workingDir : Str) :
    Except RunCommandError (Str × List Str) := do
  let cmdRaw ← match (v.get? "command").bind JsonValue.asStr? with
    | some s => .ok (trim s.toList)
    | none => .error .missingCommand
  let cmdArgs ← match v.get? "args" with
    | some (.arr xs) => .ok (stringElements xs)
    | some _ => .error .argsNotArray
    | none => .ok []
  let merged := mergeDotSlashWithSingleRelativePath cmdRaw
    (cmdArgs.map (normalizeWorkspaceAbsoluteArg workingDir))
  .ok (splitCommandPrefixIfEmbedded merged.1 merged.2)

/-- How `serde_json` reads a text, and the repair that is tried on a text it does not read. -/
structure ArgsReader where
  fromStr : Str → Option JsonValue
  repair : Str → Option Str

def parseRunCommandValueWithRepair (reader : ArgsReader) (argsJson : Str) :
    Except RunCommandError JsonValue :=
  match (reader.fromStr argsJson).or ((reader.repair argsJson).bind reader.fromStr) with
  | some v => .ok v
  | none => .error .jsonParse

def parseCommandSpec (reader : ArgsReader) (argsJson workingDir : Str) :
    Except RunCommandError CommandSpec := do
  let v ← parseRunCommandValueWithRepair reader argsJson
  let script ← readOptionalStringField v "script"
  let cwd ← readOptionalStringField v "cwd"
  if cwd.any fun dir => !isArgSafe "cd".toList dir then .error .unsafeArg
  else
    match script with
    | some script =>
      if ← scriptConflictsWithCommandOrArgs v then .error .scriptCommandConflict
      else .ok ⟨[], [], cwd, some script⟩
    | none =>
      let cmd ← extractRunCommandNameAndArgs v workingDir
      .ok ⟨cmd.1, cmd.2, cwd, none⟩

def parseRunCommandPayloadLenient (fromStr : Str → Option JsonValue) (argsJson : Str) :
    Option (Str × List Str) := do
  let v ← fromStr argsJson
  let script := (((v.get? "script").bind JsonValue.asStr?).map fun s => trim s.toList).filter
    fun s => !s.isEmpty
  match script with
  | some script => some ("bash".toList, ["-c".toList, script])
  | none =>
    let command ← (v.get? "command").bind JsonValue.asStr?
    let args := ((v.get? "args").bind JsonValue.asArr?).map stringElements
    some (trim command.toList, args.getD [])

end Parse

section Resolve

/-- What a call meets when it is prepared: the directories, the allowed commands and whether a
person has approved paths outside the workspace. -/
structure CommandHost where
  disk : DirDisk
  allowed : List Str
  skipArgSafety : Bool

def initialInvocation (spec : CommandSpec) (allowed : List Str) :
    Except RunCommandError (Str × List Str) :=
  match spec.script with
  | none => .ok (spec.command, spec.args)
  | some script =>
    match posixShellOnAllowlist allowed with
    | none => .error .scriptShellUnavailable
    | some shell => .ok (shell, ["-c".toList, script])

/-- A program, its arguments (a script among them) and the directory in which it runs. -/
structure ResolvedCommand where
  program : Str
  args : List Str
  dir : Str
  deriving DecidableEq

def cdError {α : Type} : Except CdPeelError α → Except RunCommandError α
  | .error e => .error (.cd e)
  | .ok a => .ok a

/-- The first part of `prepare_run_command_spec`: the `cwd` field, then the `cd` prefixes. What
follows there depends on this result alone. -/
def resolveCommand (host : CommandHost) (workingDir : Str) (spec : CommandSpec) :
    Except RunCommandError ResolvedCommand := do
  let anchor ← cdError <| match host.disk.canonicalize workingDir with
    | .error e => .error (.spawnOther "canonicalize(workspace)".toList e)
    | .ok anchor => .ok anchor
  let dir ← match spec.cwd with
    | none => .ok workingDir
    | some cwd => cdError (resolveCdPrefixDir host.disk workingDir cwd anchor host.skipArgSafety)
  let cmd ← initialInvocation spec host.allowed
  let peeled ← cdError
    (peelWorkspaceCdPrefix host.disk workingDir dir cmd.1 cmd.2 host.skipArgSafety)
  .ok ⟨peeled.2.cmd, peeled.2.args, peeled.1⟩

theorem peelCdPrefixes_of_not_cd {disk : DirDisk} {anchor dir cmd : Str} {args : List Str}
    {external : Bool} (h : isCd cmd = false) :
    peelCdPrefixes disk anchor external dir cmd args = .ok (dir, ⟨cmd, args⟩) := by
  rw [peelCdPrefixes.eq_def, h]
  rfl

end Resolve

section Digest

/-- A character inside a JSON string, as `serde_json` writes it. -/
def jsonEscape (c : Char) : Str :=
  if c = '"' then ['\\', '"']
  else if c = '\\' then ['\\', '\\']
  else if c.toNat = 8 then ['\\', 'b']
  else if c.toNat = 9 then ['\\', 't']
  else if c.toNat = 10 then ['\\', 'n']
  else if c.toNat = 12 then ['\\', 'f']
  else if c.toNat = 13 then ['\\', 'r']
  else if c.toNat < 32 then "\\u00".toList ++ [hexDigit (c.toNat / 16), hexDigit (c.toNat % 16)]
  else [c]

structure CommandDigest where
  command : Str
  args : List Str
  cwd : Option Str

def CommandDigest.key (d : CommandDigest) : Str :=
  let base := "run_command|".toList ++ d.command ++ '|' :: [Char.ofNat 31].intercalate d.args
  match d.cwd with
  | none => base
  | some cwd => base ++ "|meta=\x7b\"cwd\":\"".toList ++ cwd.flatMap jsonEscape ++ "\"\x7d".toList

def parseRunCommandArgs (fromStr : Str → Option JsonValue) (argsJson : Str) :
    Option (Str × List Str) :=
  match parseRunCommandPayloadLenient fromStr argsJson with
  | none => none
  | some (command, args) => if command.isEmpty then none else some (command, args.map trim)

/-- The key of the success memo. Of the working directory it has only the one of the turn, not the
`cwd` field of the call. -/
def runCommandDuplicateSuppressKeyWithCwd (fromStr : Str → Option JsonValue)
    (argsJson cwd : Str) : Option Str :=
  (parseRunCommandArgs fromStr argsJson).map fun inv => CommandDigest.key ⟨inv.1, inv.2, some cwd⟩

end Digest
end CrabMate
