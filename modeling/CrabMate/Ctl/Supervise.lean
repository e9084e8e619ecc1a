import CrabMate.Ctl.Ops
import Mathlib.Data.String.Basic

/-! Convergence to the declaration file. A plan is made from the declarations and the records, and
then executed; the health sweep executes the starts of failed instances, behind a backoff that is
booked in the records. -/
namespace CrabMate.Ctl

structure StartSpec where
  workspace : Option String
  serveConfig : Option String
  port : Option ℕ
  env : EnvMap
  profile : Option String
  profileFingerprint : Option String
  noTools : Bool
  deriving DecidableEq

inductive Step where
  | start (name : String) (spec : StartSpec) (restart : Bool) (reason : String)
  | stop (name reason : String)
  | running (name : String)
  | started (name : String) (restarted : Bool) (reason : String)
  | stopped (name : String)
  | skipped (name reason : String)
  | failed (name error : String)
  deriving DecidableEq

def Step.name : Step → String
  | .start name _ _ _ | .stop name _ | .running name | .started name _ _ | .stopped name
  | .skipped name _ | .failed name _ => name

/-! The plan. -/

def Declaration.workspacePath (site : Site) (decl : Declaration) :
    Except CtlError (Option String) :=
  match decl.workspace with
  | none => .ok none
  | some raw => (site.workspacePath raw).map some

/-- The port of the declaration goes before the one of the record. -/
def startSpec (decl : Declaration) (workspace : Option String) (recordedPort : Option ℕ)
    (resolved : Option Resolved) : StartSpec where
  workspace := workspace
  serveConfig := (resolved.bind Resolved.serveConfig).or decl.config
  port := decl.port.or recordedPort
  env := (resolved.map Resolved.env).getD decl.env
  profile := decl.profile
  profileFingerprint := resolved.map Resolved.fingerprint
  noTools := (resolved.map Resolved.noTools).getD false

abbrev Row := InstanceRecord × Probe

def findCurrent (observed : List Row) (name : String) : Option Row :=
  observed.find? fun row => row.1.name = name

/-- A disabled instance is stopped only if the supervisor started it. -/
def disabledStep (name : String) (current : Option Row) : Step :=
  match current with
  | some (rec, p) =>
    if p.pidAlive then
      if Origin.fromRecord rec = .supervise then .stop name "声明为 enabled = false"
      else .skipped name (s!"声明为 enabled = false，但该实例由 {(Origin.fromRecord rec).asStr} 拉起，" ++
        "不代为停止")
    else .skipped name "声明为 enabled = false，且未在运行"
  | none => .skipped name "声明为 enabled = false，且未在运行"

def profileChangeReason (decl : Declaration) (rec : InstanceRecord) (pidAlive : Bool)
    (declFingerprint : Option String) : Option String :=
  if !pidAlive then none
  else if decl.profile ≠ rec.profile then
    some ("profile 从 `" ++ rec.profile.getD "（无）" ++ "` 变为 `" ++
      decl.profile.getD "（无）" ++ "`；需重启才生效")
  else match decl.profile with
    | none => none
    | some profile =>
      if declFingerprint ≠ rec.profileFingerprint then
        some (s!"profile `{profile}` 的内容已变更" ++
          "（allowed_commands / permission_level / env 等）；需重启才生效")
      else none

def downMark : String :=
  "已被 `down` 标记为停止（desired_state = stopped）；" ++
    "请用 `crabmatectl restart` 或改声明后重新收敛"

/-- The step of a declared instance, from its declaration and its record. -/
def declStep (name : String) (decl : Declaration) (workspace : Option String)
    (resolved : Option Resolved) (current : Option Row) : Step :=
  if !decl.enabled then disabledStep name current
  else match current with
    | none => .start name (startSpec decl workspace none resolved) false "尚无实例记录"
    | some (rec, probe) =>
      if rec.desiredState = .stopped then .skipped name downMark
      else match profileChangeReason decl rec probe.pidAlive
          (resolved.map Resolved.fingerprint) with
        | some reason => .start name (startSpec decl workspace rec.port resolved) true reason
        | none =>
          if probe.observed = .ready then .running name
          else .start name (startSpec decl workspace rec.port resolved) true
            s!"观测态为 {probe.observed.asStr}，需要重新拉起"

def stepForDecl (site : Site) (profiles : String → EnvMap → Except CtlError Resolved)
    (observed : List Row) (entry : String × Declaration) : Except CtlError Step := do
  let decl := entry.2
  let workspace ← decl.workspacePath site
  let resolved ← match decl.profile with
    | some profile => (profiles profile decl.env).map some
    | none => pure none
  pure (declStep entry.1 decl workspace resolved (findCurrent observed entry.1))

/-- An instance that is no longer declared is stopped if the supervisor started it. -/
def stepForOrphan (row : Row) : Option Step :=
  if Origin.fromRecord row.1 ≠ .supervise ∨ ¬ row.2.pidAlive then none
  else some (.stop row.1.name "声明中已不存在（该实例由 supervise 拉起）")

def planWith (site : Site) (profiles : String → EnvMap → Except CtlError Resolved)
    (file : InstancesFile) (observed : List Row) : Except CtlError (List Step) := do
  let steps ← file.rows.mapM (stepForDecl site profiles observed)
  let undeclared := observed.filter fun row => !(file.rows.map Prod.fst).contains row.1.name
  pure (steps ++ undeclared.filterMap stepForOrphan)

/-- Reads and probes every record. -/
def ls : Op (List Row) := do
  let names ← act .recordNames
  let rows ← names.mapM fun name => do
    match ← read name with
    | none => pure none
    | some rec =>
      let p ← observe rec
      pure (some (rec, p))
  pure ((rows.filterMap id).mergeSort fun a b => a.1.name ≤ b.1.name)

def plan (file : InstancesFile) : OpM (List Step) := do
  let site ← act .site
  let profiles ← call (pure site.profiles)
  let observed ← ls
  call (pure (planWith site profiles file observed))

/-- The part of the plan that a supervisor of a single instance may carry out. -/
def scopedSteps (steps : List Step) : Option String → List Step
  | none => steps
  | some name => steps.filter fun s => s.name = name

def scopedPlan (file : InstancesFile) (scope : Option String) : OpM (List Step) := do
  let steps ← plan file
  pure (scopedSteps steps scope)

/-! `restart`. The specification comes from the declaration, or from the record when there is
none, and is complete before anything is stopped. -/

def argsFromRecord (rec : InstanceRecord) (resolved : Option Resolved) : UpArgs where
  name := rec.name
  workspace := rec.workspace
  serveConfig := (resolved.bind Resolved.serveConfig).or rec.config
  port := rec.port
  yes := rec.yes
  env := (resolved.map Resolved.env).getD []
  origin := Origin.fromRecord rec
  profile := rec.profile
  profileFingerprint := resolved.map Resolved.fingerprint
  noTools := (resolved.map Resolved.noTools).getD false

def planRestart (site : Site) (rec : InstanceRecord) (decl : Option Declaration)
    (resolved : Option Resolved) : Except CtlError UpArgs := do
  match decl with
  | none => pure (argsFromRecord rec resolved)
  | some decl =>
    let declared ← decl.workspacePath site
    let spec := startSpec decl declared rec.port resolved
    pure { name := rec.name, workspace := declared.or rec.workspace,
           serveConfig := spec.serveConfig.or rec.config, port := spec.port, yes := rec.yes,
           env := spec.env, origin := Origin.fromRecord rec, profile := spec.profile,
           profileFingerprint := spec.profileFingerprint, noTools := spec.noTools }

def restartProfile (site : Site) (rec : InstanceRecord) (decl : Option Declaration) :
    Except CtlError (Option Resolved) := do
  let profile := match decl with
    | some d => d.profile
    | none => rec.profile
  match profile with
  | none => pure none
  | some profile =>
    let profiles ← site.profiles
    (profiles profile ((decl.map Declaration.env).getD [])).map some

def loadRestartPlan (rec : InstanceRecord) : OpM UpArgs := do
  let decl ← act (.declaredEntry rec.name)
  let site ← act .site
  let resolved ← call (pure (restartProfile site rec decl))
  let args ← call (pure (planRestart site rec decl resolved))
  -- a forbidden variable is reported while the instance still runs
  let _ ← call (act (.buildEnv args.env))
  pure args

def instanceNotFound (name : String) : CtlError :=
  .general "instance_not_found" s!"实例 {name} 不存在；请先 `crabmatectl up {name} ...`"

def restart (name : String) : OpM UpOutcome := do
  call (pure (validateName name))
  match ← read name with
  | none => throw (instanceNotFound name)
  | some rec =>
    let args ← loadRestartPlan rec
    let _ ← down name
    up args

/-! The execution. -/

def StartSpec.upArgs (name : String) (spec : StartSpec) : UpArgs where
  name := name
  workspace := spec.workspace
  serveConfig := spec.serveConfig
  port := spec.port
  yes := false
  env := spec.env
  origin := .supervise
  profile := spec.profile
  profileFingerprint := spec.profileFingerprint
  noTools := spec.noTools

def execUp (name : String) (spec : StartSpec) (restart : Bool) (reason : String) : Op Step := do
  match ← (up (spec.upArgs name)).run with
  | .ok _ => pure (.started name restart reason)
  | .error e => pure (.failed name s!"{e.message}（{e.errorCode}）")

/-- `down` first when there is a record, then `up`. -/
def execStart (name : String) (spec : StartSpec) (restart : Bool) (reason : String) : Op Step := do
  if restart then
    match ← (down name).run with
    | .error e => pure (.failed name s!"停止旧进程失败：{e.message}（{e.errorCode}）")
    | .ok _ => execUp name spec restart reason
  else execUp name spec restart reason

def execStop (name : String) : Op Step := do
  match ← (down name).run with
  | .ok _ => pure (.stopped name)
  | .error e => pure (.failed name s!"{e.message}（{e.errorCode}）")

def runStep : Step → Op Step
  | .start name spec restart reason => execStart name spec restart reason
  | .stop name _ => execStop name
  | other => pure other

def execute (steps : List Step) : Op (List Step) := steps.mapM runStep

/-- One convergence. A plan that fails is reported and nothing is executed. -/
def apply (file : InstancesFile) (scope : Option String) : OpM (List Step) := do
  let steps ← scopedPlan file scope
  execute steps

/-! The backoff. Durations are in nanoseconds. -/

def nanosPerSec : ℕ := 1000000000

def durationMax : ℕ := 18446744073709551615 * nanosPerSec + 999999999

/-- The delay doubles from `initial` up to `max`; a zero delay would be a busy loop. -/
structure Backoff where
  initial : ℕ
  max : ℕ
  initial_pos : nanosPerSec ≤ initial
  initial_le_max : initial ≤ max
  max_le : max ≤ durationMax

namespace Backoff

/-- Durations are at most `durationMax` in the source, by their type. -/
def new (initial max : ℕ) (hinitial : initial ≤ durationMax) (hmax : max ≤ durationMax) :
    Backoff where
  initial := Nat.max initial nanosPerSec
  max := Nat.max max (Nat.max initial nanosPerSec)
  initial_pos := Nat.le_max_right _ _
  initial_le_max := Nat.le_max_right _ _
  max_le := Nat.max_le.mpr ⟨hmax, Nat.max_le.mpr ⟨hinitial, by decide⟩⟩

/-- The delay after the `attempt`-th attempt. -/
def delay (b : Backoff) (attempt : ℕ) : ℕ :=
  let shift := Nat.min (attempt - 1) 16
  Nat.min (Nat.min (b.initial * (1 <<< shift)) durationMax) b.max

def delaySecs (b : Backoff) (attempt : ℕ) : ℕ := b.delay attempt / nanosPerSec

end Backoff

def secsAsI64 (secs : ℕ) : ℤ :=
  if secs < 9223372036854775808 then secs else (secs : ℤ) - 18446744073709551616

/-- The first and the last point in time of `chrono`, in nanoseconds. -/
def chronoMin : ℤ := -8334601228800000000000
def chronoMax : ℤ := 8210266876799999999999

/-- `now + delay`. A duration or a sum outside the range of `chrono` panics. -/
def Backoff.nextFrom (b : Backoff) (now : ℤ) (attempt : ℕ) : Except CtlError ℤ :=
  let secs := secsAsI64 (b.delaySecs attempt)
  let next := now + secs * nanosPerSec
  if secs.natAbs ≤ 9223372036854775 ∧ chronoMin ≤ next ∧ next ≤ chronoMax then .ok next
  else .error (.general "panic" "`DateTime + TimeDelta` overflowed")

inductive Gate where
  | go (attempt : ℕ)
  | wait
  deriving DecidableEq

def u32Max : ℕ := 4294967295

/-- A time stamp that cannot be read lets the attempt pass. -/
def gate (rec : Option InstanceRecord) (now : ℤ) : Gate :=
  let attempt := match rec with
    | none => 1
    | some r => Nat.min (r.restartAttempts + 1) u32Max
  match (rec.bind InstanceRecord.nextRestartAt).bind Rfc3339.parse with
  | some limit => if now < limit then .wait else .go attempt
  | none => .go attempt

/-! The health sweep. -/

def isFailure (observed : Option Observed) : Bool :=
  observed = some .stopped || observed = some .failed || observed = some .stale

def observedOf (observed : List Row) (name : String) : Option Observed :=
  (findCurrent observed name).map fun row => row.2.observed

/-- Books an attempt, also one that failed, and takes back the mark of the `down` before it. -/
def book (name : String) (attempt : ℕ) (now : ℤ) (backoff : Backoff) : OpM Unit := do
  match ← read name with
  | none => pure ()
  | some rec =>
    let next ← call (pure (backoff.nextFrom now attempt))
    write { rec with restartAttempts := attempt, nextRestartAt := some ⟨next⟩,
                     desiredState := .running } .book

/-- The instance was seen running: the backoff starts anew. -/
def reset (name : String) : Op Unit := do
  match ← read name with
  | none => pure ()
  | some rec =>
    if rec.restartAttempts = 0 ∧ rec.nextRestartAt = none then pure ()
    else write { rec with restartAttempts := 0, nextRestartAt := none } .reset

/-- The part of a sweep before it executes anything: an attempt for each failed instance whose
backoff is over. -/
def sweepStep (observed : List Row) (now : ℤ) : Step → Op (Option (Step × ℕ))
  | .running name => do
    reset name
    pure none
  | .start name spec restart reason => do
    if !isFailure (observedOf observed name) then pure none
    else
      match gate (← read name) now with
      | .go attempt => pure (some (.start name spec restart reason, attempt))
      | .wait => pure none
  | _ => pure none

def sweep (file : InstancesFile) (scope : Option String) (backoff : Backoff) (now : ℤ) :
    OpM (List Step) := do
  let observed ← ls
  let steps ← scopedPlan file scope
  let chosen ← (steps.mapM (sweepStep observed now) : Op _)
  let due := chosen.filterMap id
  let done ← execute (due.map Prod.fst)
  -- booked after the execution: `up` writes a fresh record, with no attempts
  due.forM fun d => book d.1.name d.2 now backoff
  pure done

end CrabMate.Ctl
