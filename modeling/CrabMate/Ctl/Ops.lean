import CrabMate.Ctl.Record

/-! Instance names and the files of an instance; `up`, `down` and `restart`. Only the check, the
spawn and the first record of `up` run under the directory lock; every later write rewrites the
whole record from a copy. -/
namespace CrabMate.Ctl

def maxNameLen : ℕ := 64

def nameChar (c : Char) : Bool := c.isAlphanum || c == '.' || c == '_' || c == '-'

def validateName (name : String) : Except CtlError Unit :=
  if name.toList = [] then .error (.usage "bad_name" "实例名不能为空")
  else if name.utf8ByteSize > maxNameLen then
    .error (.usage "bad_name" s!"实例名过长（上限 {maxNameLen} 字符）：{name}")
  else if name.toList.head? = some '.' then
    .error (.usage "bad_name" s!"实例名不能以 `.` 开头：{name}")
  else if !name.toList.all nameChar then
    .error (.usage "bad_name" s!"实例名只允许 ASCII 字母数字与 `.` `_` `-`：{name}")
  else .ok ()

/-- A path by its components. A name that passes the check is one component. -/
abbrev PathBuf := List String

structure CtlPaths where
  stateDir : PathBuf

namespace CtlPaths

def instancesDir (P : CtlPaths) : PathBuf := P.stateDir ++ ["instances"]

def instanceHome (P : CtlPaths) (name : String) : PathBuf := P.instancesDir ++ [name]

def instanceHomeChecked (P : CtlPaths) (name : String) : Except CtlError PathBuf := do
  validateName name
  pure (P.instanceHome name)

def logPath (P : CtlPaths) (name : String) : PathBuf := P.instancesDir ++ [name ++ ".log"]

def recordPath (P : CtlPaths) (name : String) : Except CtlError PathBuf := do
  validateName name
  pure (P.instancesDir ++ [name ++ ".json"])

end CtlPaths

/-- The last log before the current one. -/
def rotatedPath (current : PathBuf) : PathBuf :=
  current.dropLast ++ [current.getLastD "" ++ ".1"]

/-! The operations. -/

def act (a : Act) : Op a.Res := Prog.perform a

/-- An action that may fail. -/
def call {α : Type} (p : Op (Except CtlError α)) : OpM α := ExceptT.mk p

/-- Goes on with the result of `p` also when it is a failure. -/
def attempt {α : Type} (p : OpM α) : OpM (Except CtlError α) := ExceptT.lift p.run

@[simp] theorem wp_attempt {α S : Type} {C : Act → Type} {env : Prog.Env Act Act.Res S C}
    (p : OpM α) (Q : Except CtlError (Except CtlError α) → S → Prop) (s : S) :
    (attempt p).run.wp env Q s ↔ p.run.wp env (fun r => Q (.ok r)) s := Prog.wp_map _ _ _ _

def read (name : String) : Op (Option InstanceRecord) := act (.read name)

def write (rec : InstanceRecord) (writer : Writer) : Op Unit := act (.write rec writer)

def observe (rec : InstanceRecord) : Op Probe := do
  let facts ← act (.facts rec)
  pure (probeOf rec facts)

/-! The guard of `up`. -/

def liveProcessReason (rec : InstanceRecord) (p : Probe) : Option String :=
  if !p.processIsLiveAndOurs then none
  else some (s!"记录里的 pid {rec.pid.getD 0} 仍在运行、身份校验通过，" ++
    s!"但观测态为 {p.observed.asStr}（端口不通）；" ++
    "记录是它唯一的地址，删掉或覆盖它只会留下一个谁都管不到的孤儿进程")

def nextStep (name : String) (observed : Observed) : String :=
  if observed = .starting then
    "它看起来正在启动中（并发 `up`，或上一个 ctl 没等到就绪就退出了）；" ++
      s!"先 `crabmatectl status {name}` 看进展，要重来再 `crabmatectl down {name}`"
  else
    s!"请先 `crabmatectl down {name}`（serve 优雅关停较慢时用 `--timeout <SECS>` 放宽宽限），" ++
      "确认进程已退出后重试"

def ensureNotLive (name : String) : OpM Unit := do
  match ← read name with
  | none => pure ()
  | some rec =>
    let p ← observe rec
    match liveProcessReason rec p with
    | none => pure ()
    | some reason =>
      throw (.conflict "instance_already_live"
        (s!"拒绝启动实例 {name}：{reason}。\n" ++ nextStep name p.observed))

/-! `up`. -/

structure UpOutcome where
  record : InstanceRecord
  alreadyRunning : Bool
  observed : Observed

def existingIfReady (name : String) : Op (Option InstanceRecord) := do
  match ← read name with
  | none => pure none
  | some rec =>
    let p ← observe rec
    pure (if p.observed = .ready then some rec else none)

def lockBusy : CtlError := .general "lock_busy" "另一个 ctl 正在操作实例状态"

/-- Runs `body` with the directory lock, which is tried once and released on every exit. -/
def withLock {α : Type} (name : String) (body : OpM α) : OpM α := do
  if ← act (.lock name) then
    let result ← attempt body
    act .unlock
    call (pure result)
  else throw lockBusy

def buildSpec (args : UpArgs) (workspace : Option String) (port : ℕ) : SpawnSpec :=
  { workspace, serveConfig := args.serveConfig, port, yes := args.yes, noTools := args.noTools,
    env := args.env }

/-- The record of an instance that has just been spawned. -/
def newRecord (args : UpArgs) (workspace : Option String) (port pid : ℕ)
    (envKeys : List String) : InstanceRecord :=
  { name := args.name, state := .starting, desiredState := .running, port := some port,
    pid := some pid, pgid := some pid, workspace, config := args.serveConfig, envKeys,
    yes := args.yes, managedBy := some args.origin.asStr, profile := args.profile,
    profileInUse := args.profile, profileFingerprint := args.profileFingerprint }

def spawnAndRecord (args : UpArgs) (workspace : Option String) (port : ℕ) :
    OpM InstanceRecord :=
  withLock args.name do
    match ← existingIfReady args.name with
    | some rec => pure rec
    | none =>
      ensureNotLive args.name
      let (pid, envKeys) ← call (act (.spawn args.name (buildSpec args workspace port)))
      let record := newRecord args workspace port pid envKeys
      write record .spawnAndRecord
      pure record

def finalizeReady (rec : InstanceRecord) : Op InstanceRecord := do
  let record := { rec with state := .ready }
  write record .finalizeReady
  pure record

/-- The answer to the signal is only noted: the record loses its pid either way. -/
def markReadinessTimeout (rec : InstanceRecord) (pid : ℕ) : Op InstanceRecord := do
  let _ ← act (.terminate rec.name pid rec.pgid .markReadinessTimeout)
  let record := { rec with state := .failed, pid := none, pgid := none }
  write record .markReadinessTimeout
  pure record

def readinessFailed (name : String) : CtlError :=
  .general "readiness_failed" s!"实例 {name} 启动失败：serve 在就绪前退出"

def upOnce (args : UpArgs) (workspace : Option String) (port : ℕ) : OpM UpOutcome := do
  let record ← spawnAndRecord args workspace port
  if record.state = .ready then
    pure ⟨record, true, .ready⟩
  else
    let pid := record.pid.getD 0
    match ← act (.waitTcp args.name pid port) with
    | .ready =>
      let record ← finalizeReady record
      pure ⟨record, false, .ready⟩
    | .timeout =>
      let record ← markReadinessTimeout record pid
      pure ⟨record, false, .failed⟩
    | .exited =>
      write { record with state := .failed } .upOnce
      throw (readinessFailed args.name)

inductive Launch where
  | existing (rec : InstanceRecord)
  | new (workspace : Option String) (port : ℕ)

def selectPort (args : UpArgs) : OpM ℕ := do
  match args.port with
  | some p =>
    if ← act (.isFree args.name p) then pure p
    else throw (.conflict "port_in_use" (s!"端口 {p} 已被占用（127.0.0.1）；换一个 `--port`，" ++
      "或先 `crabmatectl down` 掉占用它的实例"))
  | none => call (act (.firstFree args.name))

def prepareUp (args : UpArgs) : OpM Launch := do
  call (pure (validateName args.name))
  let workspace ← call (act (.resolveWorkspace args.name args.workspace))
  match ← existingIfReady args.name with
  | some rec => pure (.existing rec)
  | none =>
    ensureNotLive args.name
    let port ← selectPort args
    call (act (.preflight args.name args.serveConfig workspace))
    pure (.new workspace port)

def portRace (port retry : ℕ) (e : CtlError) : CtlError :=
  .general "port_race" s!"端口 {port} 启动失败，顺延到 {retry} 仍失败：{e.message}"

/-- A port from the pool may have been taken in the meantime: then the next free one is tried,
once. -/
def up (args : UpArgs) : OpM UpOutcome := do
  match ← prepareUp args with
  | .existing rec => pure ⟨rec, true, .ready⟩
  | .new workspace port =>
    match ← attempt (upOnce args workspace port) with
    | .ok out => pure out
    | .error e =>
      if e.errorCode = "readiness_failed" ∧ args.port = none then
        let retry ← call (act (.nextFreeFrom args.name port))
        match ← attempt (upOnce args workspace retry) with
        | .ok out => pure out
        | .error e₂ => throw (portRace port retry e₂)
      else throw e

/-! `down`. -/

structure DownOutcome where
  name : String
  alreadyStopped : Bool
  forced : Bool

def finishStopped (rec : InstanceRecord) : Op Unit :=
  write { rec with state := .stopped, pid := none, pgid := none, restartAttempts := 0,
                   nextRestartAt := none } .finishStopped

def livePid (rec : InstanceRecord) : Op (Option ℕ) := do
  match rec.pid with
  | none => pure none
  | some pid => do
    let alive ← act (.pidAlive rec.name pid)
    pure (if alive then some pid else none)

def Identity.reason : Identity → Option String
  | .mismatch r => some r
  | _ => none

def identityMismatch (name : String) (ident : Identity) : CtlError :=
  .general "identity_mismatch"
    (s!"拒绝终止实例 {name}：" ++ ident.reason.getD "进程身份校验未通过" ++
      "。记录可能与实际进程不符，请人工确认后执行 `crabmatectl prune`")

def downRecord (rec : InstanceRecord) : OpM DownOutcome := do
  match ← livePid rec with
  | none =>
    finishStopped rec
    pure ⟨rec.name, true, false⟩
  | some pid =>
    let ident ← act (.verify rec)
    if ident ≠ .match then throw (identityMismatch rec.name ident)
    else
      let forced ← call (act (.terminate rec.name pid rec.pgid .down))
      finishStopped rec
      pure ⟨rec.name, false, forced⟩

def down (name : String) : OpM DownOutcome := do
  call (pure (validateName name))
  match ← read name with
  | none => pure ⟨name, true, false⟩
  | some rec =>
    -- written first: a supervisor must not bring the instance back while it is being killed
    let record := { rec with desiredState := .stopped }
    write record .down
    downRecord record

/-- `enable` takes back the mark of an earlier `down`. -/
def markWantedRunning (name : String) : OpM Bool := do
  call (pure (validateName name))
  match ← read name with
  | none => pure false
  | some rec =>
    if rec.desiredState = .running then pure false
    else
      write { rec with desiredState := .running } .markWantedRunning
      pure true

end CrabMate.Ctl
