import CrabMate.Lib.Prog
import CrabMate.Lib.Table
import Mathlib.Data.Int.Notation

/-! The state record of an instance, what is observed of its process, and the actions of the
controller on files and processes. -/
namespace CrabMate.Ctl

def exitGeneral : ℕ := 1
def exitUsage : ℕ := 2

structure CtlError where
  exitCode : ℕ
  errorCode : String
  message : String
  deriving DecidableEq

namespace CtlError

def general (errorCode message : String) : CtlError := ⟨exitGeneral, errorCode, message⟩

def usage (errorCode message : String) : CtlError := ⟨exitUsage, errorCode, message⟩

/-- The same exit code as `usage`: a retry is useless either way. -/
def conflict (errorCode message : String) : CtlError := usage errorCode message

end CtlError

/-! The record. -/

inductive InstanceState where
  | starting | ready | failed | stopped
  deriving DecidableEq

inductive DesiredState where
  | running | stopped
  deriving DecidableEq

inductive Origin where
  | cli | supervise
  deriving DecidableEq

def Origin.asStr : Origin → String
  | .cli => "cli"
  | .supervise => "supervise"

/-- A point in time as RFC 3339 text. Only times of the years 0 to 9999 can be read back. -/
structure Rfc3339 where
  nanos : ℤ
  deriving DecidableEq

/-- The nanoseconds of the epoch at which the years 0 and 10000 begin. -/
def yearZero : ℤ := -62167219200000000000
def yearTenThousand : ℤ := 253402300800000000000

def Rfc3339.parse (text : Rfc3339) : Option ℤ :=
  if yearZero ≤ text.nanos ∧ text.nanos < yearTenThousand then some text.nanos else none

structure InstanceRecord where
  name : String
  state : InstanceState := .starting
  desiredState : DesiredState := .running
  port : Option ℕ := none
  pid : Option ℕ := none
  pgid : Option ℕ := none
  envKeys : List String := []
  workspace : Option String := none
  config : Option String := none
  profile : Option String := none
  profileInUse : Option String := none
  profileFingerprint : Option String := none
  managedBy : Option String := none
  restartAttempts : ℕ := 0
  nextRestartAt : Option Rfc3339 := none
  yes : Bool := false
  deriving DecidableEq

def Origin.fromRecord (rec : InstanceRecord) : Origin :=
  match rec.managedBy with
  | some "supervise" => .supervise
  | _ => .cli

/-! What is observed. -/

inductive Identity where
  | match
  | noPid
  | mismatch (reason : String)
  deriving DecidableEq

inductive Observed where
  | ready | starting | stale | stopped | failed | held
  deriving DecidableEq

namespace Observed

def asStr : Observed → String
  | .ready => "ready"
  | .starting => "starting"
  | .stale => "stale"
  | .stopped => "stopped"
  | .failed => "failed"
  | .held => "held"

def isPrunable (o : Observed) : Bool := o = .stale || o = .stopped || o = .failed

end Observed

/-- The facts about the process of a record: whether the pid is alive, whether it is the process
that was started, and whether the port of the record accepts connections. -/
structure Facts where
  pidAlive : Bool
  identity : Identity
  tcpOk : Bool
  deriving DecidableEq

structure Probe extends Facts where
  observed : Observed
  deriving DecidableEq

def Probe.processIsLiveAndOurs (p : Probe) : Bool := p.pidAlive && p.identity = .match

def observedState (rec : InstanceRecord) (facts : Facts) : Observed :=
  match rec.state, facts.pidAlive with
  | .starting, false => .failed
  | .starting, true => if facts.tcpOk then .ready else .starting
  | .ready, false => .stopped
  | .ready, true =>
    if facts.identity ≠ .match ∨ ¬ facts.tcpOk then .stale
    else if rec.desiredState = .stopped then .held else .ready
  | .failed, _ => .failed
  | .stopped, _ => .stopped

def probeOf (rec : InstanceRecord) (facts : Facts) : Probe :=
  { toFacts := facts, observed := observedState rec facts }

inductive WaitOutcome where
  | ready | timeout | exited
  deriving DecidableEq

/-! Declarations and start specifications. -/

/-- A `BTreeMap` of environment variables. -/
abbrev EnvMap := List (String × String)

structure Declaration where
  workspace : Option String := none
  config : Option String := none
  profile : Option String := none
  port : Option ℕ := none
  enabled : Bool := true
  env : EnvMap := []
  deriving DecidableEq

/-- The declaration file: one entry for each declared name. -/
abbrev InstancesFile := Table (Prod.fst : String × Declaration → String)

structure Resolved where
  serveConfig : Option String := none
  env : EnvMap := []
  noTools : Bool := false
  deriving DecidableEq

def fnv1a64 (text : String) : UInt64 :=
  text.toUTF8.toList.foldl
    (fun hash byte => (hash ^^^ byte.toUInt64) * 0x00000100000001b3) 0xcbf29ce484222325

/-- The fingerprint of what a profile amounts to: sixteen hexadecimal digits. -/
def Resolved.fingerprint (r : Resolved) : String :=
  let parts := ["config=" ++ r.serveConfig.getD "", "no_tools=" ++ toString r.noTools] ++
    r.env.map fun kv => kv.1 ++ "=" ++ kv.2
  let digits := String.ofList (Nat.toDigits 16 (fnv1a64 ("\x1f".intercalate parts)).toNat)
  String.ofList (List.replicate (16 - digits.length) '0') ++ digits

/-- What paths and profile names mean where the controller runs. -/
structure Site where
  workspacePath : String → Except CtlError String := .ok
  profiles : Except CtlError (String → EnvMap → Except CtlError Resolved) :=
    .ok fun name _ => .error (.usage "profile_not_found" name)

structure UpArgs where
  name : String
  workspace : Option String := none
  serveConfig : Option String := none
  port : Option ℕ := none
  yes : Bool := false
  env : EnvMap := []
  origin : Origin := .cli
  profile : Option String := none
  profileFingerprint : Option String := none
  noTools : Bool := false
  deriving DecidableEq

structure SpawnSpec where
  workspace : Option String
  serveConfig : Option String
  port : ℕ
  yes : Bool
  noTools : Bool
  env : EnvMap

/-! The actions, with the name for which they are made. A write and a signal carry the function
that makes them. -/

inductive Writer where
  | spawnAndRecord | finalizeReady | markReadinessTimeout | upOnce | down | finishStopped
  | markWantedRunning | book | reset
  deriving DecidableEq

inductive Act where
  | recordNames
  | read (name : String)
  | write (rec : InstanceRecord) (writer : Writer)
  | facts (rec : InstanceRecord)
  | pidAlive (name : String) (pid : ℕ)
  | verify (rec : InstanceRecord)
  | terminate (name : String) (pid : ℕ) (pgid : Option ℕ) (writer : Writer)
  | lock (name : String)
  | unlock
  | resolveWorkspace (name : String) (raw : Option String)
  | isFree (name : String) (port : ℕ)
  | firstFree (name : String)
  | nextFreeFrom (name : String) (port : ℕ)
  | preflight (name : String) (serveConfig workspace : Option String)
  | spawn (name : String) (spec : SpawnSpec)
  | waitTcp (name : String) (pid port : ℕ)
  | site
  | declaredEntry (name : String)
  | buildEnv (env : EnvMap)

@[reducible] def Act.Res : Act → Type
  | .recordNames => List String
  | .read _ => Option InstanceRecord
  | .write _ _ => Unit
  | .facts _ => Facts
  | .pidAlive _ _ => Bool
  | .verify _ => Identity
  | .terminate _ _ _ _ => Except CtlError Bool
  | .lock _ => Bool
  | .unlock => Unit
  | .resolveWorkspace _ _ => Except CtlError (Option String)
  | .isFree _ _ => Bool
  | .firstFree _ => Except CtlError ℕ
  | .nextFreeFrom _ _ => Except CtlError ℕ
  | .preflight _ _ _ => Except CtlError Unit
  | .spawn _ _ => Except CtlError (ℕ × List String)
  | .waitTcp _ _ _ => WaitOutcome
  | .site => Site
  | .declaredEntry _ => Option Declaration
  | .buildEnv _ => Except CtlError (List String)

/-- An action with its answer, and the thread of control that performed it. -/
structure Event where
  thread : ℕ
  act : Act
  answer : act.Res

/-- The state directory, the serve processes that run for each name, the next free pid, the holder
of the directory lock, and what has been done so far. -/
structure World where
  records : Table InstanceRecord.name
  live : List (String × ℕ)
  nextPid : ℕ
  lock : Option ℕ
  log : List Event

def World.fresh : World := ⟨Table.empty, [], 1, none, []⟩

/-- What the environment decides at one action. Processes may exit before it; a pid that is not
one of ours may belong to a process of somebody else. -/
structure Choice where
  gone : List ℕ := []
  foreign : Bool := false
  reason : String := ""
  tcp : Bool := true
  free : Bool := true
  wait : WaitOutcome := .ready
  terminate : Except CtlError Bool := .ok false
  workspace : Except CtlError (Option String) := .ok none
  port : Except CtlError ℕ := .ok 8080
  preflight : Except CtlError Unit := .ok ()
  spawn : Except CtlError (List String) := .ok []
  skipPids : ℕ := 0
  site : Site := {}
  declared : Option Declaration := none
  env : Except CtlError (List String) := .ok []

instance : Inhabited Choice := ⟨{}⟩

namespace World

def exits (w : World) (gone : List ℕ) : World :=
  { w with live := w.live.filter fun q => !gone.contains q.2 }

/-- The process of a record is one that was started for its name and runs. -/
def isLive (w : World) (name : String) (pid : ℕ) : Bool := w.live.contains (name, pid)

def identityOf (w : World) (c : Choice) (rec : InstanceRecord) : Identity :=
  match rec.pid with
  | none => .noPid
  | some pid => if w.isLive rec.name pid then .match else .mismatch c.reason

def pidAliveOf (w : World) (c : Choice) (rec : InstanceRecord) : Bool :=
  match rec.pid with
  | none => false
  | some pid => w.isLive rec.name pid || c.foreign

def factsOf (w : World) (c : Choice) (rec : InstanceRecord) : Facts :=
  ⟨w.pidAliveOf c rec, w.identityOf c rec, w.pidAliveOf c rec && c.tcp⟩

end World

/-- The answer to an action and its effect. A call that fails has none; a signal may fail to end
the process, and a process that ends does so through `Choice.gone`. -/
def Act.answer (t : ℕ) (w : World) (c : Choice) : (a : Act) → a.Res × World
  | .recordNames => (w.records.rows.map InstanceRecord.name, w)
  | .read name => (w.records.lookup name, w)
  | .write rec _ => ((), { w with records := w.records.put rec })
  | .facts rec => (w.factsOf c rec, w)
  | .pidAlive name pid => (w.isLive name pid || c.foreign, w)
  | .verify rec => (w.identityOf c rec, w)
  | .terminate _ _ _ _ => (c.terminate, w)
  | .lock _ =>
    let free := c.free && w.lock.isNone
    (free, { w with lock := if free then some t else w.lock })
  | .unlock => ((), { w with lock := none })
  | .resolveWorkspace _ _ => (c.workspace, w)
  | .isFree _ _ => (c.free, w)
  | .firstFree _ => (c.port, w)
  | .nextFreeFrom _ _ => (c.port, w)
  | .preflight _ _ _ => (c.preflight, w)
  | .spawn name _ =>
    match c.spawn with
    | .error e => (.error e, w)
    | .ok keys =>
      let pid := w.nextPid + c.skipPids
      (.ok (pid, keys), { w with live := (name, pid) :: w.live, nextPid := pid + 1 })
  | .waitTcp name pid _ =>
    (if c.wait = .exited ∧ w.isLive name pid then .timeout else c.wait, w)
  | .site => (c.site, w)
  | .declaredEntry _ => (c.declared, w)
  | .buildEnv _ => (c.env, w)

def exec (t : ℕ) (a : Act) (w : World) (c : Choice) : a.Res × World :=
  let out := a.answer t (w.exits c.gone) c
  (out.1, { out.2 with log := w.log ++ [⟨t, a, out.1⟩] })

abbrev Op := Prog Act Act.Res

abbrev OpM := ExceptT CtlError Op

end CrabMate.Ctl
