import Mathlib.Data.List.TakeWhile
import CrabMate.Ctl.Sweeps

/-! Whose stop it is. The mark `desired_state = stopped` is the user's `down`, and the supervisor
leaves a marked instance alone; but `down` is also the first half of every restart and of every stop
that the supervisor makes itself. -/
namespace CrabMate.Ctl
open Prog

open Prog (wp_mono)

/-! Commands. -/

inductive UserVerb where
  | up | down | restart | enable
  deriving DecidableEq

inductive Cmd where
  | up (args : UpArgs)
  | down (name : String)
  | restart (name : String)
  | enable (name : String)
  | edit (file : InstancesFile)
  | apply (scope : Option String)
  | sweep (scope : Option String) (backoff : Backoff) (now : ℤ)

/-- Changes only the flag of one declaration. -/
def setEnabled (file : InstancesFile) (name : String) (enabled : Bool) : InstancesFile :=
  file.updateWhere (fun entry => entry.1 = name) (fun entry => (entry.1, { entry.2 with enabled }))
    fun _ => rfl

/-- `enable` does nothing for a name that is not declared. -/
def enables (file : InstancesFile) (name : String) : Bool :=
  decide (validateName name = .ok ()) && (file.lookup name).isSome

namespace Cmd

def file (file : InstancesFile) : Cmd → InstancesFile
  | .edit f => f
  | .enable name => if enables file name then setEnabled file name true else file
  | _ => file

def op (file : InstancesFile) : Cmd → Op Unit
  | .up args => (fun _ => ()) <$> (Ctl.up args).run
  | .down name => (fun _ => ()) <$> (Ctl.down name).run
  | .restart name => (fun _ => ()) <$> (Ctl.restart name).run
  | .enable name =>
    if enables file name then (fun _ => ()) <$> (markWantedRunning name).run else pure ()
  | .edit _ => pure ()
  | .apply scope => (fun _ => ()) <$> (Ctl.apply file scope).run
  | .sweep scope backoff now => (fun _ => ()) <$> (Ctl.sweep file scope backoff now).run

def user? : Cmd → Option (UserVerb × String)
  | .up args => some (.up, args.name)
  | .down name => some (.down, name)
  | .restart name => some (.restart, name)
  | .enable name => some (.enable, name)
  | _ => none

def isReconcile : Cmd → Bool
  | .apply _ | .sweep _ _ _ => true
  | _ => false

def enablesName (file : InstancesFile) (cmd : Cmd) (name : String) : Bool :=
  match cmd with
  | .enable n => decide (n = name) && enables file n
  | _ => false

end Cmd

/-- The system between two commands: the world, the declaration file, and for each instance the last
user command, whether the user has run `down` since it was last brought up or enabled, and whether
the supervisor has stopped it since then. -/
structure Sys where
  world : World
  file : InstancesFile
  lastUser : String → Option UserVerb
  downed : String → Bool
  stoppedByApply : String → Bool

namespace Sys

def init (file : InstancesFile) : Sys :=
  ⟨World.fresh, file, fun _ => none, fun _ => false, fun _ => false⟩

/-- The world before a command, with nothing logged. -/
def before (s : Sys) : World := { s.world with log := [] }

/-- The world after a command, with the log of that command alone. -/
def after (s : Sys) (turn : Cmd × List Choice) : World :=
  ((turn.1.op s.file).run (exec 0) turn.2 s.before).2

/-- The command brings the instance up: a new record is written. -/
def bringsUp (s : Sys) (turn : Cmd × List Choice) (name : String) : Bool :=
  (s.after turn).ledger.wrote .spawnAndRecord name

def step (s : Sys) (turn : Cmd × List Choice) : Sys where
  world := s.after turn
  file := turn.1.file s.file
  lastUser name :=
    match turn.1.user? with
    | some (verb, n) => if n = name then some verb else s.lastUser name
    | none => s.lastUser name
  downed name :=
    if s.bringsUp turn name || turn.1.enablesName s.file name then false
    else decide (turn.1.user? = some (.down, name)) || s.downed name
  stoppedByApply name :=
    if s.bringsUp turn name || turn.1.enablesName s.file name ||
        decide (turn.1.user? = some (.down, name)) then false
    else s.stoppedByApply name ||
      (turn.1.isReconcile && !enabledIn s.file name && !s.downed name &&
        (s.after turn).ledger.wrote .down name)

/-- The command starts a process for the instance. -/
def starts (s : Sys) (turn : Cmd × List Choice) (name : String) : Bool :=
  (s.after turn).ledger.spawned name

/-- Every call that the command makes for `name`, up to the new record, succeeds. -/
def CallsSucceed (s : Sys) (turn : Cmd × List Choice) (name : String) : Prop :=
  ∀ e ∈ (s.after turn).log.takeWhile fun e => !e.isWrite .spawnAndRecord name,
    CallOk name e.act e.answer

/-- A `down` finds a record; a restart of an instance that is wanted succeeds in all its calls; an
edit enables nothing that the supervisor has stopped; an attempt can be booked. -/
def Admissible (s : Sys) (turn : Cmd × List Choice) : Prop :=
  match turn.1 with
  | .down name => s.world.ledger.rec? name ≠ none
  | .restart name => s.world.ledger.want? name = some .running → s.CallsSucceed turn name
  | .edit file => ∀ name, s.stoppedByApply name = true → enabledIn file name = false
  | .apply _ => ∀ name, enabledIn s.file name = true →
      s.world.ledger.want? name = some .running → s.CallsSucceed turn name
  | .sweep _ backoff now => Bookable backoff now s.world.ledger
  | _ => True

end Sys

/-! What the user's commands do for one instance. -/

section User

variable {P : (a : Act) → a.Res → Prop} {σ : Ledger} {name : String} {file : InstancesFile}

abbrev freeEnv (P : (a : Act) → a.Res → Prop) : Prog.Env Act Act.Res Ledger Act.Res :=
  ledgerEnv P (fun _ _ _ => True) fun _ _ => True

/-- What `restart` does for `name`. -/
inductive Moved (P : (a : Act) → a.Res → Prop) (name : String) (σ τ : Ledger) : Prop
  | kept (h : SameAt name σ τ)
  | started (hwant : τ.want? name = some .running)
      (hrecorded : τ.wrote .spawnAndRecord name = true)
  | failed (hsure : ¬ Sure P name) (hexists : σ.want? name ≠ none)
      (hstopped : τ.want? name = some .stopped)
      (hrecorded : τ.wrote .spawnAndRecord name = σ.wrote .spawnAndRecord name)

theorem Started.want?_eq {τ : Ledger} (h : Started name σ τ) :
    τ.want? name = some .running := by
  obtain ⟨rec, hrec, hup, -⟩ := h.record
  simp [Ledger.want?, hrec, hup.wanted]

theorem wp_up_own (args : UpArgs) (htidy : σ.TidyAt args.name) :
    (up args).run.wp (freeEnv P) (fun _ τ => τ = σ ∨ Started args.name σ τ) σ :=
  wp_up (fun _ _ _ _ _ _ => trivial) trivial (fun _ _ => trivial) htidy.lock
    (fun _ _ _ _ => Or.inl rfl) (fun _ _ => Or.inl rfl) (fun _ _ => Or.inr)
    fun hns => absurd htidy.settled hns

theorem wp_other {α : Type} {p : Op α} {m : String} (hm : m ≠ name)
    (h : p.wp (onlyFor P m) (fun _ τ => τ.lock = none) σ) :
    p.wp (freeEnv P) (fun _ τ => τ.lock = none ∧ SameAt name σ τ) σ :=
  wp_sameAt hm (fun _ _ _ _ => trivial) (fun _ => trivial) h

theorem name_planRestart {site : Site} {rec : InstanceRecord} {decl : Option Declaration}
    {resolved : Option Resolved} {args : UpArgs}
    (h : planRestart site rec decl resolved = .ok args) : args.name = rec.name := by
  cases decl with
  | none =>
    obtain rfl : argsFromRecord rec resolved = args := Except.ok.inj h
    rfl
  | some decl =>
    cases hdeclared : decl.workspacePath site with
    | error e => simp [planRestart, hdeclared, bind, Except.bind] at h
    | ok declared =>
      simp only [planRestart, hdeclared, bind, Except.bind, pure, Except.pure, Except.ok.injEq] at h
      rw [← h]

theorem wp_loadRestartPlan {W : Ledger → InstanceRecord → Writer → Prop}
    {N : Ledger → String → Prop} {rec : InstanceRecord} {Q : Except CtlError UpArgs → Ledger → Prop}
    (hfail : ∀ e, Q (.error e) σ) (hok : ∀ args : UpArgs, args.name = rec.name → Q (.ok args) σ) :
    (loadRestartPlan rec).run.wp (ledgerEnv P W N) Q σ := by
  simp only [loadRestartPlan, wp_run_bind, wp_run_lift]
  refine wp_act fun decl _ _ => ⟨trivial, ?_⟩
  simp only [onOk_ok, wp_run_bind, wp_run_lift]
  refine wp_act fun site _ _ => ⟨trivial, ?_⟩
  simp only [call, wp_run_bind, wp_run_mk, wp_pure]
  cases restartProfile site rec decl with
  | error e => exact hfail e
  | ok resolved =>
    simp only [onOk_ok, wp_run_bind, wp_run_mk, wp_pure]
    cases hargs : planRestart site rec decl resolved with
    | error e => exact hfail e
    | ok args =>
      simp only [onOk_ok, wp_run_bind, wp_run_mk]
      refine wp_act fun env _ _ => ⟨trivial, ?_⟩
      cases env with
      | error e => exact hfail e
      | ok keys => exact hok args (name_planRestart hargs)

/-- `restart` stops the instance only after the plan is complete, and then starts it. -/
theorem wp_restart_own (hlock : σ.lock = none) :
    (restart name).run.wp (freeEnv P) (fun _ τ => Tidies name σ τ ∧ Moved P name σ τ) σ := by
  have hkept : Tidies name σ σ ∧ Moved P name σ σ :=
    ⟨Tidies.refl hlock, .kept (SameAt.refl _ σ)⟩
  simp only [restart, call, wp_run_bind, wp_run_mk, wp_pure]
  cases validateName name with
  | error e => exact hkept
  | ok u =>
    simp only [onOk_ok, wp_run_bind, wp_run_lift]
    apply wp_read
    cases hrec : σ.rec? name with
    | none => exact hkept
    | some rec =>
      have hname : rec.name = name := Ledger.name_of_rec? hrec
      have hexists : σ.want? name ≠ none := by simp [Ledger.want?, hrec]
      -- `down` has come to an end, or has failed after its mark
      have hfailed : ∀ τ, ¬ Sure P name → τ = σ.marked rec ∨ τ = σ.halted rec →
          Tidies name σ τ ∧ Moved P name σ τ := by
        intro τ hns hτ
        obtain ⟨hτtidy, hstopped, -, hrecorded, -⟩ := stopped_of_down hlock hrec hτ
        exact ⟨hτtidy, .failed hns hexists hstopped hrecorded⟩
      simp only [wp_run_bind]
      refine wp_loadRestartPlan (fun _ => hkept) fun args hargs => ?_
      have hargs : args.name = name := hargs.trans hname
      simp only [onOk_ok, wp_run_bind]
      refine wp_down (fun _ _ => hkept) (fun hnone => absurd (hnone.symm.trans hrec) (by simp))
        fun hvalid r hr => ?_
      obtain rfl : rec = r := Option.some.inj (hrec.symm.trans hr)
      refine ⟨trivial, trivial, fun out => ?_, fun hns e => hfailed _ hns (Or.inl rfl)⟩
      have hrec' : ∀ r, (σ.halted rec).rec? args.name = some r → rec.finished = r :=
        fun r hr => Option.some.inj ((Ledger.rec?_halted (hname.trans hargs.symm)).symm.trans hr)
      refine wp_up (fun _ _ _ _ _ _ => trivial) trivial (fun _ _ => trivial) hlock
        (fun _ r hr hreusable => ?_) (fun e hcond => hfailed _ (fun hsure => hcond ?_) (Or.inr rfl))
        (fun _ τ hτ => ?_) fun hns => absurd (fun r hr => hrec' r hr ▸ (by rintro ⟨⟩)) hns
      · obtain hstate | ⟨hstate, -⟩ := hrec' r hr ▸ hreusable
        · exact absurd hstate (by rintro ⟨⟩)
        · exact absurd hstate (by rintro ⟨⟩)
      · exact ⟨hargs ▸ hsure, hargs ▸ hvalid, fun r hr => hrec' r hr ▸ rfl⟩
      · rw [hargs] at hτ
        exact ⟨hτ.tidies, .started hτ.want?_eq hτ.recorded⟩

theorem wp_restart_only {m : String} (hlock : σ.lock = none) :
    (restart m).run.wp (onlyFor P m) (fun _ τ => τ.lock = none) σ := by
  simp only [restart, call, wp_run_bind, wp_run_mk, wp_pure]
  cases validateName m with
  | error e => exact hlock
  | ok u =>
    simp only [onOk_ok, wp_run_bind, wp_run_lift]
    apply wp_read
    cases hrec : σ.rec? m with
    | none => exact hlock
    | some rec =>
      simp only [wp_run_bind]
      refine wp_loadRestartPlan (fun _ => hlock) fun args hargs => ?_
      obtain rfl : args.name = m := hargs.trans (Ledger.name_of_rec? hrec)
      simp only [onOk_ok, wp_run_bind]
      refine wp_down_only hlock fun r τ hτ => ?_
      cases r with
      | ok out => exact wp_up_only args hτ
      | error e => exact hτ

theorem wp_markWantedRunning_own (hvalid : validateName name = .ok ()) (htidy : σ.TidyAt name) :
    (markWantedRunning name).run.wp (freeEnv P)
      (fun _ τ => τ.TidyAt name ∧ τ.want? name ≠ some .stopped ∧
        τ.wrote .spawnAndRecord name = σ.wrote .spawnAndRecord name) σ := by
  simp only [markWantedRunning, call, wp_run_bind, wp_run_mk, wp_pure, hvalid,
    onOk_ok, wp_run_lift]
  apply wp_read
  cases hrec : σ.rec? name with
  | none => exact ⟨htidy, by simp [Ledger.want?, hrec], rfl⟩
  | some rec =>
    dsimp only
    split_ifs with hwant
    · exact ⟨htidy, by simp [Ledger.want?, hrec, hwant], rfl⟩
    · simp only [wp_run_bind, wp_run_lift]
      have hname : rec.name = name := Ledger.name_of_rec? hrec
      have hself : (σ.write { rec with desiredState := .running } .markWantedRunning).rec? name =
          some { rec with desiredState := .running } := by
        subst hname
        exact Ledger.rec?_write_self _ _ _
      have hstate : rec.state ≠ .starting := htidy.settled rec hrec
      refine wp_write trivial ⟨.of_rec? htidy.lock hself hstate hvalid, ?_, ?_⟩
      · simp [Ledger.want?, hself]
      · simp

theorem wp_markWantedRunning_only {m : String} (hlock : σ.lock = none) :
    (markWantedRunning m).run.wp (onlyFor P m) (fun _ τ => τ.lock = none) σ := by
  simp only [markWantedRunning, call, wp_run_bind, wp_run_mk, wp_pure]
  cases validateName m with
  | error e => exact hlock
  | ok u =>
    simp only [onOk_ok, wp_run_bind, wp_run_lift]
    apply wp_read
    cases hrec : σ.rec? m with
    | none => exact hlock
    | some rec =>
      dsimp only
      split_ifs with hwant
      · exact hlock
      · simp only [wp_run_bind, wp_run_lift]
        have hname : rec.name = m := Ledger.name_of_rec? hrec
        exact wp_write hname hlock

end User

/-! The invariant of the mark. -/

namespace Sys

variable {s : Sys} {turn : Cmd × List Choice} {name : String}

/-- The mark is there after a `down` of the user, and otherwise only for an instance that the
supervisor has stopped and that is not enabled. -/
structure Inv (s : Sys) (name : String) : Prop where
  tidy : s.world.ledger.TidyAt name
  downed : s.downed name = true → s.world.ledger.want? name = some .stopped
  wanted : s.downed name = false → s.world.ledger.want? name = some .stopped →
    s.stoppedByApply name = true
  disabled : s.stoppedByApply name = true → enabledIn s.file name = false
  last : s.lastUser name = some .down → s.downed name = true

theorem inv_init (file : InstancesFile) (name : String) : (init file).Inv name := by
  have hnone : (init file).world.ledger.rec? name = none := rfl
  have hwant : (init file).world.ledger.want? name = none := rfl
  refine ⟨⟨rfl, fun rec h => ?_, fun rec h => ?_⟩, (by rintro ⟨⟩), fun _ h => ?_, (by rintro ⟨⟩),
    (by rintro ⟨⟩)⟩
  · exact absurd (hnone.symm.trans h) (by simp)
  · exact absurd (hnone.symm.trans h) (by simp)
  · exact absurd (hwant.symm.trans h) (by simp)

theorem Inv.before (h : s.Inv name) : s.before.ledger.TidyAt name :=
  ⟨h.tidy.lock, h.tidy.settled, h.tidy.valid⟩

/-- What an operation does to the ledger, when all its answers satisfy `P`. -/
theorem after_of_wp (turn : Cmd × List Choice) {P : (a : Act) → a.Res → Prop}
    {W : Ledger → InstanceRecord → Writer → Prop} {N : Ledger → String → Prop} {Q : Ledger → Prop}
    (h : (turn.1.op s.file).wp (ledgerEnv P W N) (fun _ τ => Q τ) s.before.ledger)
    (hlog : ∀ e ∈ (s.after turn).log, P e.act e.answer) : Q (s.after turn).ledger :=
  ledger_run h hlog

theorem step_downed (hup : s.bringsUp turn name = false)
    (henable : turn.1.enablesName s.file name = false) :
    (s.step turn).downed name =
      (decide (turn.1.user? = some (.down, name)) || s.downed name) := by
  simp [step, hup, henable]

theorem lastUser_of_step (h : (s.step turn).lastUser name = some .down)
    (hdown : turn.1.user? ≠ some (.down, name)) : s.lastUser name = some .down := by
  simp only [step] at h
  split at h
  next verb n huser =>
    split_ifs at h with hn
    · obtain rfl := hn
      obtain rfl : verb = .down := Option.some.inj h
      exact absurd huser hdown
    · exact h
  next => exact h

/-- A command that leaves the record alone. -/
theorem Inv.of_kept (h : s.Inv name) (htidy : (s.after turn).ledger.TidyAt name)
    (hsame : SameAt name s.before.ledger (s.after turn).ledger)
    (henable : turn.1.enablesName s.file name = false)
    (hdown : turn.1.user? ≠ some (.down, name))
    (hfile : s.stoppedByApply name = true → enabledIn (turn.1.file s.file) name = false) :
    (s.step turn).Inv name := by
  have hup : s.bringsUp turn name = false := hsame.wrote .spawnAndRecord
  have hwant : (s.step turn).world.ledger.want? name = s.world.ledger.want? name := hsame.want?_eq
  have hwrote : (s.after turn).ledger.wrote .down name = false := hsame.wrote .down
  have hdowned : (s.step turn).downed name = s.downed name := by
    rw [step_downed hup henable]
    simp [hdown]
  have hstopped : (s.step turn).stoppedByApply name = s.stoppedByApply name := by
    simp [step, hup, henable, hdown, hwrote]
  refine ⟨htidy, fun hd => ?_, fun hd hw => ?_, fun hs => ?_, fun hl => ?_⟩
  · rw [hwant]
    exact h.downed (hdowned ▸ hd)
  · rw [hstopped]
    exact h.wanted (hdowned ▸ hd) (hwant ▸ hw)
  · exact hfile (hstopped ▸ hs)
  · rw [hdowned]
    exact h.last (lastUser_of_step hl hdown)

theorem inv_of_started (htidy : (s.after turn).ledger.TidyAt name)
    (hup : s.bringsUp turn name = true)
    (hwant : (s.after turn).ledger.want? name = some .running)
    (hlast : (s.step turn).lastUser name ≠ some .down) : (s.step turn).Inv name := by
  have hdowned : (s.step turn).downed name = false := by simp [step, hup]
  have hstopped : (s.step turn).stoppedByApply name = false := by simp [step, hup]
  refine ⟨htidy, fun hd => ?_, fun _ hw => ?_, fun hs => ?_, fun hl => absurd hl hlast⟩
  · exact absurd (hdowned.symm.trans hd) (by simp)
  · exact absurd (hwant.symm.trans hw) (by simp)
  · exact absurd (hstopped.symm.trans hs) (by simp)

/-- A convergence or a sweep that finds the instance wanted and leaves it so. -/
theorem Inv.of_wanted (h : s.Inv name) (hreconcile : turn.1.isReconcile = true)
    (htidy : (s.after turn).ledger.TidyAt name)
    (hbefore : s.world.ledger.want? name ≠ some .stopped)
    (hafter : (s.after turn).ledger.want? name ≠ some .stopped) : (s.step turn).Inv name := by
  have hnot : s.downed name = false := Bool.eq_false_iff.mpr fun hd => hbefore (h.downed hd)
  have huser : turn.1.user? = none := by
    obtain ⟨cmd, cs⟩ := turn
    cases cmd <;> first | rfl | exact absurd hreconcile (by rintro ⟨⟩)
  have hfile : turn.1.file s.file = s.file := by
    obtain ⟨cmd, cs⟩ := turn
    cases cmd <;> first | rfl | exact absurd hreconcile (by rintro ⟨⟩)
  have hdowned : (s.step turn).downed name = false := by simp [step, huser, hnot]
  refine ⟨htidy, fun hd => ?_, fun _ hw => absurd hw hafter, fun hs => ?_, fun hl => ?_⟩
  · exact absurd (hdowned.symm.trans hd) (by simp)
  · show enabledIn (turn.1.file s.file) name = false
    rw [hfile]
    by_contra hen
    rw [Bool.not_eq_false] at hen
    have hold : s.stoppedByApply name = true := by
      simp only [step, hen] at hs
      split_ifs at hs
      simpa using hs
    exact absurd (hen.symm.trans (h.disabled hold)) (by simp)
  · have hold := h.last (lastUser_of_step hl (by simp [huser]))
    exact absurd (hnot.symm.trans hold) (by simp)

theorem sure_callOk (name : String) : Sure (CallOk name) name := fun _ _ h => h

/-- Where no new record is written, the calls are all those in the log. -/
theorem CallsSucceed.log (h : s.CallsSucceed turn name) (hup : s.bringsUp turn name = false) :
    ∀ e ∈ (s.after turn).log, CallOk name e.act e.answer := by
  have hnone : ∀ e ∈ (s.after turn).log, (!e.isWrite .spawnAndRecord name) = true := by
    simpa [bringsUp, World.ledger] using hup
  rwa [CallsSucceed, List.takeWhile_eq_self_iff.mpr hnone] at h

/-- A command for another instance. -/
theorem Inv.of_other (h : s.Inv name) {m : String} (hm : m ≠ name)
    (hop : (turn.1.op s.file).wp (onlyFor (fun _ _ => True) m) (fun _ τ => τ.lock = none)
      s.before.ledger)
    (henable : turn.1.enablesName s.file name = false)
    (hdown : turn.1.user? ≠ some (.down, name))
    (hfile : enabledIn (turn.1.file s.file) name = enabledIn s.file name) :
    (s.step turn).Inv name := by
  obtain ⟨hlock, hsame⟩ := after_of_wp turn (wp_other hm hop) fun _ _ => trivial
  exact h.of_kept (h.before.of_sameAt hsame hlock) hsame henable hdown
    fun hs => hfile.trans (h.disabled hs)

theorem inv_step_up {args : UpArgs} {cs : List Choice} (h : s.Inv name) :
    (s.step (.up args, cs)).Inv name := by
  by_cases hname : args.name = name
  · subst hname
    have hop := wp_up_own (P := fun _ _ => True) args h.before
    obtain heq | hstarted := after_of_wp (.up args, cs) ((wp_map _ _ _ _).mpr hop)
      fun _ _ => trivial
    · exact h.of_kept (heq ▸ h.before) (heq ▸ SameAt.refl _ _) rfl (by rintro ⟨⟩) h.disabled
    · refine inv_of_started (hstarted.tidies.tidy h.before) hstarted.recorded hstarted.want?_eq ?_
      simp [step, Cmd.user?]
  · exact h.of_other hname ((wp_map _ _ _ _).mpr (wp_up_only args h.before.lock)) rfl
      (by rintro ⟨⟩) rfl

theorem inv_step_down {n : String} {cs : List Choice} (h : s.Inv name)
    (hadm : s.Admissible (.down n, cs)) : (s.step (.down n, cs)).Inv name := by
  by_cases hname : n = name
  · subst hname
    obtain ⟨rec, hrec⟩ := Option.ne_none_iff_exists'.mp hadm
    have hop : (down n).run.wp (freeEnv fun _ _ => True)
        (fun _ τ => τ = s.before.ledger.marked rec ∨ τ = s.before.ledger.halted rec)
        s.before.ledger := by
      refine wp_down (fun e he => absurd (he.symm.trans (h.before.valid rec hrec)) (by simp))
        (fun hnone => absurd (hnone.symm.trans hrec) (by simp)) fun _ r hr => ?_
      obtain rfl : rec = r := Option.some.inj (hrec.symm.trans hr)
      exact ⟨trivial, trivial, fun _ => Or.inr rfl, fun _ _ => Or.inl rfl⟩
    have hafter := after_of_wp (.down n, cs) ((wp_map _ _ _ _).mpr hop) fun _ _ => trivial
    obtain ⟨htidies, hwant, -, hup, -⟩ := stopped_of_down h.before.lock hrec hafter
    have htidy := htidies.tidy h.before
    have hup : s.bringsUp (.down n, cs) n = false := hup
    have hdowned : (s.step (.down n, cs)).downed n = true := by
      rw [step_downed hup rfl]
      simp [Cmd.user?]
    refine ⟨htidy, fun _ => hwant, fun hd => ?_, fun hs => ?_, fun _ => hdowned⟩
    · exact absurd (hdowned.symm.trans hd) (by simp)
    · simp [step, Cmd.user?] at hs
  · refine h.of_other hname ((wp_map _ _ _ _).mpr ?_) rfl ?_ rfl
    · exact wp_down_only h.before.lock fun _ _ hτ => hτ
    · simp [Cmd.user?, hname]

/-- The mark stays, for the reason it was there. -/
theorem Inv.of_stopped (h : s.Inv name) (htidy : (s.after turn).ledger.TidyAt name)
    (hup : s.bringsUp turn name = false) (henable : turn.1.enablesName s.file name = false)
    (hdown : turn.1.user? ≠ some (.down, name))
    (hafter : (s.after turn).ledger.want? name = some .stopped)
    (hstop : s.downed name = false → (s.step turn).stoppedByApply name = true)
    (hfile : (s.step turn).stoppedByApply name = true →
      enabledIn (turn.1.file s.file) name = false) : (s.step turn).Inv name := by
  have hdowned : (s.step turn).downed name = s.downed name := by
    rw [step_downed hup henable]
    simp [hdown]
  refine ⟨htidy, fun _ => hafter, fun hd _ => hstop (hdowned ▸ hd), hfile, fun hl => ?_⟩
  rw [hdowned]
  exact h.last (lastUser_of_step hl hdown)

theorem inv_step_restart {n : String} {cs : List Choice} (h : s.Inv name)
    (hadm : s.Admissible (.restart n, cs)) : (s.step (.restart n, cs)).Inv name := by
  by_cases hname : n = name
  · subst hname
    have hmoved : ∃ P : (a : Act) → a.Res → Prop,
        (s.world.ledger.want? n = some .running → s.bringsUp (.restart n, cs) n = false →
          Sure P n) ∧
        Tidies n s.before.ledger (s.after (.restart n, cs)).ledger ∧
        Moved P n s.before.ledger (s.after (.restart n, cs)).ledger := by
      by_cases hrun : s.world.ledger.want? n = some .running ∧
          s.bringsUp (.restart n, cs) n = false
      · exact ⟨CallOk n, fun _ _ => sure_callOk n, after_of_wp (.restart n, cs)
          ((wp_map _ _ _ _).mpr (wp_restart_own h.before.lock)) ((hadm hrun.1).log hrun.2)⟩
      · exact ⟨fun _ _ => True, fun hr hup => absurd ⟨hr, hup⟩ hrun, after_of_wp (.restart n, cs)
          ((wp_map _ _ _ _).mpr (wp_restart_own h.before.lock)) fun _ _ => trivial⟩
    obtain ⟨P, hsure, htidies, hmoved⟩ := hmoved
    have htidy := htidies.tidy h.before
    cases hmoved with
    | kept hsame => exact h.of_kept htidy hsame rfl (by rintro ⟨⟩) h.disabled
    | started hwant hup =>
      refine inv_of_started htidy hup hwant ?_
      simp [step, Cmd.user?]
    | failed hns hexists hstopped hup =>
      have hup : s.bringsUp (.restart n, cs) n = false := hup
      have hbefore : s.world.ledger.want? n = some .stopped := by
        cases hwant : s.world.ledger.want? n with
        | none => exact absurd hwant hexists
        | some d =>
          cases d with
          | running => exact absurd (hsure hwant hup) hns
          | stopped => rfl
      have hstop : (s.step (.restart n, cs)).stoppedByApply n = s.stoppedByApply n := by
        simp [step, hup, Cmd.enablesName, Cmd.user?, Cmd.isReconcile]
      refine h.of_stopped htidy hup rfl (by rintro ⟨⟩) hstopped (fun hd => ?_) fun hs => ?_
      · rw [hstop]
        exact h.wanted hd hbefore
      · exact h.disabled (hstop ▸ hs)
  · exact h.of_other hname ((wp_map _ _ _ _).mpr (wp_restart_only h.before.lock)) rfl
      (by rintro ⟨⟩) rfl

theorem enabledIn_setEnabled_of_ne {file : InstancesFile} {n : String} (hn : n ≠ name)
    (enabled : Bool) : enabledIn (setEnabled file n enabled) name = enabledIn file name := by
  have hlookup : (setEnabled file n enabled).lookup name = file.lookup name := by
    cases h : file.lookup name with
    | none =>
      refine List.find?_eq_none.mpr fun entry hentry => ?_
      obtain ⟨entry', hentry', rfl⟩ := List.mem_map.mp hentry
      have hne := List.find?_eq_none.mp h entry' hentry'
      split_ifs <;> exact hne
    | some entry =>
      obtain ⟨hmem, hkey⟩ := Table.lookup_eq_some_iff.mp h
      refine Table.lookup_eq_some_iff.mpr ⟨List.mem_map.mpr ⟨entry, hmem, ?_⟩, hkey⟩
      have hne : entry.1 ≠ n := fun he => hn (he.symm.trans hkey)
      simp [hne]
  simp only [enabledIn, hlookup]

theorem inv_step_enable {n : String} {cs : List Choice} (h : s.Inv name) :
    (s.step (.enable n, cs)).Inv name := by
  by_cases henables : enables s.file n = true
  · by_cases hname : n = name
    · subst hname
      have hvalid : validateName n = .ok () := by
        simp only [enables, Bool.and_eq_true, decide_eq_true_eq] at henables
        exact henables.1
      have hop : ((Cmd.enable n).op s.file).wp (freeEnv fun _ _ => True)
          (fun _ τ => τ.TidyAt n ∧ τ.want? n ≠ some .stopped) s.before.ledger := by
        simp only [Cmd.op, henables, if_true, wp_map]
        refine wp_mono (wp_markWantedRunning_own hvalid h.before) fun _ τ hτ => ?_
        exact ⟨hτ.1, hτ.2.1⟩
      obtain ⟨htidy, hwant⟩ := after_of_wp (.enable n, cs) hop fun _ _ => trivial
      have henable : (Cmd.enable n).enablesName s.file n = true := by
        simp [Cmd.enablesName, henables]
      have hdowned : (s.step (.enable n, cs)).downed n = false := by simp [step, henable]
      have hstopped : (s.step (.enable n, cs)).stoppedByApply n = false := by simp [step, henable]
      refine ⟨htidy, fun hd => ?_, fun _ hw => absurd hw hwant, fun hs => ?_, fun hl => ?_⟩
      · exact absurd (hdowned.symm.trans hd) (by simp)
      · exact absurd (hstopped.symm.trans hs) (by simp)
      · simp [step, Cmd.user?] at hl
    · refine h.of_other hname ?_ (by simp [Cmd.enablesName, hname]) (by rintro ⟨⟩) ?_
      · simp only [Cmd.op, henables, if_true, wp_map]
        exact wp_markWantedRunning_only h.before.lock
      · simp only [Cmd.file, henables, if_true]
        exact enabledIn_setEnabled_of_ne hname true
  · rw [Bool.not_eq_true] at henables
    have hafter : s.after (.enable n, cs) = s.before := by
      simp only [after, Cmd.op, henables]
      rfl
    refine h.of_kept (hafter ▸ h.before) (hafter ▸ SameAt.refl _ _) ?_ (by rintro ⟨⟩) ?_
    · simp [Cmd.enablesName, henables]
    · simpa [Cmd.file, henables] using h.disabled

theorem inv_step_edit {file : InstancesFile} {cs : List Choice} (h : s.Inv name)
    (hadm : s.Admissible (.edit file, cs)) : (s.step (.edit file, cs)).Inv name :=
  h.of_kept h.before (SameAt.refl _ _) rfl (by rintro ⟨⟩) (hadm name)

theorem ran_after {P : (a : Act) → a.Res → Prop} {scope : Option String} {cs : List Choice}
    (h : s.Inv name) (hlog : ∀ e ∈ (s.after (.apply scope, cs)).log, P e.act e.answer) :
    (s.after (.apply scope, cs)).ledger.TidyAt name ∧
      Ran P s.file name s.before.ledger (s.after (.apply scope, cs)).ledger := by
  have hop : (apply s.file scope).run.wp (freeEnv P)
      (fun _ τ => Tidies name s.before.ledger τ ∧ Ran P s.file name s.before.ledger τ)
      s.before.ledger :=
    wp_apply ⟨fun _ _ _ _ => trivial, fun _ _ _ => trivial⟩
      ⟨fun _ _ _ _ _ _ => trivial, fun _ _ _ _ _ _ => trivial, fun _ _ => trivial,
        fun _ _ => trivial⟩ (fun _ _ => trivial) h.before.lock
  obtain ⟨htidies, hran⟩ := after_of_wp (.apply scope, cs) ((wp_map _ _ _ _).mpr hop) hlog
  exact ⟨htidies.tidy h.before, hran⟩

theorem inv_step_apply {scope : Option String} {cs : List Choice} (h : s.Inv name)
    (hadm : s.Admissible (.apply scope, cs)) : (s.step (.apply scope, cs)).Inv name := by
  have hran : ∃ P : (a : Act) → a.Res → Prop,
      (enabledIn s.file name = true → s.world.ledger.want? name = some .running →
        s.bringsUp (.apply scope, cs) name = false → Sure P name) ∧
      (s.after (.apply scope, cs)).ledger.TidyAt name ∧
      Ran P s.file name s.before.ledger (s.after (.apply scope, cs)).ledger := by
    by_cases hrun : enabledIn s.file name = true ∧ s.world.ledger.want? name = some .running ∧
        s.bringsUp (.apply scope, cs) name = false
    · exact ⟨CallOk name, fun _ _ _ => sure_callOk name,
        ran_after h ((hadm name hrun.1 hrun.2.1).log hrun.2.2)⟩
    · exact ⟨fun _ _ => True, fun he hw hup => absurd ⟨he, hw, hup⟩ hrun,
        ran_after h fun _ _ => trivial⟩
  obtain ⟨P, hsure, htidy, hran⟩ := hran
  cases hran with
  | kept hsame => exact h.of_kept htidy hsame rfl (by rintro ⟨⟩) h.disabled
  | started rec henabled hwant hrec hup hrecorded =>
    refine h.of_wanted rfl htidy hwant ?_
    simp [Ledger.want?, hrec, hup.wanted]
  | failed henabled hwant hns hstopped hrecorded hspawned =>
    exact absurd (hsure henabled hwant hrecorded) hns
  | stopped hdisabled hexists hstopped hdown hrecorded hspawned =>
    have hup : s.bringsUp (.apply scope, cs) name = false := hrecorded
    refine h.of_stopped htidy hup rfl (by rintro ⟨⟩) hstopped (fun hd => ?_) fun _ => hdisabled
    simp [step, hup, Cmd.enablesName, Cmd.user?, Cmd.isReconcile, hdisabled, hd, hdown]

theorem swept_after {scope : Option String} {b : Backoff} {now : ℤ} {cs : List Choice}
    (h : s.Inv name) (hadm : s.Admissible (.sweep scope b now, cs)) :
    (s.after (.sweep scope b now, cs)).ledger.TidyAt name ∧
      Swept (fun _ _ => True) s.file b now name s.before.ledger
        (s.after (.sweep scope b now, cs)).ledger := by
  have hop : (sweep s.file scope b now).run.wp
      (sweepEnv (fun _ _ => True) b now name s.before.ledger)
      (fun _ τ => Tidies name s.before.ledger τ ∧
        Swept (fun _ _ => True) s.file b now name s.before.ledger τ)
      s.before.ledger := wp_sweep h.before.lock hadm
  obtain ⟨htidies, hswept⟩ := after_of_wp (.sweep scope b now, cs)
    ((wp_map _ _ _ _).mpr hop) fun _ _ => trivial
  exact ⟨htidies.tidy h.before, hswept⟩

theorem inv_step_sweep {scope : Option String} {b : Backoff} {now : ℤ} {cs : List Choice}
    (h : s.Inv name) (hadm : s.Admissible (.sweep scope b now, cs)) :
    (s.step (.sweep scope b now, cs)).Inv name := by
  obtain ⟨htidy, hswept⟩ := swept_after h hadm
  cases hswept with
  | kept hsame => exact h.of_kept htidy hsame rfl (by rintro ⟨⟩) h.disabled
  | reset rec hrec hwant hseen hτ hspawned hrecorded =>
    have hbefore : s.world.ledger.rec? name = some rec := hrec
    have hcleared : rec.cleared.desiredState = .running := hwant
    refine h.of_wanted rfl htidy ?_ ?_
    · simp [Ledger.want?, hbefore, hwant]
    · simp [Ledger.want?, hτ, hcleared]
  | booked rec r henabled hrec hwant hgate hr hbooked hwrote =>
    have hbefore : s.world.ledger.rec? name = some rec := hrec
    refine h.of_wanted rfl htidy ?_ ?_
    · simp [Ledger.want?, hbefore, hwant]
    · simp [Ledger.want?, hr, hbooked.wanted]

theorem inv_step (h : s.Inv name) (hadm : s.Admissible turn) : (s.step turn).Inv name := by
  obtain ⟨cmd, cs⟩ := turn
  cases cmd with
  | up args => exact inv_step_up h
  | down n => exact inv_step_down h hadm
  | restart n => exact inv_step_restart h hadm
  | enable n => exact inv_step_enable h
  | edit file => exact inv_step_edit h hadm
  | apply scope => exact inv_step_apply h hadm
  | sweep scope b now => exact inv_step_sweep h hadm

/-- A convergence or a sweep starts nothing that the user has stopped. -/
def StartsWanted (s : Sys) (turn : Cmd × List Choice) : Prop :=
  turn.1.isReconcile = true → ∀ name, s.starts turn name = true → s.lastUser name ≠ some .down

/-- The plan skips an enabled instance only if the user has run `down` on it since it was last
brought up or enabled. -/
def PinnedByDown (s : Sys) : Prop :=
  ∀ name scope cs steps reason, s.downed name = false → enabledIn s.file name = true →
    ((scopedPlan s.file scope).run.run (exec 0) cs s.world).1 = .ok steps →
    Step.skipped name reason ∉ steps

theorem startsWanted_of_inv (h : ∀ name, s.Inv name) (hadm : s.Admissible turn) :
    s.StartsWanted turn := by
  intro hreconcile name hstarts hlast
  have hstopped : s.before.ledger.want? name = some .stopped :=
    (h name).downed ((h name).last hlast)
  have hspawned : (s.after turn).ledger.spawned name ≠ s.before.ledger.spawned name := by
    intro heq
    exact absurd (hstarts.symm.trans heq) (by rintro ⟨⟩)
  obtain ⟨cmd, cs⟩ := turn
  cases cmd with
  | apply scope =>
    obtain ⟨-, hran⟩ := ran_after (P := fun _ _ => True) (h name) fun _ _ => trivial
    cases hran with
    | kept hsame => exact hspawned hsame.spawned
    | started _ _ hwant _ _ _ => exact hwant hstopped
    | failed _ hwant _ _ _ _ => exact absurd (hwant.symm.trans hstopped) (by simp)
    | stopped _ _ _ _ _ heq => exact hspawned heq
  | sweep scope b now =>
    obtain ⟨-, hswept⟩ := swept_after (h name) hadm
    have hrunning : ∀ rec, s.before.ledger.rec? name = some rec →
        rec.desiredState ≠ .running := by
      intro rec hrec hwant
      simp [Ledger.want?, hrec, hwant] at hstopped
    cases hswept with
    | kept hsame => exact hspawned hsame.spawned
    | reset rec hrec hwant _ _ _ _ => exact hrunning rec hrec hwant
    | booked rec r _ hrec hwant _ _ _ _ => exact hrunning rec hrec hwant
  | _ => exact absurd hreconcile (by rintro ⟨⟩)

theorem pinnedByDown_of_inv (h : ∀ name, s.Inv name) : s.PinnedByDown := by
  intro name scope cs steps reason hdowned henabled hplan hskipped
  have hop : (scopedPlan s.file scope).run.wp (freeEnv fun _ _ => True)
      (fun r _ => ∀ steps, r = .ok steps → Planned (fun _ _ => True) s.file s.world.ledger steps)
      s.world.ledger :=
    wp_scopedPlan (by rintro _ _ ⟨⟩) fun steps hplanned steps' heq => Except.ok.inj heq ▸ hplanned
  have hplanned := ledger_run hop (fun _ _ => trivial) steps hplan
  cases hplanned.step _ hskipped with
  | skipped _ _ hstopped =>
    have hby := (h name).wanted hdowned (hstopped henabled)
    exact absurd (henabled.symm.trans ((h name).disabled hby)) (by simp)

end Sys

/-- The supervisor respects the stop of the user and nothing else pins an instance, in every run in
which each command is admissible. -/
theorem only_down_pins_instance (file : InstancesFile) (turns : List (Cmd × List Choice))
    (hturns : Run.AllOk Sys.step Sys.Admissible (Sys.init file) turns) :
    (∀ before turn after, turns = before ++ turn :: after →
      (Run.run Sys.step (Sys.init file) before).StartsWanted turn) ∧
    ∀ before after, turns = before ++ after →
      (Run.run Sys.step (Sys.init file) before).PinnedByDown := by
  have hinv : ∀ before, Run.AllOk Sys.step Sys.Admissible (Sys.init file) before →
      ∀ name, (Run.run Sys.step (Sys.init file) before).Inv name := by
    intro before hbefore name
    have hstep : ∀ s turn, Sys.Inv s name → s.Admissible turn → (s.step turn).Inv name :=
      fun _ _ => Sys.inv_step
    exact Run.invariant hstep (Sys.inv_init file name) hbefore
  constructor
  · rintro before turn after rfl
    obtain ⟨hbefore, hturn, -⟩ := (Run.allOk_append _ _ _ _ _).mp hturns
    exact Sys.startsWanted_of_inv (hinv before hbefore) hturn
  · rintro before after rfl
    exact Sys.pinnedByDown_of_inv (hinv before ((Run.allOk_append _ _ _ _ _).mp hturns).1)

def declaredA : InstancesFile := ⟨[("a", {})], List.nodup_singleton "a"⟩

theorem want?_ne_running {w : World}
    (h : w.records.rows.all (fun rec => rec.desiredState = .stopped) = true) (name : String) :
    w.ledger.want? name ≠ some .running := by
  intro hwant
  obtain ⟨rec, hrec, hrunning⟩ := Option.map_eq_some_iff.mp hwant
  obtain ⟨hmem, -⟩ := Table.lookup_eq_some_iff.mp hrec
  have hstopped : rec.desiredState = .stopped := by simpa using List.all_eq_true.mp h rec hmem
  exact absurd (hrunning.symm.trans hstopped) (by simp)

theorem admissible_declaredA : Run.AllOk Sys.step Sys.Admissible (Sys.init declaredA)
    [(.apply none, []), (.down "a", []), (.apply none, [])] := by
  refine ⟨fun name _ hwant => ?_, ?_, fun name _ hwant => ?_, trivial⟩
  · exact absurd hwant (want?_ne_running rfl name)
  · show ((Sys.init declaredA).step (.apply none, [])).world.ledger.rec? "a" ≠ none
    decide +kernel
  · exact absurd hwant (want?_ne_running (by decide +kernel) name)

theorem only_down_pins_downed_instance :
    (Run.run Sys.step (Sys.init declaredA) [(.apply none, []), (.down "a", [])]).lastUser "a" =
      some .down ∧
    (Run.run Sys.step (Sys.init declaredA)
      [(.apply none, []), (.down "a", [])]).StartsWanted (.apply none, []) :=
  ⟨rfl, (only_down_pins_instance declaredA _ admissible_declaredA).1
    [(.apply none, []), (.down "a", [])] (.apply none, []) [] rfl⟩

/-- The process has exited, and its port is in use by somebody else. -/
def portTaken : List Choice := { gone := [1] } :: List.replicate 20 { free := false }

/-- A restart by the supervisor that fails leaves the mark of a `down` that nobody has run. -/
theorem failed_restart_pins_instance :
    let s := Run.run Sys.step (Sys.init declaredA) [(.apply none, []), (.apply none, portTaken)]
    s.lastUser "a" = none ∧ s.downed "a" = false ∧ enabledIn s.file "a" = true ∧
      s.world.live = [] ∧ ¬ s.PinnedByDown := by
  refine ⟨rfl, by decide +kernel, by decide +kernel, by decide +kernel, fun h => ?_⟩
  refine h "a" none [] [.skipped "a" downMark] downMark ?_ ?_ ?_ List.mem_cons_self
  · decide +kernel
  · decide +kernel
  · decide +kernel

end CrabMate.Ctl
