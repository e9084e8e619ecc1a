import CrabMate.Ctl.Ledger

/-! What the operations do to the ledger. -/
namespace CrabMate.Ctl
open Prog

open Prog (wp_mono)

variable {P : (a : Act) → a.Res → Prop} {W : Ledger → InstanceRecord → Writer → Prop}
variable {N : Ledger → String → Prop} {σ : Ledger} {name : String}

/-- A call that `down` and `up` make for `name`, up to the new record, succeeds. -/
def CallOk (name : String) : (a : Act) → a.Res → Prop
  | .verify rec, r => rec.name = name → r = .match
  | .terminate n _ _ _, r => n = name → ∃ forced, r = .ok forced
  | .lock n, r => n = name → r = true
  | .resolveWorkspace n _, r => n = name → ∃ workspace, r = .ok workspace
  | .isFree n _, r => n = name → r = true
  | .firstFree n, r => n = name → ∃ port, r = .ok port
  | .preflight n _ _, r => n = name → r = .ok ()
  | .spawn n _, r => n = name → ∃ spawned, r = .ok spawned
  | _, _ => True

def Sure (P : (a : Act) → a.Res → Prop) (name : String) : Prop := ∀ a r, P a r → CallOk name a r

/-! `down`. -/

namespace InstanceRecord

def wantStopped (rec : InstanceRecord) : InstanceRecord := { rec with desiredState := .stopped }

def finished (rec : InstanceRecord) : InstanceRecord :=
  { rec with state := .stopped, desiredState := .stopped, pid := none, pgid := none,
             restartAttempts := 0, nextRestartAt := none }

@[simp] theorem name_wantStopped (rec : InstanceRecord) : rec.wantStopped.name = rec.name := rfl

@[simp] theorem name_finished (rec : InstanceRecord) : rec.finished.name = rec.name := rfl

end InstanceRecord

theorem wp_finishStopped {rec : InstanceRecord} {Q : Unit → Ledger → Prop}
    (hW : W σ rec.finished .finishStopped) (h : Q () (σ.write rec.finished .finishStopped)) :
    (finishStopped rec.wantStopped).wp (ledgerEnv P W N) Q σ := wp_write hW h

theorem wp_downRecord {rec : InstanceRecord} {Q : Except CtlError DownOutcome → Ledger → Prop}
    (hfinish : W σ rec.finished .finishStopped)
    (hok : ∀ out, Q (.ok out) (σ.write rec.finished .finishStopped))
    (herr : ¬ Sure P rec.name → ∀ e, Q (.error e) σ) :
    (downRecord rec.wantStopped).run.wp (ledgerEnv P W N) Q σ := by
  have hstop : ∀ out : DownOutcome, (finishStopped rec.wantStopped).wp (ledgerEnv P W N)
      (fun _ => Q (.ok out)) σ := fun out => wp_finishStopped hfinish (hok out)
  simp only [downRecord, livePid, wp_run_bind, wp_run_lift]
  cases hpid : rec.wantStopped.pid with
  | none => exact hstop _
  | some pid =>
    simp only [wp_bind]
    refine wp_act fun alive _ _ => ⟨trivial, ?_⟩
    cases alive with
    | false => exact hstop _
    | true =>
      simp only [if_true, wp_pure, onOk_ok, wp_run_bind, wp_run_lift]
      refine wp_act fun ident _ hident => ⟨trivial, ?_⟩
      by_cases hmatch : ident = .match
      · simp only [hmatch, ne_eq, not_true_eq_false, if_false, call, wp_run_bind,
          wp_run_mk]
        refine wp_act fun killed _ hkilled => ⟨trivial, ?_⟩
        cases killed with
        | ok forced => exact hstop _
        | error e =>
          refine herr (fun hsure => ?_) e
          obtain ⟨forced, hforced⟩ := hsure _ _ hkilled rfl
          exact absurd hforced (by simp)
      · simp only [ne_eq, hmatch, not_false_eq_true, if_true]
        exact herr (fun hsure => hmatch (hsure _ _ hident rfl)) _

theorem wp_down {Q : Except CtlError DownOutcome → Ledger → Prop}
    (hinvalid : ∀ e, validateName name = .error e → Q (.error e) σ)
    (hnone : σ.rec? name = none → Q (.ok ⟨name, true, false⟩) σ)
    (hsome : validateName name = .ok () → ∀ rec, σ.rec? name = some rec →
      W σ rec.wantStopped .down ∧
      W (σ.write rec.wantStopped .down) rec.finished .finishStopped ∧
      (∀ out, Q (.ok out) ((σ.write rec.wantStopped .down).write rec.finished .finishStopped)) ∧
      (¬ Sure P name → ∀ e, Q (.error e) (σ.write rec.wantStopped .down))) :
    (down name).run.wp (ledgerEnv P W N) Q σ := by
  simp only [down, call, wp_run_bind, wp_run_mk, wp_pure]
  cases hname : validateName name with
  | error e => exact hinvalid e hname
  | ok u =>
    simp only [onOk_ok, wp_run_bind, wp_run_lift]
    apply wp_read
    cases h : σ.rec? name with
    | none => exact hnone h
    | some rec =>
      obtain ⟨hdown, hfinish, hok, herr⟩ := hsome hname rec h
      have hrec : rec.name = name := Ledger.name_of_rec? h
      simp only [wp_run_bind, wp_run_lift]
      exact wp_write hdown (wp_downRecord hfinish hok fun hns => herr (hrec ▸ hns))

/-! `up`. -/

/-- The records that `up` writes. -/
structure UpRecord (name : String) (rec : InstanceRecord) : Prop where
  name_eq : rec.name = name
  wanted : rec.desiredState = .running
  attempts : rec.restartAttempts = 0
  next : rec.nextRestartAt = none

def Writer.isUp (writer : Writer) : Bool :=
  writer = .spawnAndRecord || writer = .finalizeReady || writer = .markReadinessTimeout ||
    writer = .upOnce

def Ledger.Settled (σ : Ledger) (name : String) : Prop :=
  ∀ rec, σ.rec? name = some rec → rec.state ≠ .starting

/-- Between operations nobody holds the lock, and no operation on `name` is under way. -/
structure Ledger.TidyAt (σ : Ledger) (name : String) : Prop where
  lock : σ.lock = none
  settled : σ.Settled name
  valid : ∀ rec, σ.rec? name = some rec → validateName name = .ok ()

/-- No record of the name has a pid. -/
def Ledger.Idle (σ : Ledger) (name : String) : Prop :=
  ∀ rec, σ.rec? name = some rec → rec.pid = none

/-- The record of the name was last written by a start. -/
def Ledger.LastUp (σ : Ledger) (name : String) : Prop :=
  ∃ writer, σ.last name = some writer ∧ writer.isUp = true

/-- `τ` comes from `σ` by a start of `name`. -/
structure Started (name : String) (σ τ : Ledger) : Prop where
  valid : validateName name = .ok ()
  record : ∃ rec, τ.rec? name = some rec ∧ UpRecord name rec ∧ rec.state ≠ .starting
  others : ∀ n, n ≠ name → τ.rec? n = σ.rec? n
  lock : τ.lock = none
  recorded : τ.wrote .spawnAndRecord name = true
  spawned : τ.spawned name = true
  wrote : ∀ writer n, writer.isUp = false → τ.wrote writer n = σ.wrote writer n
  last : τ.LastUp name

/-- An instance that is found ready has been finished, unless a start is under way. -/
def Reusable (rec : InstanceRecord) : Prop :=
  rec.state = .starting ∨ rec.state = .ready ∧ rec.desiredState = .running

theorem observed_ready {rec : InstanceRecord} {facts : Facts}
    (h : observedState rec facts = .ready) : Reusable rec := by
  unfold observedState at h
  cases hs : rec.state <;> cases hp : facts.pidAlive <;> simp [hs, hp] at h
  · exact Or.inl hs
  · split_ifs at h with h₁ h₂
    refine Or.inr ⟨hs, ?_⟩
    cases hd : rec.desiredState with
    | running => rfl
    | stopped => exact absurd hd h₂

theorem wp_existingIfReady {Q : Option InstanceRecord → Ledger → Prop} (hnone : Q none σ)
    (hready : ∀ rec, σ.rec? name = some rec → Reusable rec → Q (some rec) σ) :
    (existingIfReady name).wp (ledgerEnv P W N) Q σ := by
  rw [existingIfReady, wp_bind]
  apply wp_read
  cases h : σ.rec? name with
  | none => exact hnone
  | some rec =>
    simp only [wp_bind]
    refine wp_observe fun facts _ _ => ?_
    by_cases hobs : (probeOf rec facts).observed = .ready
    · rw [if_pos hobs]
      exact hready rec h (observed_ready hobs)
    · rw [if_neg hobs]
      exact hnone

theorem wp_ensureNotLive {Q : Except CtlError Unit → Ledger → Prop} (hok : Q (.ok ()) σ)
    (hlive : ∀ e, ¬ σ.Idle name → Q (.error e) σ) :
    (ensureNotLive name).run.wp (ledgerEnv P W N) Q σ := by
  simp only [ensureNotLive, wp_run_bind, wp_run_lift]
  apply wp_read
  cases h : σ.rec? name with
  | none => exact hok
  | some rec =>
    simp only [onOk_ok, wp_run_bind, wp_run_lift]
    refine wp_observe fun facts hfacts _ => ?_
    cases hreason : liveProcessReason rec (probeOf rec facts) with
    | none => exact hok
    | some reason =>
      refine hlive _ fun hidle => ?_
      have hdead : facts.pidAlive = false := hfacts (hidle rec h)
      simp [liveProcessReason, Probe.processIsLiveAndOurs, probeOf, hdead] at hreason

theorem wp_withLock {α : Type} {body : OpM α} {Q : Except CtlError α → Ledger → Prop}
    (hbusy : ¬ Sure P name → Q (.error lockBusy) σ)
    (hbody : body.run.wp (ledgerEnv P W N) (fun r τ => Q r (τ.setLock none))
      (σ.setLock (some 0))) :
    (withLock name body).run.wp (ledgerEnv P W N) Q σ := by
  simp only [withLock, wp_run_bind, wp_run_lift]
  refine wp_act fun free _ hfree => ⟨trivial, ?_⟩
  cases free with
  | false => exact hbusy fun hsure => Bool.false_ne_true (hsure _ _ hfree rfl)
  | true =>
    simp only [onOk_ok, if_true, wp_run_bind, wp_attempt]
    refine wp_mono hbody fun r τ hr => ?_
    simp only [onOk_ok, wp_run_bind, wp_run_lift]
    exact wp_act fun _ _ _ => ⟨trivial, hr⟩

theorem upRecord_new (args : UpArgs) (workspace : Option String) (port pid : ℕ)
    (envKeys : List String) : UpRecord args.name (newRecord args workspace port pid envKeys) :=
  ⟨rfl, rfl, rfl, rfl⟩

theorem started_write {r₀ r : InstanceRecord} {writer : Writer}
    (hvalid : validateName name = .ok ()) (hlock : σ.lock = none)
    (hr₀ : UpRecord name r₀) (hr : UpRecord name r) (hstate : r.state ≠ .starting)
    (hwriter : writer.isUp = true) :
    Started name σ (((σ.spawn name).write r₀ .spawnAndRecord).write r writer) := by
  obtain rfl := hr.name_eq
  refine ⟨hvalid, ⟨r, Ledger.rec?_write_self _ _ _, hr, hstate⟩, fun n hn => ?_, hlock, ?_, ?_, ?_,
    writer, by simp, hwriter⟩
  · rw [Ledger.rec?_write_of_ne _ _ (Ne.symm hn),
      Ledger.rec?_write_of_ne _ _ (hr₀.name_eq ▸ Ne.symm hn), Ledger.rec?_spawn]
  · simp [hr₀.name_eq]
  · simp
  · intro w n hw
    have hne : ∀ u : Writer, u.isUp = true → u ≠ w := by
      rintro u hu rfl
      exact Bool.false_ne_true (hw.symm.trans hu)
    simp [hne _ hwriter, hne .spawnAndRecord rfl]

theorem Started.trans {τ υ : Ledger} (h₁ : Started name σ τ) (h₂ : Started name τ υ) :
    Started name σ υ :=
  ⟨h₂.valid, h₂.record, fun n hn => (h₂.others n hn).trans (h₁.others n hn), h₂.lock, h₂.recorded,
    h₂.spawned, fun w n hw => (h₂.wrote w n hw).trans (h₁.wrote w n hw), h₂.last⟩

theorem Started.of_write {r : InstanceRecord} {writer : Writer} {τ : Ledger} (hr : r.name = name)
    (hwriter : writer.isUp = true) (h : Started name (σ.write r writer) τ) : Started name σ τ := by
  refine ⟨h.valid, h.record, fun n hn => ?_, h.lock, h.recorded, h.spawned, fun w n hw => ?_,
    h.last⟩
  · rw [h.others n hn, Ledger.rec?_write_of_ne _ _ (hr ▸ Ne.symm hn)]
  · have hne : writer ≠ w := by
      rintro rfl
      exact Bool.false_ne_true (hw.symm.trans hwriter)
    rw [h.wrote w n hw, Ledger.wrote_write]
    simp [hne]

section Up

variable {args : UpArgs}
variable (hW : ∀ τ rec writer, writer.isUp = true → UpRecord args.name rec →
  (writer ≠ .spawnAndRecord → τ.wrote .spawnAndRecord args.name = true) → W τ rec writer)

include hW

theorem wp_spawnAndRecord {workspace : Option String} {port : ℕ}
    {Q : Except CtlError InstanceRecord → Ledger → Prop} (hN : N (σ.setLock (some 0)) args.name)
    (hlock : σ.lock = none)
    (hreuse : ∀ rec, σ.rec? args.name = some rec → Reusable rec → Q (.ok rec) σ)
    (hfail : ∀ e, ¬ (Sure P args.name ∧ σ.Idle args.name) → Q (.error e) σ)
    (hnew : ∀ r₀, UpRecord args.name r₀ → r₀.state = .starting →
      Q (.ok r₀) ((σ.spawn args.name).write r₀ .spawnAndRecord)) :
    (spawnAndRecord args workspace port).run.wp (ledgerEnv P W N) Q σ := by
  have hback : (σ.setLock (some 0)).setLock none = σ := Ledger.setLock_eq_self hlock
  refine wp_withLock (fun hns => hfail _ fun h => hns h.1) ?_
  simp only [wp_run_bind, wp_run_lift]
  refine wp_existingIfReady ?_ fun rec h hreusable => ?_
  · refine (wp_run_bind _ _ _).mpr (wp_ensureNotLive ?_ fun e hlive => ?_)
    · simp only [call, onOk_ok, wp_run_bind, wp_run_mk]
      refine wp_act fun spawned _ hspawn => ⟨hN, ?_⟩
      cases spawned with
      | error e =>
        show Q (.error e) ((σ.setLock (some 0)).setLock none)
        rw [hback]
        refine hfail e fun h => ?_
        obtain ⟨x, hx⟩ := h.1 _ _ hspawn rfl
        exact absurd hx (by simp)
      | ok x =>
        simp only [onOk_ok, wp_run_bind, wp_run_lift]
        refine wp_write (hW _ _ _ rfl (upRecord_new ..) fun h => absurd rfl h) ?_
        have hlater := hnew _ (upRecord_new args workspace port x.1 x.2) rfl
        rw [← Ledger.setLock_eq_self hlock] at hlater
        exact hlater
    · show Q (.error e) _
      rw [hback]
      exact hfail e fun h => hlive h.2
  · show Q (.ok rec) _
    rw [hback]
    exact hreuse rec h hreusable

omit hW in
/-- The rest of `upOnce`: the record is written once more, whatever the outcome. -/
theorem wp_upOnce_wait {record : InstanceRecord} {port : ℕ}
    {Q : Except CtlError UpOutcome → Ledger → Prop} {τ : Ledger} (hname : record.name = args.name)
    (hwrite : ∀ x r writer, r.name = args.name → r.desiredState = record.desiredState →
      r.restartAttempts = record.restartAttempts → r.nextRestartAt = record.nextRestartAt →
      r.state ≠ .starting → writer.isUp = true → writer ≠ .spawnAndRecord →
      W τ r writer ∧ Q x (τ.write r writer)) :
    (do
      let pid := record.pid.getD 0
      match ← act (.waitTcp args.name pid port) with
      | .ready =>
        let record ← finalizeReady record
        pure ⟨record, false, .ready⟩
      | .timeout =>
        let record ← markReadinessTimeout record pid
        pure ⟨record, false, .failed⟩
      | .exited =>
        write { record with state := .failed } .upOnce
        throw (readinessFailed args.name) : OpM UpOutcome).run.wp (ledgerEnv P W N) Q τ := by
  have hone : ∀ x r writer, r.name = args.name → r.desiredState = record.desiredState →
      r.restartAttempts = record.restartAttempts → r.nextRestartAt = record.nextRestartAt →
      r.state ≠ .starting → writer.isUp = true → writer ≠ .spawnAndRecord →
      (write r writer).wp (ledgerEnv P W N) (fun _ => Q x) τ := by
    intro x r writer h₁ h₂ h₃ h₄ h₅ h₆ h₇
    obtain ⟨hw, hq⟩ := hwrite x r writer h₁ h₂ h₃ h₄ h₅ h₆ h₇
    exact wp_write hw hq
  simp only [wp_run_bind, wp_run_lift]
  refine wp_act fun outcome _ _ => ⟨trivial, ?_⟩
  cases outcome with
  | ready =>
    simp only [onOk_ok, finalizeReady, wp_run_bind, wp_run_lift, wp_bind]
    exact hone _ _ _ hname rfl rfl rfl (by simp) rfl (by simp)
  | timeout =>
    simp only [onOk_ok, markReadinessTimeout, wp_run_bind, wp_run_lift,
      wp_bind]
    refine wp_act fun _ _ _ => ⟨trivial, ?_⟩
    exact hone _ _ _ hname rfl rfl rfl (by simp) rfl (by simp)
  | exited =>
    simp only [onOk_ok, wp_run_bind, wp_run_lift]
    exact hone _ _ _ hname rfl rfl rfl (by simp) rfl (by simp)

theorem wp_upOnce {workspace : Option String} {port : ℕ}
    {Q : Except CtlError UpOutcome → Ledger → Prop} (hN : N (σ.setLock (some 0)) args.name)
    (hvalid : validateName args.name = .ok ()) (hlock : σ.lock = none)
    (hreuse : ∀ out rec, σ.rec? args.name = some rec → Reusable rec → Q (.ok out) σ)
    (hfail : ∀ e, ¬ (Sure P args.name ∧ σ.Idle args.name) → Q (.error e) σ)
    (hstart : ∀ r τ, Started args.name σ τ → Q r τ)
    (hagain : ¬ σ.Settled args.name → ∀ x r writer, r.name = args.name → r.state ≠ .starting →
      writer.isUp = true → W σ r writer ∧ Q x (σ.write r writer)) :
    (upOnce args workspace port).run.wp (ledgerEnv P W N) Q σ := by
  rw [upOnce, wp_run_bind]
  refine wp_spawnAndRecord hW hN hlock (fun rec h hreusable => ?_) hfail
    fun r₀ hr₀ hstarting => ?_
  · obtain hstarting | ⟨hready, hwant⟩ := hreusable
    · simp only [onOk_ok, hstarting, reduceCtorEq, if_false]
      refine wp_upOnce_wait (Ledger.name_of_rec? h) fun x r writer hr _ _ _ hstate hwriter _ => ?_
      exact hagain (fun hsettled => hsettled rec h hstarting) x r writer hr hstate hwriter
    · simp only [onOk_ok, hready, if_true]
      exact hreuse _ rec h (Or.inr ⟨hready, hwant⟩)
  · simp only [onOk_ok, hstarting, reduceCtorEq, if_false]
    refine wp_upOnce_wait hr₀.name_eq
      fun x r writer hname hwant hattempts hnext hstate hwriter _ => ?_
    have hr : UpRecord args.name r :=
      ⟨hname, hwant.trans hr₀.wanted, hattempts.trans hr₀.attempts, hnext.trans hr₀.next⟩
    refine ⟨hW _ _ _ hwriter hr fun _ => ?_, hstart x _ ?_⟩
    · simp [hr₀.name_eq]
    · exact started_write hvalid hlock hr₀ hr hstate hwriter

omit hW in
theorem wp_selectPort {Q : Except CtlError ℕ → Ledger → Prop} (hok : ∀ port, Q (.ok port) σ)
    (hfail : ∀ e, ¬ Sure P args.name → Q (.error e) σ) :
    (selectPort args).run.wp (ledgerEnv P W N) Q σ := by
  unfold selectPort
  cases args.port with
  | some p =>
    simp only [wp_run_bind, wp_run_lift]
    refine wp_act fun free _ hfree => ⟨trivial, ?_⟩
    cases free with
    | true => exact hok p
    | false => exact hfail _ fun hsure => Bool.false_ne_true (hsure _ _ hfree rfl)
  | none =>
    refine wp_act fun port _ hport => ⟨trivial, ?_⟩
    cases port with
    | ok p => exact hok p
    | error e =>
      refine hfail e fun hsure => ?_
      obtain ⟨p, hp⟩ := hsure _ _ hport rfl
      exact absurd hp (by simp)

omit hW in
theorem wp_prepareUp {Q : Except CtlError Launch → Ledger → Prop}
    (hreuse : ∀ rec, σ.rec? args.name = some rec → Reusable rec → Q (.ok (.existing rec)) σ)
    (hnew : validateName args.name = .ok () → ∀ workspace port, Q (.ok (.new workspace port)) σ)
    (hfail : ∀ e, ¬ (Sure P args.name ∧ validateName args.name = .ok () ∧ σ.Idle args.name) →
      Q (.error e) σ) :
    (prepareUp args).run.wp (ledgerEnv P W N) Q σ := by
  simp only [prepareUp, call, wp_run_bind, wp_run_mk, wp_pure]
  cases hname : validateName args.name with
  | error e => exact hfail e fun h => absurd (hname.symm.trans h.2.1) (by simp)
  | ok u =>
    simp only [onOk_ok, wp_run_bind, wp_run_mk]
    refine wp_act fun workspace _ hworkspace => ⟨trivial, ?_⟩
    cases workspace with
    | error e =>
      refine hfail e fun h => ?_
      obtain ⟨x, hx⟩ := h.1 _ _ hworkspace rfl
      exact absurd hx (by simp)
    | ok workspace =>
      simp only [onOk_ok, wp_run_bind, wp_run_lift]
      refine wp_existingIfReady ?_ fun rec h hreusable => hreuse rec h hreusable
      simp only [wp_run_bind]
      refine wp_ensureNotLive ?_ fun e hlive => hfail e fun h => hlive h.2.2
      simp only [onOk_ok, wp_run_bind]
      refine wp_selectPort (fun port => ?_) fun e hns => hfail e fun h => hns h.1
      simp only [onOk_ok, wp_run_bind, wp_run_mk]
      refine wp_act fun checked _ hchecked => ⟨trivial, ?_⟩
      cases checked with
      | ok _ => exact hnew hname workspace port
      | error e => exact hfail e fun h => absurd (h.1 _ _ hchecked rfl) (by simp)

/-- The second attempt, on the next free port. -/
theorem wp_retry {workspace : Option String} {port : ℕ} {e : CtlError}
    {Q : Except CtlError UpOutcome → Ledger → Prop} (hN : N (σ.setLock (some 0)) args.name)
    (hvalid : validateName args.name = .ok ()) (hlock : σ.lock = none)
    (hreuse : ∀ out rec, σ.rec? args.name = some rec → Reusable rec → Q (.ok out) σ)
    (hfail : ∀ e, Q (.error e) σ) (hstart : ∀ r τ, Started args.name σ τ → Q r τ)
    (hagain : ¬ σ.Settled args.name → ∀ x r writer, r.name = args.name → r.state ≠ .starting →
      writer.isUp = true → W σ r writer ∧ Q x (σ.write r writer)) :
    (if e.errorCode = "readiness_failed" ∧ args.port = none then do
        let retry ← call (act (.nextFreeFrom args.name port))
        match ← attempt (upOnce args workspace retry) with
        | .ok out => pure out
        | .error e₂ => throw (portRace port retry e₂)
      else throw e : OpM UpOutcome).run.wp (ledgerEnv P W N) Q σ := by
  split_ifs with h
  · simp only [call, wp_run_bind, wp_run_mk]
    refine wp_act fun retry _ _ => ⟨trivial, ?_⟩
    cases retry with
    | error e => exact hfail e
    | ok retry =>
      simp only [onOk_ok, wp_run_bind, wp_attempt]
      refine wp_upOnce hW hN hvalid hlock hreuse (fun e _ => hfail _) (fun r τ hτ => ?_)
        fun hns x r writer hr hstate hwriter => ?_
      · cases r with
        | ok out => exact hstart _ τ hτ
        | error e => exact hstart _ τ hτ
      · refine ⟨(hagain hns (.error e) r writer hr hstate hwriter).1, ?_⟩
        cases x with
        | ok out => exact (hagain hns _ r writer hr hstate hwriter).2
        | error e => exact (hagain hns _ r writer hr hstate hwriter).2
  · exact hfail e

/-- `up` starts the instance, or leaves everything as it is. It can fail to start an instance
without a pid only if one of its calls fails. A start that was under way may be finished from the
record that it left. -/
theorem wp_up {Q : Except CtlError UpOutcome → Ledger → Prop}
    (hN : N (σ.setLock (some 0)) args.name)
    (hNup : ∀ τ : Ledger, τ.LastUp args.name → N (τ.setLock (some 0)) args.name)
    (hlock : σ.lock = none)
    (hreuse : ∀ out rec, σ.rec? args.name = some rec → Reusable rec → Q (.ok out) σ)
    (hfail : ∀ e, ¬ (Sure P args.name ∧ validateName args.name = .ok () ∧ σ.Idle args.name) →
      Q (.error e) σ)
    (hstart : ∀ r τ, Started args.name σ τ → Q r τ)
    (hagain : ¬ σ.Settled args.name → ∀ x r writer, r.name = args.name → r.state ≠ .starting →
      writer.isUp = true → W σ r writer ∧ Q x (σ.write r writer)) :
    (up args).run.wp (ledgerEnv P W N) Q σ := by
  rw [up, wp_run_bind]
  refine wp_prepareUp (fun rec h hreusable => hreuse _ rec h hreusable)
    (fun hvalid workspace port => ?_) hfail
  simp only [onOk_ok, wp_run_bind, wp_attempt]
  -- from a ledger in which the record is settled, a second attempt starts or changes nothing
  have hretry : ∀ τ workspace port e, τ.lock = none → τ.Settled args.name →
      τ.LastUp args.name → (∀ x, Q x τ) →
      (∀ υ, Started args.name τ υ → Started args.name σ υ) →
      (if e.errorCode = "readiness_failed" ∧ args.port = none then do
        let retry ← call (act (.nextFreeFrom args.name port))
        match ← attempt (upOnce args workspace retry) with
        | .ok out => pure out
        | .error e₂ => throw (portRace port retry e₂)
      else throw e : OpM UpOutcome).run.wp (ledgerEnv P W N) Q τ := by
    intro τ workspace port e hτlock hsettled hlast hτ hυ
    exact wp_retry hW (hNup τ hlast) hvalid hτlock (fun out _ _ _ => hτ (.ok out))
      (fun e => hτ (.error e)) (fun r υ h => hstart r υ (hυ υ h)) fun hns => absurd hsettled hns
  refine wp_upOnce hW hN hvalid hlock hreuse (fun e hns => ?_) (fun r τ hτ => ?_)
    fun hns x r writer hr hstate hwriter => ?_
  · exact wp_retry hW hN hvalid hlock hreuse (fun e => hfail e fun h => hns ⟨h.1, h.2.2⟩) hstart
      hagain
  · cases r with
    | ok out => exact hstart _ τ hτ
    | error e =>
      obtain ⟨rec, hrec, -, hsettled⟩ := hτ.record
      refine hretry τ _ _ _ hτ.lock (fun rec' h => ?_) hτ.last (fun x => hstart x τ hτ)
        fun υ => hτ.trans
      exact Option.some.inj (hrec.symm.trans h) ▸ hsettled
  · have hafter : ∀ x, Q x (σ.write r writer) :=
      fun x => (hagain hns x r writer hr hstate hwriter).2
    refine ⟨(hagain hns (.error lockBusy) r writer hr hstate hwriter).1, ?_⟩
    cases x with
    | ok out => exact hafter _
    | error e =>
      refine hretry _ _ _ _ hlock (fun rec' h => ?_) ⟨writer, by simp [hr], hwriter⟩ hafter
        fun υ => Started.of_write hr hwriter
      rw [← hr, Ledger.rec?_write_self] at h
      exact Option.some.inj h ▸ hstate

end Up

/-! Names apart. -/

/-- Nothing has changed for `name`. -/
structure SameAt (name : String) (σ τ : Ledger) : Prop where
  record : τ.rec? name = σ.rec? name
  wrote : ∀ writer, τ.wrote writer name = σ.wrote writer name
  last : τ.last name = σ.last name
  spawned : τ.spawned name = σ.spawned name

namespace SameAt

theorem refl (name : String) (σ : Ledger) : SameAt name σ σ := ⟨rfl, fun _ => rfl, rfl, rfl⟩

theorem trans {name : String} {σ τ υ : Ledger} (h₁ : SameAt name σ τ) (h₂ : SameAt name τ υ) :
    SameAt name σ υ :=
  ⟨h₂.record.trans h₁.record, fun w => (h₂.wrote w).trans (h₁.wrote w), h₂.last.trans h₁.last,
    h₂.spawned.trans h₁.spawned⟩

theorem write {rec : InstanceRecord} (h : rec.name ≠ name) (writer : Writer) :
    SameAt name σ (σ.write rec writer) :=
  ⟨Ledger.rec?_write_of_ne _ _ h, fun w => by simp [h], by simp [h], rfl⟩

theorem after {a : Act} {r : a.Res} (hwrite : ∀ rec w, a = .write rec w → rec.name ≠ name)
    (hspawn : ∀ m spec, a = .spawn m spec → m ≠ name) : SameAt name σ (σ.after 0 a r) := by
  cases a with
  | write rec w => exact write (hwrite rec w rfl) w
  | spawn m spec =>
    cases r with
    | error e => exact refl name σ
    | ok x => exact ⟨rfl, fun _ => rfl, rfl, by simp [Ledger.after, hspawn m spec rfl]⟩
  | lock m => cases r <;> exact ⟨rfl, fun _ => rfl, rfl, rfl⟩
  | _ => exact ⟨rfl, fun _ => rfl, rfl, rfl⟩

end SameAt

/-- An operation for one name, run as part of something larger, leaves the other names alone. -/
theorem wp_sameAt {α : Type} {p : Op α} {Q : α → Ledger → Prop} {m : String} (hm : m ≠ name)
    (hW : ∀ τ rec writer, rec.name = m → W τ rec writer) (hN : ∀ τ, N τ m)
    (h : p.wp (ledgerEnv P (fun _ rec _ => rec.name = m) fun _ n => n = m) Q σ) :
    p.wp (ledgerEnv P W N) (fun x τ => Q x τ ∧ SameAt name σ τ) σ := by
  have hkeep := wp_keep (SameAt.refl name) (fun _ _ _ => SameAt.trans)
    (fun σ τ (hστ : σ = τ) => hστ ▸ SameAt.refl name σ) ?_ h
  · refine wp_weaken hkeep rfl rfl (fun _ _ _ => id) fun a τ _ hallowed => ?_
    cases a with
    | write rec w => exact hW τ rec w hallowed
    | spawn n spec => exact (show n = m from hallowed) ▸ hN τ
    | _ => trivial
  · intro a τ r _ hallowed
    refine SameAt.after (fun rec w ha => ?_) fun n spec ha => ?_
    · subst ha
      exact (show rec.name = m from hallowed) ▸ hm
    · subst ha
      exact (show n = m from hallowed) ▸ hm

end CrabMate.Ctl
