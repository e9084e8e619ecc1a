import CrabMate.Ctl.Threads

/-! Any number of operations at once, in any order of their actions. A process is lost when its pid
is dropped from the record while it runs: by a copy of the record that is out of date, or after a
signal that has not ended it. A `down` is lost when an operation that read the record before it goes
on. -/
namespace CrabMate.Ctl

inductive CtlOp where
  | up (args : UpArgs)
  | down (name : String)
  | restart (name : String)
  | sweep (file : InstancesFile) (scope : Option String) (backoff : Backoff) (now : ℤ)

namespace CtlOp

def op : CtlOp → Op Unit
  | .up args => (fun _ => ()) <$> (Ctl.up args).run
  | .down name => (fun _ => ()) <$> (Ctl.down name).run
  | .restart name => (fun _ => ()) <$> (Ctl.restart name).run
  | .sweep file scope backoff now => (fun _ => ()) <$> (Ctl.sweep file scope backoff now).run

def isDown : CtlOp → Bool
  | .down _ => true
  | _ => false

theorem safe_op (t : ℕ) (o : CtlOp) : Safe t o.op := by
  cases o with
  | up args => exact (safe_up args).map _
  | down name => exact (safe_down name).map _
  | restart name => exact (safe_restart name).map _
  | sweep file scope backoff now => exact (safe_sweep file scope backoff now).map _

end CtlOp

/-- The operations at work: the thread `i` runs the operation `i`. -/
abbrev Threads := Prog.Pool ℕ Act Act.Res Unit World Local

namespace Threads

def program (ops : List CtlOp) (i : ℕ) : Op Unit :=
  match ops[i]? with
  | some o => o.op
  | none => pure ()

/-- The operations begin in `w`, and from then on it is logged what they do. -/
def start (ops : List CtlOp) (w : World) : Threads :=
  ⟨{ w with log := [] }, fun i => (program ops i, Local.start)⟩

def step (c : Threads) (turn : ℕ × Choice) : Threads := Prog.Pool.step execLocal c turn

abbrev run (c : Threads) (turns : List (ℕ × Choice)) : Threads := Run.run step c turns

def isDone (c : Threads) (i : ℕ) : Bool :=
  match (c.thread i).1 with
  | .ret _ => true
  | .act _ _ => false

def Done (c : Threads) : Prop := ∀ i, c.isDone i = true

end Threads

/-- A record is written when the one on disk names what the operation has last seen there, or no
process that runs. -/
def Act.UpToDate (w : World) (l : Local) (c : Choice) : Act → Prop
  | .write rec _ => ∀ p, (w.records.lookup rec.name).bind InstanceRecord.pid = some p →
      (rec.name, p) ∈ (w.exits c.gone).live → l.seen rec.name = some p
  | _ => True

/-- The next action of the thread whose turn it is writes no copy that is out of date, and a signal
that is taken for an answer has ended the process. -/
def Threads.Orderly (c : Threads) (turn : ℕ × Choice) : Prop :=
  match (c.thread turn.1).1 with
  | .ret _ => True
  | .act a _ => a.UpToDate c.shared (c.thread turn.1).2 turn.2 ∧ a.Ends c.shared turn.2

/-! The conditions can be evaluated. -/

instance (w : World) (c : Choice) (a : Act) : Decidable (a.Ends w c) :=
  decidable_of_iff
    ((match a with
      | .terminate name pid _ writer =>
        !(writer = .markReadinessTimeout || c.terminate.isOk) || !(w.exits c.gone).isLive name pid
      | _ => true) = true) (by
    cases a with
    | terminate name pid pgid writer =>
      have hok : c.terminate.isOk = true ↔ ∃ forced, c.terminate = .ok forced := by
        cases c.terminate <;> simp [Except.isOk, Except.toBool]
      simp [Act.Ends, World.isLive, ← hok, imp_iff_not_or]
    | _ => simp [Act.Ends])

instance (w : World) (l : Local) (c : Choice) (a : Act) : Decidable (a.UpToDate w l c) :=
  decidable_of_iff
    ((match a with
      | .write rec _ => ((w.records.lookup rec.name).bind InstanceRecord.pid).all fun p =>
        !(w.exits c.gone).isLive rec.name p || l.seen rec.name = some p
      | _ => true) = true) (by
    cases a with
    | write rec writer =>
      dsimp only [Act.UpToDate]
      cases (w.records.lookup rec.name).bind InstanceRecord.pid <;>
        simp [World.isLive, ← imp_iff_not_or]
    | _ => simp [Act.UpToDate])

instance (c : Threads) (turn : ℕ × Choice) : Decidable (c.Orderly turn) :=
  match h : (c.thread turn.1).1 with
  | .ret _ => isTrue (by rw [Threads.Orderly, h]; trivial)
  | .act a _ =>
    decidable_of_iff (a.UpToDate c.shared (c.thread turn.1).2 turn.2 ∧ a.Ends c.shared turn.2)
      (by rw [Threads.Orderly, h])

/-- Every process is the one that the record of its name gives. -/
def World.Covered (w : World) : Prop := ∀ name, w.CoversName name

/-! What an action leaves for the others. -/

section Guarantee

variable {t : ℕ} {s : World × Local} {a : Act} {c : Choice}

theorem rely_spawned {u : ℕ} {l : Local} {w : World} {gone : List ℕ} {name : String} {k : ℕ}
    {log : List Event} (hlock : w.lock ≠ some u) :
    Rely u (w, l) (⟨w.records, (name, w.nextPid + k) :: (w.exits gone).live, w.nextPid + k + 1,
      w.lock, log⟩, l) where
  own := rfl
  fenced h := by
    refine ⟨fun q hq => ?_, fun m rec p hrec hp => ?_⟩
    · obtain rfl | hq := List.mem_cons.mp hq
      · exact Nat.lt_succ_self _
      · have hq' := h.live q (mem_live_exits hq)
        dsimp only at hq' ⊢
        omega
    · have hp' := h.record m rec p hrec hp
      dsimp only at hp' ⊢
      omega
  nextPid := by
    dsimp only
    omega
  dead m p hp hdead hlive := by
    obtain heq | hlive := List.mem_cons.mp hlive
    · have hpid : p = w.nextPid + k := congrArg Prod.snd heq
      dsimp only at hp
      omega
    · exact hdead (mem_live_exits hlive)
  held h := absurd h hlock
  free h := h

/-- Whoever keeps its guarantee does only what the others rely on. -/
theorem rely_of_keeps {u : ℕ} {l : Local} (hu : u ≠ t) (hkeeps : a.Keeps t s) :
    Rely u (s.1, l) ((execLocal t a s c).2.1, l) := by
  cases a with
  | write rec writer => exact rely_of_write rfl rfl rfl Iff.rfl hkeeps.1
  | spawn name spec =>
    obtain ⟨hlock, -, -⟩ := hkeeps
    cases hspawn : c.spawn with
    | error e =>
      simp only [execLocal, exec, Act.answer, hspawn]
      exact rely_of_exits rfl rfl rfl Iff.rfl
    | ok keys =>
      simp only [execLocal, exec, Act.answer, hspawn]
      exact rely_spawned (fun h => hu (Option.some.inj (h.symm.trans hlock)))
  | lock name =>
    refine rely_of_exits rfl rfl rfl ?_
    have ht : some t ≠ some u := fun h => hu (Option.some.inj h).symm
    cases hlock : s.1.lock with
    | none =>
      cases hfree : c.free <;>
        simp [execLocal, exec, Act.answer, World.exits, hlock, hfree, ht]
    | some v => simp [execLocal, exec, Act.answer, World.exits, hlock]
  | unlock =>
    refine rely_of_exits rfl rfl rfl ⟨(by rintro ⟨⟩), fun hlock => ?_⟩
    exact absurd (Option.some.inj (hlock.symm.trans hkeeps.1)) hu
  | _ => exact rely_of_exits rfl rfl rfl Iff.rfl

end Guarantee

/-! Processes and records. -/

/-- Only the holder of the lock has spawned something that it has not recorded, and nothing else
runs for that name; every other process is on record. -/
structure Tidy (w : World) (fresh : ℕ → Option (String × ℕ)) : Prop where
  apart : ∀ t, w.lock ≠ some t → fresh t = none
  alone : ∀ t m p, fresh t = some (m, p) → ∀ q, (m, q) ∈ w.live → q = p
  covered : ∀ m, (∀ t p, fresh t ≠ some (m, p)) → w.CoversName m

namespace Tidy

variable {w w' : World} {fresh : ℕ → Option (String × ℕ)} {i : ℕ} {rec : InstanceRecord}

theorem exits (h : Tidy w fresh) (hrecords : w'.records = w.records)
    (hlive : ∀ q ∈ w'.live, q ∈ w.live)
    (hlock : ∀ t, w'.lock ≠ some t → fresh t = none) : Tidy w' fresh where
  apart := hlock
  alone t m p hfresh q hq := h.alone t m p hfresh q (hlive _ hq)
  covered m hm p hp := by
    rw [hrecords]
    exact h.covered m hm p (hlive _ hp)

/-- A process is spawned for a name for which none runs. -/
theorem spawned (h : Tidy w fresh) {name : String} {pid : ℕ} (hlock : w.lock = some i)
    (hi : fresh i = none) (hnone : ∀ q ∈ w.live, q.1 ≠ name) (hrecords : w'.records = w.records)
    (hlive : ∀ q ∈ w'.live, q = (name, pid) ∨ q ∈ w.live) (hlock' : w'.lock = w.lock) :
    Tidy w' (Function.update fresh i (some (name, pid))) where
  apart t ht := by
    have hti : t ≠ i := fun hti => ht (hti ▸ hlock'.trans hlock)
    rw [Function.update_of_ne hti]
    exact h.apart t (hlock' ▸ ht)
  alone t m p hfresh q hq := by
    by_cases hti : t = i
    · subst hti
      rw [Function.update_self] at hfresh
      obtain ⟨rfl, rfl⟩ := Prod.mk.inj (Option.some.inj hfresh)
      obtain hq | hq := hlive _ hq
      · exact congrArg Prod.snd hq
      · exact absurd rfl (hnone _ hq)
    · rw [Function.update_of_ne hti] at hfresh
      have hother : fresh t = none :=
        h.apart t fun ht => hti (Option.some.inj (ht.symm.trans hlock))
      exact absurd (hother.symm.trans hfresh) (by simp)
  covered m hm p hp := by
    have hne : m ≠ name := by
      rintro rfl
      exact hm i pid (Function.update_self ..)
    rw [hrecords]
    refine h.covered m (fun t q hfresh => ?_) p ?_
    · by_cases hti : t = i
      · subst hti
        exact absurd (hi.symm.trans hfresh) (by simp)
      · exact hm t q ((Function.update_of_ne hti ..).trans hfresh)
    · obtain hp | hp := hlive _ hp
      · exact absurd (congrArg Prod.fst hp) hne
      · exact hp

/-- The process that was spawned is recorded. -/
theorem recorded (h : Tidy w fresh) {pid : ℕ} (hi : fresh i = some (rec.name, pid))
    (hpid : rec.pid = some pid) (hrecords : w'.records = w.records.put rec)
    (hlive : ∀ q ∈ w'.live, q ∈ w.live) (hlock' : w'.lock = w.lock) :
    Tidy w' (Function.update fresh i none) where
  apart t ht := by
    by_cases hti : t = i
    · subst hti
      exact Function.update_self ..
    · rw [Function.update_of_ne hti]
      exact h.apart t (hlock' ▸ ht)
  alone t m p hfresh q hq := by
    by_cases hti : t = i
    · subst hti
      rw [Function.update_self] at hfresh
      exact absurd hfresh (by simp)
    · rw [Function.update_of_ne hti] at hfresh
      exact h.alone t m p hfresh q (hlive _ hq)
  covered m hm p hp := by
    rw [hrecords]
    by_cases hname : rec.name = m
    · subst hname
      rw [Table.lookup_put_self, h.alone i _ pid hi p (hlive _ hp)]
      exact hpid
    · rw [Table.lookup_put_of_ne _ hname]
      refine h.covered m (fun t q hfresh => ?_) p (hlive _ hp)
      by_cases hti : t = i
      · subst hti
        exact hname (congrArg Prod.fst (Option.some.inj (hi.symm.trans hfresh)))
      · exact hm t q ((Function.update_of_ne hti ..).trans hfresh)

/-- A copy is written whose pid is right as far as processes run. -/
theorem written (h : Tidy w fresh) (hrecords : w'.records = w.records.put rec)
    (hlive : ∀ q ∈ w'.live, q ∈ w.live) (hlock' : w'.lock = w.lock)
    (hpid : ∀ p, (w.records.lookup rec.name).bind InstanceRecord.pid = some p →
      (rec.name, p) ∈ w'.live → rec.pid = some p) : Tidy w' fresh where
  apart t ht := h.apart t (hlock' ▸ ht)
  alone t m p hfresh q hq := h.alone t m p hfresh q (hlive _ hq)
  covered m hm p hp := by
    have hold := h.covered m hm p (hlive _ hp)
    rw [hrecords]
    by_cases hname : rec.name = m
    · subst hname
      rw [Table.lookup_put_self]
      exact hpid p hold hp
    · rw [Table.lookup_put_of_ne _ hname]
      exact hold

/-- What an action of thread `i` leaves. -/
theorem step {l : ℕ → Local} {a : Act} {c : Choice} (h : Tidy w fun t => (l t).fresh)
    (hkeeps : a.Keeps i (w, l i)) (hdate : a.UpToDate w (l i) c) :
    Tidy (execLocal i a (w, l i) c).2.1
      (Function.update (fun t => (l t).fresh) i (execLocal i a (w, l i) c).2.2.fresh) := by
  have hsame : Function.update (fun t => (l t).fresh) i (l i).fresh = fun t => (l t).fresh :=
    Function.update_eq_self ..
  have hexits : ∀ q ∈ (w.exits c.gone).live, q ∈ w.live := fun q hq => mem_live_exits hq
  cases a with
  | write rec writer =>
    obtain ⟨-, ⟨rfl, hlock, p, hp, hfresh⟩ | ⟨hfresh, hpid⟩⟩ := hkeeps
    · exact h.recorded hfresh hp rfl hexits rfl
    · have hnone : (execLocal i (.write rec writer) (w, l i) c).2.2.fresh = (l i).fresh := by
        have hl : (l i).fresh = none := hfresh
        simp [execLocal, Local.after, hl]
      rw [hnone, hsame]
      refine h.written rfl hexits rfl fun p hold hp => ?_
      have hseen : (l i).seen rec.name = some p := hdate p hold hp
      obtain hpid | ⟨-, hdead⟩ := hpid
      · exact hpid.trans hseen
      · exact absurd (hexits _ hp) (hdead p hseen)
  | spawn name spec =>
    obtain ⟨hlock, hfresh, hnone⟩ := hkeeps
    cases hspawn : c.spawn with
    | error e =>
      simp only [execLocal, exec, Act.answer, hspawn, Local.after]
      rw [hsame]
      exact h.exits rfl hexits h.apart
    | ok keys =>
      simp only [execLocal, exec, Act.answer, hspawn, Local.after]
      refine h.spawned hlock hfresh hnone rfl (fun q hq => ?_) rfl
      exact (List.mem_cons.mp hq).imp_right fun hq => hexits q hq
  | lock name =>
    show Tidy _ (Function.update (fun t => (l t).fresh) i (l i).fresh)
    rw [hsame]
    refine h.exits rfl hexits fun t ht => h.apart t fun hlock => ht ?_
    simp [execLocal, exec, Act.answer, World.exits, hlock]
  | unlock =>
    show Tidy _ (Function.update (fun t => (l t).fresh) i (l i).fresh)
    rw [hsame]
    refine h.exits rfl hexits fun t _ => ?_
    by_cases hti : t = i
    · exact hti ▸ hkeeps.2
    · exact h.apart t fun hlock => hti (Option.some.inj (hlock.symm.trans hkeeps.1))
  | _ =>
    show Tidy _ (Function.update (fun t => (l t).fresh) i (l i).fresh)
    rw [hsame]
    exact h.exits rfl hexits h.apart

end Tidy

namespace Threads

variable {c : Threads} {turn : ℕ × Choice}

structure Inv (c : Threads) : Prop where
  onTheWay : c.OnTheWay threadEnv fun t _ => Free t
  tidy : Tidy c.shared fun t => (c.thread t).2.fresh

theorem inv_start (ops : List CtlOp) {w : World} (hlock : w.lock = none) (hfenced : w.Fenced)
    (hcovered : w.Covered) : (start ops w).Inv where
  onTheWay t := by
    have hfree : Free t ({ w with log := [] }, Local.start) :=
      ⟨⟨⟨hfenced.live, hfenced.record⟩, (by rintro _ _ ⟨⟩), rfl⟩, fun h => absurd (hlock.symm.trans h) (by simp)⟩
    show (program ops t).wp (threadEnv t) (fun _ => Free t) ({ w with log := [] }, Local.start)
    unfold program
    cases ops[t]? with
    | some o => exact o.safe_op t _ hfree
    | none => exact hfree
  tidy := ⟨fun _ _ => rfl, (by rintro _ _ _ ⟨⟩), fun m _ => hcovered m⟩

theorem inv_step (h : c.Inv) (hturn : c.Orderly turn) : (c.step turn).Inv := by
  unfold Orderly at hturn
  cases hthread : (c.thread turn.1).1 with
  | ret x =>
    rw [step, Prog.Pool.step_ret execLocal hthread]
    exact h
  | act a k =>
    rw [hthread] at hturn
    obtain ⟨hdate, hends⟩ := hturn
    have hfinds : a.Finds turn.1 (c.shared, (c.thread turn.1).2) := by
      cases a with
      | read name =>
        intro hlock hfresh
        refine h.tidy.covered name fun t p ht => ?_
        by_cases hti : t = turn.1
        · subst hti
          exact absurd (hfresh.symm.trans ht) (by simp)
        · have hnone := h.tidy.apart t fun hlock' =>
            hti (Option.some.inj (hlock'.symm.trans hlock))
          exact absurd (hnone.symm.trans ht) (by simp)
      | _ => trivial
    obtain ⟨hkeeps, hway⟩ := Prog.Pool.OnTheWay.step execLocal (fun _ => rfl) Rely.refl
      (fun _ _ _ _ => Rely.trans) (fun _ _ _ _ hrely hfree => hfree.rely hrely) h.onTheWay
      hthread ⟨hends, hfinds⟩ fun hkeeps j hj => rely_of_keeps hj hkeeps
    refine ⟨hway, ?_⟩
    have htidy := Tidy.step (l := fun t => (c.thread t).2) h.tidy hkeeps hdate
    rw [step, Prog.Pool.step_act execLocal hthread]
    convert htidy using 1
    funext t
    by_cases hti : t = turn.1
    · subst hti
      simp
    · simp [Function.update_of_ne hti]

theorem covered_of_done (h : c.Inv) (hdone : c.Done) : c.shared.Covered := by
  have hfree : ∀ t, c.shared.lock ≠ some t := by
    intro t hlock
    have hway := h.onTheWay t
    have ht := hdone t
    unfold isDone at ht
    cases hthread : (c.thread t).1 with
    | act a k => simp [hthread] at ht
    | ret x =>
      rw [hthread] at hway
      exact hway.2 hlock
  intro name
  refine h.tidy.covered name fun t p hfresh => ?_
  exact absurd ((h.tidy.apart t (hfree t)).symm.trans hfresh) (by simp)

end Threads

/-! The mark of a `down`. -/

namespace Event

def reads (name : String) (e : Event) : Bool :=
  match e.act with
  | .read n => n = name
  | _ => false

/-- The mark that `down` sets before anything else. -/
def marks (name : String) (e : Event) : Bool :=
  match e.act with
  | .write rec .down => rec.name = name && rec.desiredState = .stopped
  | _ => false

def revives (name : String) (e : Event) : Bool :=
  match e.act with
  | .write rec _ => rec.name = name && rec.desiredState = .running
  | _ => false

end Event

/-- The operation of thread `i` is a `down` that the user has run. -/
def userDown (ops : List CtlOp) (i : ℕ) : Bool := ops[i]?.any CtlOp.isDown

/-- A user's `down` sets the mark after an operation has read the record, and later that operation
writes the record as one that is wanted. -/
def LostStop (ops : List CtlOp) (name : String) (log : List Event) : Prop :=
  ∃ i j k t : ℕ, i < j ∧ j < k ∧
    log[i]?.any (fun e : Event => e.thread = t && e.reads name) = true ∧
    log[j]?.any (fun e : Event => userDown ops e.thread && e.marks name) = true ∧
    log[k]?.any (fun e : Event => e.thread = t && e.revives name) = true

/-- The name whose record thread `i` is about to mark as stopped. -/
def Threads.marking (c : Threads) (i : ℕ) : Option String :=
  match (c.thread i).1 with
  | .act (.write rec .down) _ => some rec.name
  | _ => none

/-- A user's `down` sets the mark when every other operation that has read the record is done, or is
a `down` itself. -/
def Threads.Undisturbed (ops : List CtlOp) (c : Threads) (turn : ℕ × Choice) : Prop :=
  ∀ name ∈ c.marking turn.1, userDown ops turn.1 = true →
    ∀ e ∈ c.shared.log, e.reads name = true →
      c.isDone e.thread = true ∨ userDown ops e.thread = true

instance (ops : List CtlOp) (c : Threads) (turn : ℕ × Choice) :
    Decidable (c.Undisturbed ops turn) :=
  inferInstanceAs (Decidable (∀ name ∈ c.marking turn.1, _))

/-- The actions of a `down`: it writes no record as one that is wanted. -/
def Act.LeavesStopped : Act → Prop
  | .write rec _ => rec.desiredState = .stopped
  | _ => True

/-- Whatever is answered, every action of the program satisfies `P`. -/
def answersEnv (P : Act → Prop) : Prog.Env Act Act.Res Unit Act.Res where
  exec _ _ r := (r, ())
  guar a _ _ := P a

theorem wp_answers {P : Act → Prop} {a : Act} {Q : a.Res → Unit → Prop} (ha : P a)
    (h : ∀ r, Q r ()) : (act a).wp (answersEnv P) Q () := fun _ _ r _ => ⟨ha, h r⟩

theorem leavesStopped_downRecord {rec : InstanceRecord} (hrec : rec.desiredState = .stopped) :
    (downRecord rec).run.wp (answersEnv Act.LeavesStopped) (fun _ _ => True) () := by
  simp only [downRecord, livePid, Prog.wp_run_bind, Prog.wp_run_lift]
  cases rec.pid with
  | none =>
    simp only [Prog.wp_pure, Prog.onOk_ok, Prog.wp_run_bind, Prog.wp_run_lift]
    exact wp_answers hrec fun _ => trivial
  | some pid =>
    simp only [Prog.wp_bind]
    refine wp_answers trivial fun alive => ?_
    cases alive with
    | false =>
      simp only [Prog.wp_pure, Bool.false_eq_true, if_false, Prog.onOk_ok, Prog.wp_run_bind,
        Prog.wp_run_lift]
      exact wp_answers hrec fun _ => trivial
    | true =>
      simp only [Prog.wp_pure, if_true, Prog.onOk_ok, Prog.wp_run_bind, Prog.wp_run_lift]
      refine wp_answers trivial fun ident => ?_
      split_ifs
      · trivial
      · simp only [call, Prog.wp_run_bind, Prog.wp_run_mk]
        refine wp_answers trivial fun r => ?_
        cases r with
        | error e => trivial
        | ok forced =>
          simp only [Prog.onOk_ok, Prog.wp_run_bind, Prog.wp_run_lift]
          exact wp_answers hrec fun _ => trivial

theorem leavesStopped_down (name : String) :
    (down name).run.wp (answersEnv Act.LeavesStopped) (fun _ _ => True) () := by
  simp only [down, call, Prog.wp_run_bind, Prog.wp_run_mk, Prog.wp_pure]
  cases validateName name with
  | error e => trivial
  | ok _ =>
    simp only [Prog.onOk_ok, Prog.wp_run_bind, Prog.wp_run_lift]
    refine wp_answers trivial fun r => ?_
    cases r with
    | none => trivial
    | some rec =>
      simp only [Prog.onOk_ok, Prog.wp_run_bind, Prog.wp_run_lift]
      exact wp_answers rfl fun _ => leavesStopped_downRecord rfl

theorem leavesStopped_program {ops : List CtlOp} {i : ℕ} (h : userDown ops i = true) :
    (Threads.program ops i).wp (answersEnv Act.LeavesStopped) (fun _ _ => True) () := by
  unfold userDown at h
  unfold Threads.program
  cases hop : ops[i]? with
  | none => trivial
  | some o =>
    rw [hop] at h
    cases o with
    | down name => exact (Prog.wp_map _ _ _ _).mpr (leavesStopped_down name)
    | _ => exact absurd h (by rintro ⟨⟩)

/-! What the log says. -/

section Log

variable {log : List Event} {e : Event} {p : Event → Bool} {k : ℕ}

theorem any_getElem?_append_singleton (h : (log ++ [e])[k]?.any p = true) :
    log[k]?.any p = true ∨ k = log.length ∧ p e = true := by
  rcases Nat.lt_trichotomy k log.length with hk | hk | hk
  · rw [List.getElem?_append_left hk] at h
    exact Or.inl h
  · subst hk
    rw [List.getElem?_concat_length] at h
    exact Or.inr ⟨rfl, h⟩
  · rw [List.getElem?_eq_none (by simp; omega)] at h
    exact absurd h (by simp)

theorem any_getElem?_of_lt (h : (log ++ [e])[k]?.any p = true) (hk : k < log.length) :
    log[k]?.any p = true := by
  rwa [List.getElem?_append_left hk] at h

theorem mem_of_any_getElem? (h : log[k]?.any p = true) :
    k < log.length ∧ ∃ e ∈ log, p e = true := by
  cases hk : log[k]? with
  | none => simp [hk] at h
  | some e =>
    obtain ⟨hlt, -⟩ := List.getElem?_eq_some_iff.mp hk
    exact ⟨hlt, e, List.mem_of_getElem? hk, by simpa [hk] using h⟩

theorem eq_write_of_marks {name : String} {t : ℕ} {a : Act} {r : a.Res}
    (h : Event.marks name ⟨t, a, r⟩ = true) : ∃ rec, a = .write rec .down ∧ rec.name = name := by
  cases a with
  | write rec writer =>
    cases writer with
    | down =>
      simp only [Event.marks, Bool.and_eq_true, decide_eq_true_eq] at h
      exact ⟨rec, rfl, h.1⟩
    | _ => exact absurd h (by rintro ⟨⟩)
  | _ => exact absurd h (by rintro ⟨⟩)

theorem not_revives {name : String} {t : ℕ} {a : Act} {r : a.Res} (ha : a.LeavesStopped) :
    ¬ Event.revives name ⟨t, a, r⟩ = true := by
  cases a with
  | write rec writer =>
    have hstopped : rec.desiredState = .stopped := ha
    simp [Event.revives, hstopped]
  | _ => rintro ⟨⟩

end Log

namespace Threads

variable {ops : List CtlOp} {c : Threads} {turn : ℕ × Choice}

/-- Every operation that read a record before a user marked it as stopped is done, or is a `down`
itself. -/
structure Kept (ops : List CtlOp) (c : Threads) : Prop where
  down : ∀ t, userDown ops t = true →
    (c.thread t).1.wp (answersEnv Act.LeavesStopped) (fun _ _ => True) ()
  behind : ∀ (name : String) (i j t : ℕ), i < j →
    c.shared.log[i]?.any (fun e : Event => e.thread = t && e.reads name) = true →
    c.shared.log[j]?.any (fun e : Event => userDown ops e.thread && e.marks name) = true →
    c.isDone t = true ∨ userDown ops t = true
  kept : ∀ name, ¬ LostStop ops name c.shared.log

theorem kept_start (ops : List CtlOp) (w : World) : (start ops w).Kept ops where
  down _ := leavesStopped_program
  behind name i j t _ h := by simp [start] at h
  kept name := by
    rintro ⟨i, j, k, t, -, -, h, -⟩
    simp [start] at h

theorem thread_step_of_ne {t : ℕ} (ht : t ≠ turn.1) : (c.step turn).thread t = c.thread t := by
  cases hthread : (c.thread turn.1).1 with
  | ret x => rw [step, Prog.Pool.step_ret execLocal hthread]
  | act a k =>
    rw [step, Prog.Pool.step_act execLocal hthread]
    exact Function.update_of_ne ht ..

theorem isDone_step {t : ℕ} (h : c.isDone t = true) : (c.step turn).isDone t = true := by
  by_cases ht : t = turn.1
  · subst ht
    cases hthread : (c.thread turn.1).1 with
    | ret x => rwa [step, Prog.Pool.step_ret execLocal hthread]
    | act a k => simp [isDone, hthread] at h
  · rw [isDone, thread_step_of_ne ht]
    exact h

theorem kept_step (h : c.Kept ops) (hturn : c.Undisturbed ops turn) : (c.step turn).Kept ops := by
  cases hthread : (c.thread turn.1).1 with
  | ret x =>
    rw [step, Prog.Pool.step_ret execLocal hthread]
    exact h
  | act a k =>
    have hstep := Prog.Pool.step_act execLocal hthread
    have hactive : c.isDone turn.1 = false := by simp [isDone, hthread]
    obtain ⟨r, hlog⟩ : ∃ r, (c.step turn).shared.log = c.shared.log ++ [⟨turn.1, a, r⟩] :=
      ⟨_, by rw [step, hstep]; rfl⟩
    have hdown : userDown ops turn.1 = true → a.LeavesStopped := by
      intro hd
      have hway := h.down turn.1 hd
      rw [hthread] at hway
      exact (hway () rfl r trivial).1
    refine ⟨fun t ht => ?_, fun name i j t hij hread hmark => ?_, fun name => ?_⟩
    · by_cases hti : t = turn.1
      · subst hti
        have hway := h.down turn.1 ht
        rw [hthread] at hway
        rw [step, hstep]
        dsimp only
        rw [Function.update_self]
        exact (hway () rfl _ trivial).2
      · rw [thread_step_of_ne hti]
        exact h.down t ht
    · rw [hlog] at hread hmark
      -- only the last event is new
      rcases any_getElem?_append_singleton hread with hread | ⟨rfl, -⟩
      · rcases any_getElem?_append_singleton hmark with hmark | ⟨-, hmark⟩
        · exact (h.behind name i j t hij hread hmark).imp_left isDone_step
        · obtain ⟨-, e, he, hlogged⟩ := mem_of_any_getElem? hread
          obtain ⟨rfl, hreads⟩ : e.thread = t ∧ e.reads name = true := by simpa using hlogged
          rw [Bool.and_eq_true] at hmark
          obtain ⟨rec, rfl, rfl⟩ := eq_write_of_marks hmark.2
          have hmarking : c.marking turn.1 = some rec.name := by rw [marking, hthread]
          exact (hturn rec.name hmarking hmark.1 e he hreads).imp_left isDone_step
      · rcases any_getElem?_append_singleton hmark with hmark | ⟨rfl, -⟩
        · exact absurd (mem_of_any_getElem? hmark).1 (by omega)
        · omega
    · rintro ⟨i, j, k, t, hij, hjk, hread, hmark, hrevive⟩
      rw [hlog] at hread hmark hrevive
      rcases any_getElem?_append_singleton hrevive with hold | ⟨rfl, hnew⟩
      · have hk := (mem_of_any_getElem? hold).1
        exact h.kept name ⟨i, j, k, t, hij, hjk, any_getElem?_of_lt hread (by omega),
          any_getElem?_of_lt hmark (by omega), hold⟩
      · obtain ⟨rfl, hrevives⟩ : turn.1 = t ∧ Event.revives name ⟨turn.1, a, r⟩ = true := by
          simpa using hnew
        have hbehind := h.behind name i j turn.1 hij (any_getElem?_of_lt hread (by omega))
          (any_getElem?_of_lt hmark (by omega))
        rcases hbehind with hdone | hd
        · exact absurd (hactive.symm.trans hdone) (by simp)
        · exact not_revives (hdown hd) hrevives

end Threads

/-- Once all operations are done no process is lost, in every run in which no copy that is out of
date is written and every signal that is taken for an answer has ended its process; and no `down`
of the user is lost in any run in which each sets its mark undisturbed. -/
theorem no_orphan_no_lost_stop (ops : List CtlOp) (w : World) (hlock : w.lock = none)
    (hfenced : w.Fenced) (hcovered : w.Covered) (turns : List (ℕ × Choice)) :
    (Run.AllOk Threads.step Threads.Orderly (Threads.start ops w) turns →
      ((Threads.start ops w).run turns).Done →
        ((Threads.start ops w).run turns).shared.Covered) ∧
    (Run.AllOk Threads.step (Threads.Undisturbed ops) (Threads.start ops w) turns →
      ∀ name, ¬ LostStop ops name ((Threads.start ops w).run turns).shared.log) := by
  constructor
  · intro horderly hdone
    have hinv := Run.invariant (fun _ _ => Threads.inv_step)
      (Threads.inv_start ops hlock hfenced hcovered) horderly
    exact Threads.covered_of_done hinv hdone
  · intro hundisturbed name
    have hkept := Run.invariant (fun _ _ => Threads.kept_step) (Threads.kept_start ops w)
      hundisturbed
    exact hkept.kept name

namespace Threads

theorem done_of_lt {ops : List CtlOp} {w : World} {turns : List (ℕ × Choice)}
    (h : ∀ i < ops.length, ((start ops w).run turns).isDone i = true) :
    ((start ops w).run turns).Done := by
  intro i
  by_cases hi : i < ops.length
  · exact h i hi
  · have hstart : (start ops w).isDone i = true := by
      simp only [isDone, start, program, List.getElem?_eq_none (Nat.le_of_not_lt hi)]
      rfl
    have hstep : ∀ (c : Threads) turn, c.isDone i = true → (c.step turn).isDone i = true :=
      fun _ _ => isDone_step
    exact Run.invariant' hstep hstart turns

end Threads

/-- An instance that has failed, with no process. -/
def failedA : World where
  records := ⟨[{ name := "a", state := .failed }], by decide⟩
  live := []
  nextPid := 1
  lock := none
  log := []

theorem fenced_failedA : failedA.Fenced := by
  refine ⟨by rintro _ ⟨⟩, fun m rec p hrec hp => ?_⟩
  obtain ⟨hmem, -⟩ := Table.lookup_eq_some_iff.mp hrec
  obtain rfl := List.mem_singleton.mp hmem
  exact absurd hp (by simp)

/-- A `down` and then an `up`. -/
theorem no_orphan_no_lost_stop_in_turn :
    let turns := List.replicate 3 (0, default) ++ List.replicate 17 (1, default)
    let c := (Threads.start [.down "a", .up { name := "a" }] failedA).run turns
    c.shared.live = [("a", 1)] ∧ c.shared.Covered ∧
      ∀ name, ¬ LostStop [.down "a", .up { name := "a" }] name c.shared.log := by
  intro turns c
  have h := no_orphan_no_lost_stop [.down "a", .up { name := "a" }] failedA rfl fenced_failedA
    (by rintro _ _ ⟨⟩) turns
  have hdone : c.Done := Threads.done_of_lt (by decide +kernel)
  exact ⟨by decide +kernel, h.1 (by decide +kernel) hdone, h.2 (by decide +kernel)⟩

/-- An `up` whose process does not become ready and cannot be killed loses it; and an `up` that has
read the record before a `down` brings the instance up all the same. -/
theorem timeout_loses_process_and_up_loses_stop :
    (let kept : Choice :=
        { wait := .timeout, terminate := .error (.general "signal_failed" "EPERM") }
      let c := (Threads.start [.up { name := "a" }] failedA).run (List.replicate 18 (0, kept))
      c.Done ∧ ¬ c.shared.Covered) ∧
    (let turns := List.replicate 2 (0, default) ++ List.replicate 2 (1, default) ++
        List.replicate 12 (0, default)
      let ops := [CtlOp.up { name := "a" }, CtlOp.down "a"]
      LostStop ops "a" ((Threads.start ops failedA).run turns).shared.log) := by
  constructor
  · refine ⟨Threads.done_of_lt (by decide +kernel), fun hcovered => ?_⟩
    have hpid := hcovered "a" 1 (by decide +kernel)
    exact absurd hpid (by decide +kernel)
  · exact ⟨1, 3, 15, 0, by decide, by decide, by decide +kernel, by decide +kernel,
      by decide +kernel⟩

end CrabMate.Ctl
