import CrabMate.Ctl.Supervise

/-! The ledger of a world: its records, the holder of the lock, and who has written and started
what. An action changes the ledger in a way that its answer determines, so an operation that runs
alone can be followed on the ledger, with every answer that the ledger does not rule out. -/
namespace CrabMate.Ctl

open Prog (onOk wp_mono)

structure Ledger where
  records : Table InstanceRecord.name
  lock : Option ℕ
  wrote : Writer → String → Bool
  last : String → Option Writer
  spawned : String → Bool

namespace Ledger

def rec? (σ : Ledger) (name : String) : Option InstanceRecord := σ.records.lookup name

def write (σ : Ledger) (rec : InstanceRecord) (writer : Writer) : Ledger :=
  { σ with
    records := σ.records.put rec
    wrote := fun w n => σ.wrote w n || (decide (writer = w) && decide (rec.name = n))
    last := fun n => if rec.name = n then some writer else σ.last n }

def spawn (σ : Ledger) (name : String) : Ledger :=
  { σ with spawned := fun n => σ.spawned n || decide (name = n) }

def setLock (σ : Ledger) (lock : Option ℕ) : Ledger := { σ with lock }

def after (t : ℕ) (σ : Ledger) : (a : Act) → a.Res → Ledger
  | .write rec writer, _ => σ.write rec writer
  | .lock _, true => σ.setLock (some t)
  | .unlock, _ => σ.setLock none
  | .spawn name _, .ok _ => σ.spawn name
  | _, _ => σ

/-- The answers that the ledger does not rule out. -/
def Possible (σ : Ledger) : (a : Act) → a.Res → Prop
  | .recordNames, names => names = σ.records.rows.map InstanceRecord.name
  | .read name, r => r = σ.rec? name
  | .facts rec, f => rec.pid = none → f.pidAlive = false
  | .lock _, b => b = true → σ.lock = none
  | _, _ => True

@[simp] theorem rec?_write_self (σ : Ledger) (rec : InstanceRecord) (writer : Writer) :
    (σ.write rec writer).rec? rec.name = some rec := Table.lookup_put_self _ _

theorem rec?_write_of_ne (σ : Ledger) {rec : InstanceRecord} {name : String} (writer : Writer)
    (h : rec.name ≠ name) : (σ.write rec writer).rec? name = σ.rec? name :=
  Table.lookup_put_of_ne _ h

@[simp] theorem lock_write (σ : Ledger) (rec : InstanceRecord) (writer : Writer) :
    (σ.write rec writer).lock = σ.lock := rfl

@[simp] theorem spawned_write (σ : Ledger) (rec : InstanceRecord) (writer : Writer) :
    (σ.write rec writer).spawned = σ.spawned := rfl

@[simp] theorem wrote_write (σ : Ledger) (rec : InstanceRecord) (writer w : Writer) (n : String) :
    (σ.write rec writer).wrote w n =
      (σ.wrote w n || (decide (writer = w) && decide (rec.name = n))) := rfl

@[simp] theorem last_write (σ : Ledger) (rec : InstanceRecord) (writer : Writer) (n : String) :
    (σ.write rec writer).last n = if rec.name = n then some writer else σ.last n := rfl

@[simp] theorem rec?_spawn (σ : Ledger) (name n : String) : (σ.spawn name).rec? n = σ.rec? n := rfl

@[simp] theorem lock_spawn (σ : Ledger) (name : String) : (σ.spawn name).lock = σ.lock := rfl

@[simp] theorem wrote_spawn (σ : Ledger) (name : String) : (σ.spawn name).wrote = σ.wrote := rfl

@[simp] theorem last_spawn (σ : Ledger) (name : String) : (σ.spawn name).last = σ.last := rfl

@[simp] theorem spawned_spawn (σ : Ledger) (name n : String) :
    (σ.spawn name).spawned n = (σ.spawned n || decide (name = n)) := rfl

@[simp] theorem rec?_setLock (σ : Ledger) (lock : Option ℕ) (n : String) :
    (σ.setLock lock).rec? n = σ.rec? n := rfl

@[simp] theorem wrote_setLock (σ : Ledger) (lock : Option ℕ) :
    (σ.setLock lock).wrote = σ.wrote := rfl

@[simp] theorem last_setLock (σ : Ledger) (lock : Option ℕ) :
    (σ.setLock lock).last = σ.last := rfl

@[simp] theorem spawned_setLock (σ : Ledger) (lock : Option ℕ) :
    (σ.setLock lock).spawned = σ.spawned := rfl

@[simp] theorem lock_setLock (σ : Ledger) (lock : Option ℕ) : (σ.setLock lock).lock = lock := rfl

@[simp] theorem setLock_setLock (σ : Ledger) (lock lock' : Option ℕ) :
    (σ.setLock lock).setLock lock' = σ.setLock lock' := rfl

theorem setLock_eq_self {σ : Ledger} {lock : Option ℕ} (h : σ.lock = lock) :
    σ.setLock lock = σ := by rw [← h]; rfl

theorem name_of_rec? {σ : Ledger} {name : String} {rec : InstanceRecord}
    (h : σ.rec? name = some rec) : rec.name = name := (Table.lookup_eq_some_iff.mp h).2

end Ledger

/-! The ledger of a world. -/

def Event.isWrite (writer : Writer) (name : String) (e : Event) : Bool :=
  match e.act with
  | .write rec w => decide (w = writer) && decide (rec.name = name)
  | _ => false

def Event.lastWriter (name : String) (before : Option Writer) (e : Event) : Option Writer :=
  match e.act with
  | .write rec w => if rec.name = name then some w else before
  | _ => before

def Event.isSpawn (name : String) : Event → Bool
  | ⟨_, .spawn n _, .ok _⟩ => decide (n = name)
  | _ => false

def World.ledger (w : World) : Ledger where
  records := w.records
  lock := w.lock
  wrote writer name := w.log.any (Event.isWrite writer name)
  last name := w.log.foldl (Event.lastWriter name) none
  spawned name := w.log.any (Event.isSpawn name)

theorem ledger_exec (t : ℕ) (a : Act) (w : World) (c : Choice) :
    (exec t a w c).2.ledger = w.ledger.after t a (exec t a w c).1 := by
  cases a with
  | write rec writer =>
    simp [exec, Act.answer, World.ledger, World.exits, Ledger.after, Ledger.write, Event.isWrite,
      Event.isSpawn, Event.lastWriter]
  | lock name =>
    have hkey : ∀ (live : List (String × ℕ)) (b : Bool), World.ledger
        { w with live, lock := if b then some t else w.lock,
                 log := w.log ++ [⟨t, .lock name, b⟩] } =
        w.ledger.after t (.lock name) b := by
      intro live b
      cases b <;> simp [World.ledger, Ledger.after, Ledger.setLock, Event.isWrite, Event.isSpawn,
        Event.lastWriter]
    exact hkey _ _
  | spawn name spec =>
    simp only [exec, Act.answer]
    cases c.spawn <;> simp [World.ledger, World.exits, Ledger.after, Ledger.spawn, Event.isWrite,
      Event.isSpawn, Event.lastWriter]
  | unlock =>
    simp [exec, Act.answer, World.ledger, World.exits, Ledger.after, Ledger.setLock, Event.isWrite,
      Event.isSpawn, Event.lastWriter]
  | _ =>
    simp [exec, Act.answer, World.ledger, World.exits, Ledger.after, Event.isWrite, Event.isSpawn,
      Event.lastWriter]

theorem possible_exec (t : ℕ) (a : Act) (w : World) (c : Choice) :
    w.ledger.Possible a (exec t a w c).1 := by
  cases a with
  | facts rec =>
    intro hpid
    simp [exec, Act.answer, World.factsOf, World.pidAliveOf, hpid]
  | lock name =>
    intro hb
    exact Option.isNone_iff_eq_none.mp (Bool.and_elim_right hb)
  | recordNames => rfl
  | read name => rfl
  | _ => trivial

/-! Following an operation that runs alone. `P` restricts the answers that are considered, `W` and
`N` say which writes and which spawns the operation may perform. -/

section Rules

variable (P : (a : Act) → a.Res → Prop) (W : Ledger → InstanceRecord → Writer → Prop)
variable (N : Ledger → String → Prop)

def Allowed (a : Act) (σ : Ledger) : Prop :=
  match a with
  | .write rec writer => W σ rec writer
  | .spawn name _ => N σ name
  | _ => True

def aloneEnv : Prog.Env Act Act.Res World fun _ => Choice where
  exec := exec 0
  ok a w c := P a (exec 0 a w c).1
  guar a w _ := Allowed W N a w.ledger

def ledgerEnv : Prog.Env Act Act.Res Ledger Act.Res where
  exec a σ r := (r, σ.after 0 a r)
  ok a σ r := σ.Possible a r ∧ P a r
  guar a σ _ := Allowed W N a σ

variable {P W N} {α β : Type}

theorem wp_alone {p : Op α} {Q : α → Ledger → Prop} {w : World}
    (h : p.wp (ledgerEnv P W N) Q w.ledger) :
    p.wp (aloneEnv P W N) (fun x w' => Q x w'.ledger) w := by
  refine Prog.wp_of_image World.ledger (fun s s₀ hs => congrArg World.ledger hs) ?_ h
  intro a w c hc
  exact ⟨(exec 0 a w c).1, ⟨possible_exec 0 a w c, hc⟩, Prod.ext rfl (ledger_exec 0 a w c).symm,
    id⟩

/-! A run on the world. -/

theorem mem_log_run {p : Op α} {cs : List Choice} {w : World} {e : Event} (h : e ∈ w.log) :
    e ∈ (p.run (exec 0) cs w).2.log := by
  induction p generalizing cs w with
  | ret x => exact h
  | act a k ih => exact ih _ (List.mem_append_left _ h)

theorem choicesOk_of_log {p : Op α} {cs : List Choice} {w : World}
    (h : ∀ e ∈ (p.run (exec 0) cs w).2.log, P e.act e.answer) :
    p.ChoicesOk (exec 0) (fun a w c => P a (exec 0 a w c).1) cs w := by
  induction p generalizing cs w with
  | ret x => trivial
  | act a k ih =>
    refine ⟨h ⟨0, a, (exec 0 a w cs.headI).1⟩ ?_, ih _ h⟩
    have hlast : (⟨0, a, (exec 0 a w cs.headI).1⟩ : Event) ∈ (exec 0 a w cs.headI).2.log :=
      List.mem_append_right _ List.mem_cons_self
    exact mem_log_run (p := k _) hlast

/-- What holds on the ledger holds of a run in which every answer satisfies `P`. -/
theorem ledger_run {p : Op α} {Q : α → Ledger → Prop} {cs : List Choice} {w : World}
    (h : p.wp (ledgerEnv P W N) Q w.ledger)
    (hlog : ∀ e ∈ (p.run (exec 0) cs w).2.log, P e.act e.answer) :
    Q (p.run (exec 0) cs w).1 (p.run (exec 0) cs w).2.ledger :=
  Prog.run_of_wp (fun _ => rfl) (wp_alone h) (choicesOk_of_log hlog)

variable {σ : Ledger}

theorem wp_act {a : Act} {Q : a.Res → Ledger → Prop}
    (h : ∀ r, σ.Possible a r → P a r → Allowed W N a σ ∧ Q r (σ.after 0 a r)) :
    (act a).wp (ledgerEnv P W N) Q σ := by
  rintro _ rfl r ⟨hr, hP⟩
  exact h r hr hP

theorem wp_read {name : String} {Q : Option InstanceRecord → Ledger → Prop}
    (h : Q (σ.rec? name) σ) : (read name).wp (ledgerEnv P W N) Q σ :=
  wp_act fun _ hr _ => ⟨trivial, hr ▸ h⟩

theorem wp_write {rec : InstanceRecord} {writer : Writer} {Q : Unit → Ledger → Prop}
    (hW : W σ rec writer) (h : Q () (σ.write rec writer)) :
    (write rec writer).wp (ledgerEnv P W N) Q σ :=
  wp_act fun _ _ _ => ⟨hW, h⟩

theorem wp_observe {rec : InstanceRecord} {Q : Probe → Ledger → Prop}
    (h : ∀ facts : Facts, (rec.pid = none → facts.pidAlive = false) → P (.facts rec) facts →
      Q (probeOf rec facts) σ) :
    (observe rec).wp (ledgerEnv P W N) Q σ := by
  rw [observe, Prog.wp_bind]
  exact wp_act fun r hr hP => ⟨trivial, h r hr hP⟩

end Rules

end CrabMate.Ctl
