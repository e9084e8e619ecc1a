import CrabMate.Ctl.Supervise

/-! One operation among others. What it has seen of each record, what it may rely on while others
run, and what it guarantees at each of its actions: a record is written with the pid that was last
seen in it, or without one when that process has ended, or with the process that was just spawned
under the lock. -/
namespace CrabMate.Ctl
open Prog Function

open Prog (wp_mono)

/-- What an operation knows: the pid it last read or wrote for each name, and the process that it
has spawned and not yet recorded. -/
structure Local where
  seen : String → Option ℕ
  fresh : Option (String × ℕ)

namespace Local

def start : Local := ⟨fun _ => none, none⟩

def after (l : Local) : (a : Act) → a.Res → Local
  | .read name, r => { l with seen := Function.update l.seen name (r.bind InstanceRecord.pid) }
  | .write rec writer, _ =>
    { seen := Function.update l.seen rec.name rec.pid
      fresh := if writer = .spawnAndRecord then none else l.fresh }
  | .spawn name _, .ok spawned => { l with fresh := some (name, spawned.1) }
  | _, _ => l

end Local

def execLocal (t : ℕ) (a : Act) (s : World × Local) (c : Choice) : a.Res × (World × Local) :=
  ((exec t a s.1 c).1, (exec t a s.1 c).2, s.2.after a (exec t a s.1 c).1)

/-- Pids are not reused: those that are in use or recorded lie below the next one. -/
structure World.Fenced (w : World) : Prop where
  live : ∀ q ∈ w.live, q.2 < w.nextPid
  record : ∀ m rec p, w.records.lookup m = some rec → rec.pid = some p → p < w.nextPid

/-! Rely, guarantee, and the choices that are considered. -/

/-- What others may do between two actions of thread `t`. -/
structure Rely (t : ℕ) (s s' : World × Local) : Prop where
  own : s'.2 = s.2
  fenced : s.1.Fenced → s'.1.Fenced
  nextPid : s.1.nextPid ≤ s'.1.nextPid
  dead : ∀ m p, p < s.1.nextPid → (m, p) ∉ s.1.live → (m, p) ∉ s'.1.live
  held : s.1.lock = some t → s'.1.lock = some t ∧ ∀ q ∈ s'.1.live, q ∈ s.1.live
  free : s.1.lock ≠ some t → s'.1.lock ≠ some t

/-- The record names every process that runs for `name`. -/
def World.CoversName (w : World) (name : String) : Prop :=
  ∀ p, (name, p) ∈ w.live → (w.records.lookup name).bind InstanceRecord.pid = some p

/-- A signal that is taken for an answer has ended the process. -/
def Act.Ends (w : World) (c : Choice) : Act → Prop
  | .terminate name pid _ writer =>
    (writer = .markReadinessTimeout ∨ ∃ forced, c.terminate = .ok forced) →
      (name, pid) ∉ (w.exits c.gone).live
  | _ => True

/-- A read under the lock finds the process that runs. -/
def Act.Finds (t : ℕ) (s : World × Local) : Act → Prop
  | .read name => s.1.lock = some t → s.2.fresh = none → s.1.CoversName name
  | _ => True

/-- What an action of thread `t` keeps. -/
def Act.Keeps (t : ℕ) (s : World × Local) : Act → Prop
  | .write rec writer =>
    (∀ p, rec.pid = some p → p < s.1.nextPid) ∧
      (writer = .spawnAndRecord ∧ s.1.lock = some t ∧
          (∃ p, rec.pid = some p ∧ s.2.fresh = some (rec.name, p)) ∨
        s.2.fresh = none ∧ (rec.pid = s.2.seen rec.name ∨
          rec.pid = none ∧ ∀ p, s.2.seen rec.name = some p → (rec.name, p) ∉ s.1.live))
  | .spawn name _ => s.1.lock = some t ∧ s.2.fresh = none ∧ ∀ q ∈ s.1.live, q.1 ≠ name
  | .unlock => s.1.lock = some t ∧ s.2.fresh = none
  | _ => True

def threadEnv (t : ℕ) : Prog.Env Act Act.Res (World × Local) fun _ => Choice where
  exec := execLocal t
  ok a s c := a.Ends s.1 c ∧ a.Finds t s
  rely := Rely t
  guar a s _ := a.Keeps t s

namespace Rely

variable {t : ℕ} {s s' s'' : World × Local}

theorem refl (t : ℕ) (s : World × Local) : Rely t s s :=
  ⟨rfl, id, Nat.le_refl _, fun _ _ _ h => h, fun h => ⟨h, fun _ h => h⟩, id⟩

theorem trans (h₁ : Rely t s s') (h₂ : Rely t s' s'') : Rely t s s'' where
  own := h₂.own.trans h₁.own
  fenced h := h₂.fenced (h₁.fenced h)
  nextPid := Nat.le_trans h₁.nextPid h₂.nextPid
  dead m p hp h := h₂.dead m p (Nat.lt_of_lt_of_le hp h₁.nextPid) (h₁.dead m p hp h)
  held h := ⟨(h₂.held (h₁.held h).1).1,
    fun q hq => (h₁.held h).2 q ((h₂.held (h₁.held h).1).2 q hq)⟩
  free h := h₂.free (h₁.free h)

theorem world {w : World} (h : Rely t s s') (hw : Rely t s' (w, s'.2)) : Rely t s (w, s.2) :=
  h.own ▸ h.trans hw

end Rely

theorem mem_live_exits {w : World} {gone : List ℕ} {q : String × ℕ}
    (h : q ∈ (w.exits gone).live) : q ∈ w.live := (List.mem_filter.mp h).1

/-- A world that differs by exits and by the log. -/
theorem rely_of_exits {t : ℕ} {s : World × Local} {w : World} {gone : List ℕ}
    (hrecords : w.records = s.1.records) (hlive : w.live = (s.1.exits gone).live)
    (hnext : w.nextPid = s.1.nextPid) (hlock : w.lock = some t ↔ s.1.lock = some t) :
    Rely t s (w, s.2) where
  own := rfl
  fenced h := by
    refine ⟨fun q hq => ?_, fun m rec p hrec hp => ?_⟩
    · exact hnext ▸ h.live q (mem_live_exits (hlive ▸ hq))
    · exact hnext ▸ h.record m rec p (hrecords ▸ hrec) hp
  nextPid := Nat.le_of_eq hnext.symm
  dead m p _ h hm := h (mem_live_exits (hlive ▸ hm))
  held h := ⟨hlock.mpr h, fun q hq => mem_live_exits (hlive ▸ hq)⟩
  free h := fun h' => h (hlock.mp h')

/-- A world that differs by a record, by exits and by the log. -/
theorem rely_of_write {t : ℕ} {s : World × Local} {w : World} {rec : InstanceRecord}
    {gone : List ℕ} (hrecords : w.records = s.1.records.put rec)
    (hlive : w.live = (s.1.exits gone).live) (hnext : w.nextPid = s.1.nextPid)
    (hlock : w.lock = some t ↔ s.1.lock = some t)
    (hbound : ∀ p, rec.pid = some p → p < s.1.nextPid) : Rely t s (w, s.2) where
  own := rfl
  fenced h := by
    refine ⟨fun q hq => ?_, fun m r p hr hp => ?_⟩
    · exact hnext ▸ h.live q (mem_live_exits (hlive ▸ hq))
    · have hput : (s.1.records.put rec).lookup m = some r := hrecords ▸ hr
      rw [hnext]
      by_cases hm : rec.name = m
      · subst hm
        rw [Table.lookup_put_self] at hput
        obtain rfl := Option.some.inj hput
        exact hbound p hp
      · rw [Table.lookup_put_of_ne _ hm] at hput
        exact h.record m r p hput hp
  nextPid := Nat.le_of_eq hnext.symm
  dead m p _ h hm := h (mem_live_exits (hlive ▸ hm))
  held h := ⟨hlock.mpr h, fun q hq => mem_live_exits (hlive ▸ hq)⟩
  free h := fun h' => h (hlock.mp h')

/-! What an operation knows, as long as others only do what it relies on. -/

structure Calm (s : World × Local) : Prop where
  fenced : s.1.Fenced
  seen : ∀ m p, s.2.seen m = some p → p < s.1.nextPid
  fresh : s.2.fresh = none

def Free (t : ℕ) (s : World × Local) : Prop := Calm s ∧ s.1.lock ≠ some t

def Holding (t : ℕ) (s : World × Local) : Prop := Calm s ∧ s.1.lock = some t

/-- `rec` is what the operation has seen last. -/
def Copy (rec : InstanceRecord) (s : World × Local) : Prop := s.2.seen rec.name = rec.pid

/-- The process of `rec` has ended. -/
def Gone (rec : InstanceRecord) (s : World × Local) : Prop :=
  ∀ p, rec.pid = some p → (rec.name, p) ∉ s.1.live

section Stable

variable {t : ℕ} {s s' : World × Local} {rec : InstanceRecord}

theorem Calm.rely (h : Calm s) (hs : Rely t s s') : Calm s' where
  fenced := hs.fenced h.fenced
  seen m p hp := Nat.lt_of_lt_of_le (h.seen m p (hs.own ▸ hp)) hs.nextPid
  fresh := hs.own ▸ h.fresh

theorem Free.rely (h : Free t s) (hs : Rely t s s') : Free t s' := ⟨h.1.rely hs, hs.free h.2⟩

theorem Holding.rely (h : Holding t s) (hs : Rely t s s') : Holding t s' :=
  ⟨h.1.rely hs, (hs.held h.2).1⟩

theorem Copy.rely (h : Copy rec s) (hs : Rely t s s') : Copy rec s' := by
  unfold Copy
  rw [hs.own]
  exact h

theorem Gone.rely (h : Gone rec s) (hcalm : Calm s) (hcopy : Copy rec s) (hs : Rely t s s') :
    Gone rec s' := by
  intro p hp
  exact hs.dead rec.name p (hcalm.seen rec.name p (hcopy.trans hp)) (h p hp)

end Stable

/-! Actions. -/

section Actions

variable {t : ℕ} {s : World × Local}

/-- The actions that touch neither records nor the lock and start nothing. -/
def Act.silent : Act → Bool
  | .read _ | .write _ _ | .spawn _ _ | .lock _ | .unlock => false
  | _ => true

/-- What the answer to an action says about the processes. -/
def Act.Tells (w : World) : (a : Act) → a.Res → Prop
  | .facts rec, f => (f.pidAlive = false ∨ f.identity ≠ .match) →
      ∀ p, rec.pid = some p → (rec.name, p) ∉ w.live
  | .pidAlive name pid, alive => alive = false → (name, pid) ∉ w.live
  | .terminate name pid _ writer, r =>
    (writer = .markReadinessTimeout ∨ ∃ forced, r = .ok forced) → (name, pid) ∉ w.live
  | _, _ => True

theorem isLive_iff {w : World} {m : String} {p : ℕ} : w.isLive m p = true ↔ (m, p) ∈ w.live := by
  simp [World.isLive]

theorem rely_silent {a : Act} {c : Choice} (hsilent : a.silent = true) :
    Rely t s (execLocal t a s c).2 := by
  cases a with
  | read | write | spawn | lock | unlock => exact absurd hsilent (by rintro ⟨⟩)
  | _ => exact rely_of_exits rfl rfl rfl Iff.rfl

theorem tells_exec {a : Act} {c : Choice} (hends : a.Ends s.1 c) :
    a.Tells (execLocal t a s c).2.1 (execLocal t a s c).1 := by
  cases a with
  | facts rec =>
    intro hnot p hp hlive
    have hmem : (rec.name, p) ∈ (s.1.exits c.gone).live := hlive
    have halive : (s.1.exits c.gone).isLive rec.name p = true := isLive_iff.mpr hmem
    simp [execLocal, exec, Act.answer, World.factsOf, World.pidAliveOf, World.identityOf, hp,
      halive] at hnot
  | pidAlive name pid =>
    intro hnot hlive
    have hmem : (name, pid) ∈ (s.1.exits c.gone).live := hlive
    have halive : (s.1.exits c.gone).isLive name pid = true := isLive_iff.mpr hmem
    simp [execLocal, exec, Act.answer, halive] at hnot
  | terminate name pid pgid writer => exact hends
  | _ => trivial

theorem wp_silent {a : Act} {Q : a.Res → World × Local → Prop} (hsilent : a.silent = true)
    (h : ∀ r s', Rely t s s' → a.Tells s'.1 r → Q r s') :
    (act a).wp (threadEnv t) Q s := by
  intro s₀ hs c hok
  refine ⟨?_, h _ _ (hs.trans (rely_silent hsilent)) (tells_exec hok.1)⟩
  cases a with
  | read | write | spawn | lock | unlock => exact absurd hsilent (by rintro ⟨⟩)
  | _ => trivial

/-- The operation has read the record of `name`. -/
structure HasRead (t : ℕ) (s : World × Local) (name : String) (r : Option InstanceRecord)
    (s' : World × Local) : Prop where
  rely : Rely t s (s'.1, s.2)
  calm : Calm s'
  copy : ∀ rec, r = some rec → rec.name = name ∧ Copy rec s'
  known : s.1.lock = some t → ∀ p, (name, p) ∈ s'.1.live → r.bind InstanceRecord.pid = some p

theorem HasRead.free {name : String} {r : Option InstanceRecord} {s' : World × Local}
    (h : HasRead t s name r s') (hs : Free t s) : Free t s' := ⟨h.calm, h.rely.free hs.2⟩

theorem HasRead.holding {name : String} {r : Option InstanceRecord} {s' : World × Local}
    (h : HasRead t s name r s') (hs : Holding t s) : Holding t s' := ⟨h.calm, (h.rely.held hs.2).1⟩

theorem wp_reads {name : String} {Q : Option InstanceRecord → World × Local → Prop} (hs : Calm s)
    (h : ∀ r s', HasRead t s name r s' → Q r s') : (read name).wp (threadEnv t) Q s := by
  intro s₀ hrely c hok
  have hs₀ := hs.rely hrely
  have hexits : Rely t s₀ ((execLocal t (.read name) s₀ c).2.1, s₀.2) :=
    rely_of_exits rfl rfl rfl Iff.rfl
  refine ⟨trivial, h (execLocal t (.read name) s₀ c).1 (execLocal t (.read name) s₀ c).2
    ⟨hrely.world hexits, ⟨hexits.fenced hs₀.fenced, fun m p hp => ?_, hs₀.fresh⟩, ?_, ?_⟩⟩
  · simp only [execLocal, Local.after] at hp
    by_cases hm : m = name
    · subst hm
      rw [update_self] at hp
      obtain ⟨rec, hrec, hpid⟩ := Option.bind_eq_some_iff.mp hp
      exact hs₀.fenced.record m rec p hrec hpid
    · rw [update_of_ne hm] at hp
      exact hs₀.seen m p hp
  · intro rec hrec
    have hname : rec.name = name := (Table.lookup_eq_some_iff.mp hrec).2
    refine ⟨hname, ?_⟩
    subst hname
    have hread : (exec t (.read rec.name) s₀.1 c).1 = some rec := hrec
    simp [Copy, execLocal, Local.after, hread]
  · intro hlock p hp
    have hcovers := hok.2 (hrely.held hlock).1 hs₀.fresh
    exact hcovers p (mem_live_exits hp)

/-- The operation has written `rec`. -/
structure HasWritten (t : ℕ) (s : World × Local) (rec : InstanceRecord) (s' : World × Local) :
    Prop where
  rely : Rely t s (s'.1, s.2)
  calm : Calm s'
  copy : Copy rec s'

theorem HasWritten.free {rec : InstanceRecord} {s' : World × Local} (h : HasWritten t s rec s')
    (hs : Free t s) : Free t s' := ⟨h.calm, h.rely.free hs.2⟩

theorem wp_writes {rec : InstanceRecord} {writer : Writer} {Q : Unit → World × Local → Prop}
    (hs : Calm s)
    (hkeeps : ∀ s₀, Rely t s s₀ → (∀ p, rec.pid = some p → p < s₀.1.nextPid) ∧
      (rec.pid = s₀.2.seen rec.name ∨
        rec.pid = none ∧ ∀ p, s₀.2.seen rec.name = some p → (rec.name, p) ∉ s₀.1.live))
    (h : ∀ s', HasWritten t s rec s' → Q () s') : (write rec writer).wp (threadEnv t) Q s := by
  intro s₀ hrely c _
  have hs₀ := hs.rely hrely
  obtain ⟨hbound, hpid⟩ := hkeeps s₀ hrely
  have hw : Rely t s₀ ((execLocal t (.write rec writer) s₀ c).2.1, s₀.2) :=
    rely_of_write rfl rfl rfl Iff.rfl hbound
  refine ⟨⟨hbound, Or.inr ⟨hs₀.fresh, hpid⟩⟩, h (execLocal t (.write rec writer) s₀ c).2
    ⟨hrely.world hw, ⟨hw.fenced hs₀.fenced, fun m p hp => ?_, ?_⟩, ?_⟩⟩
  · simp only [execLocal, Local.after] at hp
    by_cases hm : m = rec.name
    · subst hm
      rw [update_self] at hp
      exact hbound p hp
    · rw [update_of_ne hm] at hp
      exact hs₀.seen m p hp
  · simp [execLocal, Local.after, hs₀.fresh]
  · simp [Copy, execLocal, Local.after]

theorem wp_writes_copy {rec old : InstanceRecord} {writer : Writer}
    {Q : Unit → World × Local → Prop} (hs : Calm s) (hcopy : Copy old s)
    (hname : rec.name = old.name) (hpid : rec.pid = old.pid)
    (h : ∀ s', HasWritten t s rec s' → Q () s') : (write rec writer).wp (threadEnv t) Q s := by
  refine wp_writes hs (fun s₀ hrely => ?_) h
  have hs₀ := hs.rely hrely
  have hseen : s₀.2.seen rec.name = rec.pid := by
    rw [hname, hpid]
    exact hcopy.rely hrely
  exact ⟨fun p hp => hs₀.seen rec.name p (hseen.trans hp), Or.inl hseen.symm⟩

theorem wp_writes_gone {rec old : InstanceRecord} {writer : Writer}
    {Q : Unit → World × Local → Prop} (hs : Calm s) (hcopy : Copy old s) (hgone : Gone old s)
    (hname : rec.name = old.name) (hpid : rec.pid = none)
    (h : ∀ s', HasWritten t s rec s' → Q () s') : (write rec writer).wp (threadEnv t) Q s := by
  refine wp_writes hs (fun s₀ hrely => ⟨fun p hp => ?_, Or.inr ⟨hpid, fun p hp => ?_⟩⟩) h
  · exact absurd (hpid.symm.trans hp) (by simp)
  · have hold : old.pid = some p := (hcopy.rely hrely).symm.trans (hname ▸ hp)
    rw [hname]
    exact hgone.rely hs hcopy hrely p hold

theorem wp_locks {name : String} {Q : Bool → World × Local → Prop} (hs : Free t s)
    (hbusy : ∀ s', Free t s' → Q false s') (htaken : ∀ s', Holding t s' → Q true s') :
    (act (.lock name)).wp (threadEnv t) Q s := by
  intro s₀ hrely c _
  obtain ⟨hcalm, hlock⟩ := hs.rely hrely
  refine ⟨trivial, ?_⟩
  have hfenced : (execLocal t (.lock name) s₀ c).2.1.Fenced :=
    ⟨fun q hq => hcalm.fenced.live q (mem_live_exits hq), hcalm.fenced.record⟩
  have hcalm' : Calm (execLocal t (.lock name) s₀ c).2 := ⟨hfenced, hcalm.seen, hcalm.fresh⟩
  cases hfree : c.free && s₀.1.lock.isNone with
  | false =>
    have hbusy' := hbusy (execLocal t (.lock name) s₀ c).2 ⟨hcalm', ?_⟩
    · have hanswer : (execLocal t (.lock name) s₀ c).1 = false := hfree
      exact hanswer ▸ hbusy'
    · simpa [execLocal, exec, Act.answer, World.exits, hfree] using hlock
  | true =>
    have htaken' := htaken (execLocal t (.lock name) s₀ c).2 ⟨hcalm', ?_⟩
    · have hanswer : (execLocal t (.lock name) s₀ c).1 = true := hfree
      exact hanswer ▸ htaken'
    · simp [execLocal, exec, Act.answer, World.exits, hfree]

theorem wp_unlocks {Q : Unit → World × Local → Prop} (hs : Holding t s)
    (h : ∀ s', Free t s' → s'.2 = s.2 → Q () s') : (act .unlock).wp (threadEnv t) Q s := by
  intro s₀ hrely c _
  obtain ⟨hcalm, hlock⟩ := hs.rely hrely
  have hfenced : (execLocal t .unlock s₀ c).2.1.Fenced :=
    ⟨fun q hq => hcalm.fenced.live q (mem_live_exits hq), hcalm.fenced.record⟩
  exact ⟨⟨hlock, hcalm.fresh⟩, h (execLocal t .unlock s₀ c).2
    ⟨⟨hfenced, hcalm.seen, hcalm.fresh⟩, (by rintro ⟨⟩)⟩ hrely.own⟩

/-- The operation has spawned a process, and still has to record it. -/
structure Spawned (t : ℕ) (name : String) (pid : ℕ) (s : World × Local) : Prop where
  fenced : s.1.Fenced
  seen : ∀ m p, s.2.seen m = some p → p < s.1.nextPid
  fresh : s.2.fresh = some (name, pid)
  bound : pid < s.1.nextPid
  lock : s.1.lock = some t

theorem wp_spawns {name : String} {spec : SpawnSpec}
    {Q : Except CtlError (ℕ × List String) → World × Local → Prop} (hs : Holding t s)
    (hnone : ∀ q ∈ s.1.live, q.1 ≠ name) (herr : ∀ e s', Holding t s' → Q (.error e) s')
    (hok : ∀ pid keys s', Spawned t name pid s' → Q (.ok (pid, keys)) s') :
    (act (.spawn name spec)).wp (threadEnv t) Q s := by
  intro s₀ hrely c _
  obtain ⟨hcalm, hlock⟩ := hs.rely hrely
  have hnone₀ : ∀ q ∈ s₀.1.live, q.1 ≠ name := fun q hq => hnone q ((hrely.held hs.2).2 q hq)
  refine ⟨⟨hlock, hcalm.fresh, hnone₀⟩, ?_⟩
  show Q (execLocal t (.spawn name spec) s₀ c).1 (execLocal t (.spawn name spec) s₀ c).2
  have hfenced : ∀ q ∈ (s₀.1.exits c.gone).live, q.2 < s₀.1.nextPid :=
    fun q hq => hcalm.fenced.live q (mem_live_exits hq)
  cases hspawn : c.spawn with
  | error e =>
    simp only [execLocal, exec, Act.answer, hspawn, Local.after]
    exact herr e _ ⟨⟨⟨hfenced, hcalm.fenced.record⟩, hcalm.seen, hcalm.fresh⟩, hlock⟩
  | ok keys =>
    simp only [execLocal, exec, Act.answer, hspawn, Local.after]
    have hnext : s₀.1.nextPid ≤ s₀.1.nextPid + c.skipPids + 1 := by omega
    refine hok _ keys _ ⟨⟨fun q hq => ?_, fun m rec p hrec hp => ?_⟩, fun m p hp => ?_, rfl, ?_,
      hlock⟩
    · obtain rfl | hq := List.mem_cons.mp hq
      · exact Nat.lt_succ_self _
      · exact Nat.lt_of_lt_of_le (hfenced q hq) hnext
    · exact Nat.lt_of_lt_of_le (hcalm.fenced.record m rec p hrec hp) hnext
    · exact Nat.lt_of_lt_of_le (hcalm.seen m p hp) hnext
    · exact Nat.lt_succ_self _

theorem wp_records {name : String} {pid : ℕ} {rec : InstanceRecord}
    {Q : Unit → World × Local → Prop} (hs : Spawned t name pid s) (hname : rec.name = name)
    (hpid : rec.pid = some pid) (h : ∀ s', Holding t s' → Copy rec s' → Q () s') :
    (write rec .spawnAndRecord).wp (threadEnv t) Q s := by
  intro s₀ hrely c _
  have hnext := hrely.nextPid
  have hbound : ∀ p, rec.pid = some p → p < s₀.1.nextPid := by
    intro p hp
    obtain rfl : pid = p := Option.some.inj (hpid.symm.trans hp)
    exact Nat.lt_of_lt_of_le hs.bound hnext
  have hlock := (hrely.held hs.lock).1
  have hfresh : s₀.2.fresh = some (rec.name, pid) := by rw [hrely.own, hs.fresh, hname]
  have hw : Rely t s₀ ((execLocal t (.write rec .spawnAndRecord) s₀ c).2.1, s₀.2) :=
    rely_of_write rfl rfl rfl Iff.rfl hbound
  refine ⟨⟨hbound, Or.inl ⟨rfl, hlock, pid, hpid, hfresh⟩⟩,
    h (execLocal t (.write rec .spawnAndRecord) s₀ c).2 ⟨⟨hw.fenced (hrely.fenced hs.fenced),
      fun m p hp => ?_, ?_⟩, (hw.held hlock).1⟩ ?_⟩
  · simp only [execLocal, Local.after] at hp
    by_cases hm : m = rec.name
    · subst hm
      rw [update_self] at hp
      exact hbound p hp
    · rw [update_of_ne hm, hrely.own] at hp
      exact Nat.lt_of_lt_of_le (hs.seen m p hp) hnext
  · simp [execLocal, Local.after]
  · simp [Copy, execLocal, Local.after]

end Actions

/-! Operations that begin and end without the lock. -/

section Safe

variable {t : ℕ} {α : Type}

abbrev Safe (t : ℕ) (p : Op α) : Prop := p.Stays (threadEnv t) (Free t)

theorem safe_silent {a : Act} (h : a.silent = true) : Safe t (act a) :=
  fun _ hs => wp_silent h fun _ _ hrely _ => hs.rely hrely

theorem safe_read (name : String) : Safe t (read name) :=
  fun _ hs => wp_reads hs.1 fun _ _ h => h.free hs

theorem safe_call {p : Op (Except CtlError α)} (hp : Safe t p) : Safe t (call p).run := hp

theorem safe_attempt {p : OpM α} (hp : Safe t p.run) : Safe t (attempt p).run := hp.map _

end Safe

/-! `up`. -/

section Up

variable {t : ℕ} {s : World × Local} {name : String}

theorem safe_observe (rec : InstanceRecord) : Safe t (observe rec) :=
  (safe_silent rfl).bind fun _ => stays_pure _

theorem safe_existingIfReady (name : String) : Safe t (existingIfReady name) := by
  refine (safe_read name).bind fun r => ?_
  cases r with
  | none => exact stays_pure _
  | some rec => exact (safe_observe rec).bind fun _ => stays_pure _

theorem safe_ensureNotLive (name : String) : Safe t (ensureNotLive name).run := by
  refine stays_run_bind (stays_lift (safe_read name)) fun r => ?_
  cases r with
  | none => exact stays_ok _
  | some rec =>
    refine stays_run_bind (stays_lift (safe_observe rec)) fun p => ?_
    cases liveProcessReason rec p with
    | none => exact stays_ok _
    | some reason => exact stays_throw _

theorem wp_existingIfReady_held {Q : Option InstanceRecord → World × Local → Prop}
    (hs : Holding t s) (hnone : ∀ s', Holding t s' → Q none s')
    (hsome : ∀ rec s', Holding t s' → rec.name = name → Copy rec s' → Q (some rec) s') :
    (existingIfReady name).wp (threadEnv t) Q s := by
  rw [existingIfReady, wp_bind]
  refine wp_reads hs.1 fun r s' hread => ?_
  cases r with
  | none => exact hnone s' (hread.holding hs)
  | some rec =>
    obtain ⟨hname, hcopy⟩ := hread.copy rec rfl
    simp only [wp_bind, observe]
    refine wp_silent rfl fun facts s'' hrely _ => ?_
    have hs'' := (hread.holding hs).rely hrely
    simp only [wp_pure]
    split_ifs
    · exact hsome rec s'' hs'' hname (hcopy.rely hrely)
    · exact hnone s'' hs''

theorem wp_ensureNotLive_held {Q : Except CtlError Unit → World × Local → Prop}
    (hs : Holding t s) (herr : ∀ e s', Holding t s' → Q (.error e) s')
    (hok : ∀ s', Holding t s' → (∀ q ∈ s'.1.live, q.1 ≠ name) → Q (.ok ()) s') :
    (ensureNotLive name).run.wp (threadEnv t) Q s := by
  simp only [ensureNotLive, wp_run_bind, wp_run_lift]
  refine wp_reads hs.1 fun r s' hread => ?_
  have hknown := hread.known hs.2
  have hs' := hread.holding hs
  cases r with
  | none =>
    refine hok s' hs' fun q hq hname => ?_
    have hp := hknown q.2 (by rw [← hname]; exact hq)
    exact absurd hp (by simp)
  | some rec =>
    obtain ⟨hname, hcopy⟩ := hread.copy rec rfl
    simp only [onOk_ok, wp_run_bind, wp_run_lift, observe, wp_bind]
    refine wp_silent rfl fun facts s'' hrely htells => ?_
    have hs'' := hs'.rely hrely
    simp only [wp_pure]
    cases hreason : liveProcessReason rec (probeOf rec facts) with
    | some reason => exact herr _ s'' hs''
    | none =>
      have hdead : facts.pidAlive = false ∨ facts.identity ≠ .match := by
        by_contra hlive
        rw [not_or, Bool.not_eq_false, not_not] at hlive
        simp [liveProcessReason, Probe.processIsLiveAndOurs, probeOf, hlive] at hreason
      refine hok s'' hs'' fun q hq hqname => ?_
      have hq' : (name, q.2) ∈ s''.1.live := by rw [← hqname]; exact hq
      have hpid : rec.pid = some q.2 := hknown q.2 ((hrely.held hs'.2).2 _ hq')
      exact htells hdead q.2 hpid (hname ▸ hq')

/-- What is returned is a copy of the record. -/
theorem wp_spawnAndRecord_free {args : UpArgs} {workspace : Option String} {port : ℕ}
    {Q : Except CtlError InstanceRecord → World × Local → Prop} (hs : Free t s)
    (herr : ∀ e s', Free t s' → Q (.error e) s')
    (hok : ∀ rec s', Free t s' → rec.name = args.name → Copy rec s' → Q (.ok rec) s') :
    (spawnAndRecord args workspace port).run.wp (threadEnv t) Q s := by
  simp only [spawnAndRecord, withLock, wp_run_bind, wp_run_lift]
  refine wp_locks hs (fun s' hs' => herr _ s' hs') fun s' hs' => ?_
  simp only [onOk_ok, if_true, wp_run_bind, wp_attempt, wp_run_lift]
  -- what is left to do after the body
  have hfailed : ∀ e s', Holding t s' →
      (act .unlock).wp (threadEnv t) (fun _ => Q (.error e)) s' :=
    fun e s' hs' => wp_unlocks hs' fun s'' hs'' _ => herr e s'' hs''
  have hdone : ∀ rec s', Holding t s' → rec.name = args.name → Copy rec s' →
      (act .unlock).wp (threadEnv t) (fun _ => Q (.ok rec)) s' := by
    intro rec s' hs' hname hcopy
    refine wp_unlocks hs' fun s'' hs'' hown => hok rec s'' hs'' hname ?_
    rw [Copy, hown]
    exact hcopy
  refine wp_existingIfReady_held hs' (fun s' hs' => ?_) fun rec s' hs' hname hcopy => ?_
  · simp only [wp_run_bind]
    refine wp_ensureNotLive_held hs' hfailed
      fun s' hs' hnone => ?_
    simp only [onOk_ok, call, wp_run_bind, wp_run_mk]
    refine wp_spawns hs' hnone hfailed
      fun pid keys s' hspawned => ?_
    simp only [onOk_ok, wp_run_bind, wp_run_lift]
    refine wp_records hspawned rfl rfl fun s' hs' hcopy => ?_
    exact hdone _ s' hs' rfl hcopy
  · exact hdone rec s' hs' hname hcopy

theorem wp_markReadinessTimeout {rec : InstanceRecord} (hs : Free t s) (hcopy : Copy rec s) :
    (markReadinessTimeout rec (rec.pid.getD 0)).wp (threadEnv t) (fun _ => Free t) s := by
  rw [markReadinessTimeout, wp_bind]
  refine wp_silent rfl fun _ s' hrely htells => ?_
  have hs' := hs.rely hrely
  have hgone : Gone rec s' := by
    intro p hp
    have hpid : rec.pid.getD 0 = p := by rw [hp]; rfl
    exact hpid ▸ htells (Or.inl rfl)
  rw [wp_bind]
  exact wp_writes_gone hs'.1 (hcopy.rely hrely) hgone rfl rfl fun _ h => h.free hs'

theorem safe_upOnce (args : UpArgs) (workspace : Option String) (port : ℕ) :
    Safe t (upOnce args workspace port).run := by
  intro s hs
  rw [upOnce, wp_run_bind]
  refine wp_spawnAndRecord_free hs (fun _ _ hs' => hs') fun rec s' hs' _ hcopy => ?_
  simp only [onOk_ok]
  split_ifs
  · exact hs'
  · simp only [wp_run_bind, wp_run_lift]
    refine wp_silent rfl fun outcome s'' hrely _ => ?_
    have hs'' := hs'.rely hrely
    have hcopy' := hcopy.rely hrely
    cases outcome with
    | ready =>
      simp only [onOk_ok, finalizeReady, wp_run_bind, wp_run_lift, wp_bind]
      exact wp_writes_copy hs''.1 hcopy' rfl rfl fun _ h => h.free hs''
    | exited =>
      simp only [onOk_ok, wp_run_bind, wp_run_lift]
      exact wp_writes_copy hs''.1 hcopy' rfl rfl fun _ h => h.free hs''
    | timeout =>
      simp only [onOk_ok, wp_run_bind, wp_run_lift]
      exact wp_markReadinessTimeout hs'' hcopy'

theorem safe_selectPort (args : UpArgs) : Safe t (selectPort args).run := by
  unfold selectPort
  cases args.port with
  | none => exact safe_call (safe_silent rfl)
  | some p =>
    refine stays_run_bind (stays_lift (safe_silent rfl)) fun free => ?_
    cases free with
    | true => exact stays_ok _
    | false => exact stays_throw _

theorem safe_prepareUp (args : UpArgs) : Safe t (prepareUp args).run := by
  refine stays_run_bind (safe_call (stays_pure _)) fun _ => ?_
  refine stays_run_bind (safe_call (safe_silent rfl)) fun workspace => ?_
  refine stays_run_bind (stays_lift (safe_existingIfReady _)) fun r => ?_
  cases r with
  | some rec => exact stays_ok _
  | none =>
    refine stays_run_bind (safe_ensureNotLive _) fun _ => ?_
    refine stays_run_bind (safe_selectPort _) fun port => ?_
    exact stays_run_bind (safe_call (safe_silent rfl)) fun _ => stays_ok _

theorem safe_up (args : UpArgs) : Safe t (up args).run := by
  refine stays_run_bind (safe_prepareUp args) fun launch => ?_
  cases launch with
  | existing rec => exact stays_ok _
  | new workspace port =>
    refine stays_run_bind (safe_attempt (safe_upOnce args workspace port)) fun r => ?_
    cases r with
    | ok out => exact stays_ok _
    | error e =>
      dsimp only
      split_ifs
      · refine stays_run_bind (safe_call (safe_silent rfl)) fun retry => ?_
        refine stays_run_bind (safe_attempt (safe_upOnce args workspace retry)) fun r => ?_
        cases r with
        | ok out => exact stays_ok _
        | error e₂ => exact stays_throw _
      · exact stays_throw _

end Up

/-! `down` and `restart`. -/

section Down

variable {t : ℕ} {s : World × Local}

theorem wp_finishStopped_gone {rec : InstanceRecord} (hs : Free t s) (hcopy : Copy rec s)
    (hgone : Gone rec s) : (finishStopped rec).wp (threadEnv t) (fun _ => Free t) s :=
  wp_writes_gone hs.1 hcopy hgone rfl rfl fun _ h => h.free hs

theorem wp_downRecord_copy {rec : InstanceRecord} (hs : Free t s) (hcopy : Copy rec s) :
    (downRecord rec).run.wp (threadEnv t) (fun _ => Free t) s := by
  simp only [downRecord, livePid, wp_run_bind, wp_run_lift]
  cases hpid : rec.pid with
  | none =>
    simp only [wp_pure, onOk_ok, wp_run_bind, wp_run_lift]
    exact wp_finishStopped_gone hs hcopy fun p hp => absurd (hpid.symm.trans hp) (by simp)
  | some pid =>
    simp only [wp_bind]
    refine wp_silent rfl fun alive s' hrely htells => ?_
    have hs' := hs.rely hrely
    have hcopy' := hcopy.rely hrely
    cases alive with
    | false =>
      simp only [wp_pure, Bool.false_eq_true, if_false, onOk_ok, wp_run_bind,
        wp_run_lift]
      refine wp_finishStopped_gone hs' hcopy' fun p hp => ?_
      exact Option.some.inj (hpid.symm.trans hp) ▸ htells rfl
    | true =>
      simp only [wp_pure, if_true, onOk_ok, wp_run_bind, wp_run_lift]
      refine wp_silent rfl fun ident s₂ hrely₂ _ => ?_
      have hs₂ := hs'.rely hrely₂
      have hcopy₂ := hcopy'.rely hrely₂
      split_ifs
      · exact hs₂
      · simp only [call, wp_run_bind, wp_run_mk]
        refine wp_silent rfl fun r s₃ hrely₃ htells => ?_
        have hs₃ := hs₂.rely hrely₃
        cases r with
        | error e => exact hs₃
        | ok forced =>
          simp only [onOk_ok, wp_run_bind, wp_run_lift]
          refine wp_finishStopped_gone hs₃ (hcopy₂.rely hrely₃) fun p hp => ?_
          exact Option.some.inj (hpid.symm.trans hp) ▸ htells (Or.inr ⟨forced, rfl⟩)

theorem safe_down (name : String) : Safe t (down name).run := by
  refine stays_run_bind (safe_call (stays_pure _)) fun _ s hs => ?_
  simp only [wp_run_bind, wp_run_lift]
  refine wp_reads hs.1 fun r s' hread => ?_
  have hs' := hread.free hs
  cases r with
  | none => exact hs'
  | some rec =>
    simp only [onOk_ok, wp_run_bind, wp_run_lift]
    refine wp_writes_copy hs'.1 (hread.copy rec rfl).2 rfl rfl fun s'' h => ?_
    exact wp_downRecord_copy (h.free hs') h.copy

theorem safe_loadRestartPlan (rec : InstanceRecord) : Safe t (loadRestartPlan rec).run := by
  refine stays_run_bind (stays_lift (safe_silent rfl)) fun decl => ?_
  refine stays_run_bind (stays_lift (safe_silent rfl)) fun site => ?_
  refine stays_run_bind (safe_call (stays_pure _)) fun resolved => ?_
  refine stays_run_bind (safe_call (stays_pure _)) fun args => ?_
  exact stays_run_bind (safe_call (safe_silent rfl)) fun _ => stays_ok _

theorem safe_restart (name : String) : Safe t (restart name).run := by
  refine stays_run_bind (safe_call (stays_pure _)) fun _ => ?_
  refine stays_run_bind (stays_lift (safe_read name)) fun r => ?_
  cases r with
  | none => exact stays_throw _
  | some rec =>
    refine stays_run_bind (safe_loadRestartPlan rec) fun args => ?_
    exact stays_run_bind (safe_down name) fun _ => safe_up args

end Down

/-! The sweep. -/

section Sweep

variable {t : ℕ}

theorem safe_ls : Safe t ls := by
  refine (safe_silent rfl).bind fun names => ?_
  refine (stays_mapM (fun name => ?_) names).bind fun _ => stays_pure _
  refine (safe_read name).bind fun r => ?_
  cases r with
  | none => exact stays_pure _
  | some rec => exact (safe_observe rec).bind fun _ => stays_pure _

theorem safe_scopedPlan (file : InstancesFile) (scope : Option String) :
    Safe t (scopedPlan file scope).run := by
  refine stays_run_bind ?_ fun _ => stays_ok _
  refine stays_run_bind (stays_lift (safe_silent rfl)) fun site => ?_
  refine stays_run_bind (safe_call (stays_pure _)) fun profiles => ?_
  exact stays_run_bind (stays_lift safe_ls) fun _ => safe_call (stays_pure _)

theorem safe_reset (name : String) : Safe t (reset name) := by
  intro s hs
  rw [reset, wp_bind]
  refine wp_reads hs.1 fun r s' hread => ?_
  have hs' := hread.free hs
  cases r with
  | none => exact hs'
  | some rec =>
    dsimp only
    split_ifs
    · exact hs'
    · exact wp_writes_copy hs'.1 (hread.copy rec rfl).2 rfl rfl fun _ h => h.free hs'

theorem safe_book (name : String) (attempt : ℕ) (now : ℤ) (backoff : Backoff) :
    Safe t (book name attempt now backoff).run := by
  intro s hs
  simp only [book, wp_run_bind, wp_run_lift]
  refine wp_reads hs.1 fun r s' hread => ?_
  have hs' := hread.free hs
  cases r with
  | none => exact hs'
  | some rec =>
    simp only [onOk_ok, call, wp_run_bind, wp_run_mk, wp_pure]
    cases backoff.nextFrom now attempt with
    | error e => exact hs'
    | ok next =>
      simp only [onOk_ok, wp_run_lift]
      exact wp_writes_copy hs'.1 (hread.copy rec rfl).2 rfl rfl fun _ h => h.free hs'

theorem safe_sweepStep (observed : List Row) (now : ℤ) (step : Step) :
    Safe t (sweepStep observed now step) := by
  cases step with
  | running name => exact (safe_reset name).bind fun _ => stays_pure _
  | start name spec restart reason =>
    simp only [sweepStep]
    split_ifs
    · exact stays_pure _
    · refine (safe_read name).bind fun r => ?_
      cases gate r now with
      | go attempt => exact stays_pure _
      | wait => exact stays_pure _
  | _ => exact stays_pure _

theorem safe_execUp (name : String) (spec : StartSpec) (restart : Bool) (reason : String) :
    Safe t (execUp name spec restart reason) := by
  refine (safe_up _).bind fun r => ?_
  cases r with
  | ok out => exact stays_pure _
  | error e => exact stays_pure _

theorem safe_runStep (step : Step) : Safe t (runStep step) := by
  cases step with
  | start name spec restart reason =>
    cases restart with
    | false => exact safe_execUp name spec false reason
    | true =>
      refine (safe_down name).bind fun r => ?_
      cases r with
      | error e => exact stays_pure _
      | ok out => exact safe_execUp name spec true reason
  | stop name reason =>
    refine (safe_down name).bind fun r => ?_
    cases r with
    | ok out => exact stays_pure _
    | error e => exact stays_pure _
  | _ => exact stays_pure _

theorem safe_sweep (file : InstancesFile) (scope : Option String) (backoff : Backoff) (now : ℤ) :
    Safe t (sweep file scope backoff now).run := by
  refine stays_run_bind (stays_lift safe_ls) fun observed => ?_
  refine stays_run_bind (safe_scopedPlan file scope) fun steps => ?_
  refine stays_run_bind (stays_lift (stays_mapM (safe_sweepStep observed now) steps)) fun chosen => ?_
  refine stays_run_bind (stays_lift (stays_mapM safe_runStep _)) fun done => ?_
  refine stays_run_bind (stays_forM (fun d => ?_) _) fun _ => stays_ok _
  exact safe_book d.1.name d.2 now backoff

end Sweep

end CrabMate.Ctl
