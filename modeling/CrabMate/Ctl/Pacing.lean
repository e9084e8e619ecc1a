import CrabMate.Ctl.Sweeps

/-! How far apart two starts of an instance are. The supervisor runs one sweep after the other; it
may be killed in any of them, and is then started anew with nothing but the records. -/
namespace CrabMate.Ctl

open Prog (wp_mono)

/-! The delay. -/

namespace Backoff

variable {b : Backoff}

theorem delay_mono {m n : ℕ} (h : Nat.min (m - 1) 16 ≤ Nat.min (n - 1) 16) :
    b.delay m ≤ b.delay n := by
  have hpow : 1 <<< Nat.min (m - 1) 16 ≤ 1 <<< Nat.min (n - 1) 16 := by
    rw [Nat.shiftLeft_eq, Nat.shiftLeft_eq]
    exact Nat.mul_le_mul_left 1 (Nat.pow_le_pow_right Nat.two_pos h)
  have hmul := Nat.mul_le_mul_left b.initial hpow
  refine Nat.le_min.mpr ⟨Nat.le_min.mpr ⟨?_, ?_⟩, Nat.min_le_right _ _⟩
  · exact ((Nat.min_le_left _ _).trans (Nat.min_le_left _ _)).trans hmul
  · exact (Nat.min_le_left _ _).trans (Nat.min_le_right _ _)

/-- The counter saturates long after the delay has. -/
theorem delaySecs_le {count attempts : ℕ} (h : Nat.min count u32Max ≤ attempts) :
    b.delaySecs count ≤ b.delaySecs attempts := by
  refine Nat.div_le_div_right (delay_mono ?_)
  simp only [u32Max, Nat.min_def] at h ⊢
  split_ifs at h ⊢ <;> omega

end Backoff

/-- The time that `n` seconds are, in nanoseconds. -/
def secs (n : ℕ) : ℤ := n * nanosPerSec

/-- The time until which an attempt at `now` is booked lies in the years that can be read back. -/
def InYears (b : Backoff) (now : ℤ) (attempt : ℕ) : Prop :=
  yearZero ≤ now + secs (b.delaySecs attempt) ∧ now + secs (b.delaySecs attempt) < yearTenThousand

instance (b : Backoff) (now : ℤ) (attempt : ℕ) : Decidable (InYears b now attempt) :=
  inferInstanceAs (Decidable (_ ∧ _))

theorem nextFrom_of_inYears {b : Backoff} {now : ℤ} {attempt : ℕ} (hnow : chronoMin ≤ now)
    (h : InYears b now attempt) :
    b.nextFrom now attempt = .ok (now + secs (b.delaySecs attempt)) := by
  obtain ⟨hlow, hhigh⟩ := h
  unfold secs at hlow hhigh ⊢
  simp only [chronoMin, yearZero, yearTenThousand, nanosPerSec] at hnow hlow hhigh
  have hsmall : b.delaySecs attempt < 9223372036854775808 := by omega
  have hsecs : secsAsI64 (b.delaySecs attempt) = b.delaySecs attempt := if_pos hsmall
  unfold Backoff.nextFrom
  rw [hsecs, if_pos]
  simp only [chronoMin, chronoMax, nanosPerSec]
  omega

theorem parse_of_inYears {b : Backoff} {now : ℤ} {attempt : ℕ} (h : InYears b now attempt) :
    Rfc3339.parse ⟨now + secs (b.delaySecs attempt)⟩ = some (now + secs (b.delaySecs attempt)) :=
  if_pos h

theorem limit_le_of_gate {rec : InstanceRecord} {now limit : ℤ} {attempt : ℕ}
    (hgate : gate (some rec) now = .go attempt)
    (hlimit : rec.nextRestartAt.bind Rfc3339.parse = some limit) : limit ≤ now := by
  have hlimit' : ((some rec).bind InstanceRecord.nextRestartAt).bind Rfc3339.parse = some limit :=
    hlimit
  simp only [gate, hlimit'] at hgate
  split_ifs at hgate with h
  exact not_lt.mp h

/-! Rounds. -/

/-- A sweep at `now`, killed after some number of actions or run to its end. -/
structure Round where
  now : ℤ
  file : InstancesFile
  scope : Option String := none
  kill : Option ℕ := none
  choices : List Choice := []

def Round.op (b : Backoff) (round : Round) : Op Unit :=
  match round.kill with
  | none => (fun _ => ()) <$> (sweep round.file round.scope b round.now).run
  | some k => (fun _ => ()) <$> (sweep round.file round.scope b round.now).run.killedAfter k

/-- The state between two rounds: the world, the time of the last round, and for each instance the
time of its last start and the number of consecutive starts, if no round has seen it running
since. -/
structure Pace where
  world : World
  clock : ℤ
  last : String → Option (ℤ × ℕ)

def Event.seesRunning (name : String) : Event → Bool
  | ⟨_, .facts rec, facts⟩ =>
    decide (rec.name = name) && decide (observedState rec facts = .ready)
  | _ => false

namespace Pace

def begin (world : World) (clock : ℤ) : Pace := ⟨world, clock, fun _ => none⟩

/-- The world before a round, with nothing logged. -/
def before (s : Pace) : World := { s.world with log := [] }

/-- The world after a round, with the log of that round alone. The lock goes with its holder. -/
def after (b : Backoff) (s : Pace) (round : Round) : World :=
  { ((round.op b).run (exec 0) round.choices s.before).2 with lock := none }

def starts (b : Backoff) (s : Pace) (round : Round) (name : String) : Bool :=
  (s.after b round).ledger.spawned name

def sees (b : Backoff) (s : Pace) (round : Round) (name : String) : Bool :=
  (s.after b round).log.any (Event.seesRunning name)

def step (b : Backoff) (s : Pace) (round : Round) : Pace where
  world := s.after b round
  clock := round.now
  last name :=
    if s.starts b round name then some (round.now, ((s.last name).map Prod.snd).getD 0 + 1)
    else if s.sees b round name then none
    else s.last name

/-- The times do not go back and what is booked can be read back, and a round is not killed between
the new record of an instance and its booking. -/
structure Admissible (b : Backoff) (s : Pace) (round : Round) : Prop where
  clock : s.clock ≤ round.now
  chrono : chronoMin ≤ round.now
  years : ∀ m rec, s.world.ledger.rec? m = some rec → rec.desiredState = .running →
    gate (some rec) round.now = .go (attemptOf rec) → InYears b round.now (attemptOf rec)
  booked : round.kill ≠ none → ∀ name, ¬ (s.after b round).ledger.LastUp name

/-- If the round starts an instance again, the delay after its last start is over. -/
def Spaced (b : Backoff) (s : Pace) (round : Round) : Prop :=
  ∀ name t n, s.last name = some (t, n) → s.starts b round name = true →
    t + secs (b.delaySecs n) ≤ round.now

end Pace

/-! What a round leaves. -/

section Left

variable {P : (a : Act) → a.Res → Prop} {K : Prop} {σ τ υ : Ledger} {name : String} {b : Backoff}
variable {now : ℤ}

/-- The record that a round leaves; `K` says that the round was killed. -/
inductive LeftRecord (P : (a : Act) → a.Res → Prop) (K : Prop) (b : Backoff) (now : ℤ)
    (name : String) (σ τ : Ledger) : Prop
  | kept (h : SameAt name σ τ)
  | reset (rec : InstanceRecord) (hrec : σ.rec? name = some rec)
      (hwant : rec.desiredState = .running) (hseen : SeenRunning P rec)
      (hτ : τ.rec? name = some rec.cleared) (hspawned : τ.spawned name = σ.spawned name)
  | stopped (h : τ.want? name = some .stopped)
  | up (h : τ.LastUp name) (hkilled : K)
  | booked (rec r : InstanceRecord) (hrec : σ.rec? name = some rec)
      (hwant : rec.desiredState = .running)
      (hgate : gate (some rec) now = .go (attemptOf rec)) (hr : τ.rec? name = some r)
      (hbooked : Booked b now rec r)

/-- What a round has done for `name`, wherever it ends. -/
structure Left (P : (a : Act) → a.Res → Prop) (K : Prop) (b : Backoff) (now : ℤ) (name : String)
    (σ τ : Ledger) : Prop where
  spawned : τ.spawned name = σ.spawned name ∨ Passed σ name now
  record : LeftRecord P K b now name σ τ

theorem Left.congr (h : Left P K b now name σ τ) (hsame : SameAt name τ υ) :
    Left P K b now name σ υ := by
  refine ⟨h.spawned.imp_left hsame.spawned.trans, ?_⟩
  cases h.record with
  | kept h => exact .kept (h.trans hsame)
  | reset rec hrec hwant hseen hτ hspawned =>
    exact .reset rec hrec hwant hseen (hsame.record.trans hτ) (hsame.spawned.trans hspawned)
  | stopped h => exact .stopped (hsame.want?_eq.trans h)
  | up h hkilled =>
    obtain ⟨writer, hlast, hwriter⟩ := h
    exact .up ⟨writer, hsame.last.trans hlast, hwriter⟩ hkilled
  | booked rec r hrec hwant hgate hr hbooked =>
    exact .booked rec r hrec hwant hgate (hsame.record.trans hr) hbooked

theorem Left.write {rec : InstanceRecord} {writer : Writer} (hK : K)
    (h : Left P K b now name σ τ) (hw : SweepWrite P b now name σ τ rec writer) :
    Left P K b now name σ (τ.write rec writer) := by
  cases hw with
  | other _ _ hne => exact h.congr (SameAt.write hne writer)
  | up _ _ hwriter hrec _ => exact ⟨h.spawned, .up ⟨writer, by simp [hrec.name_eq], hwriter⟩ hK⟩
  | down _ _ hname hstopped _ =>
    refine ⟨h.spawned, .stopped ?_⟩
    subst hname
    simp [Ledger.want?, hstopped]
  | book rec₀ _ hrec hwant hgate hname hbooked =>
    refine ⟨h.spawned, .booked rec₀ rec hrec hwant hgate ?_ hbooked⟩
    subst hname
    simp
  | reset rec₀ hrec hwant hseen hspawned =>
    refine ⟨h.spawned, .reset rec₀ hrec hwant hseen ?_ hspawned⟩
    have hname : rec₀.name = name := Ledger.name_of_rec? hrec
    exact hname ▸ Ledger.rec?_write_self τ rec₀.cleared .reset

theorem Left.spawn {m : String} (hK : K) (h : Left P K b now name σ τ)
    (hN : SweepSpawn now name σ τ m) :
    Left P K b now name σ (τ.spawn m) := by
  obtain hm | ⟨hpassed, hlast⟩ := hN
  · exact h.congr ⟨rfl, fun _ => rfl, rfl, by simp [hm]⟩
  · refine ⟨Or.inr hpassed, ?_⟩
    obtain hup | hstopped := hlast
    · exact .up hup hK
    · exact .stopped hstopped

theorem Left.after {a : Act} {r : a.Res} (hK : K) (h : Left P K b now name σ τ)
    (hallowed : Allowed (SweepWrite P b now name σ) (SweepSpawn now name σ) a τ) :
    Left P K b now name σ (τ.after 0 a r) := by
  cases a with
  | write rec writer => exact h.write hK hallowed
  | spawn m spec =>
    cases r with
    | error e => exact h
    | ok x => exact h.spawn hK hallowed
  | lock m => cases r <;> exact h.congr ⟨rfl, fun _ => rfl, rfl, rfl⟩
  | _ => exact h.congr ⟨rfl, fun _ => rfl, rfl, rfl⟩

theorem Swept.left {file : InstancesFile} (h : Swept P file b now name σ τ) :
    Left P K b now name σ τ := by
  cases h with
  | kept h => exact ⟨Or.inl h.spawned, .kept h⟩
  | reset rec hrec hwant hseen hτ hspawned hrecorded =>
    exact ⟨Or.inl hspawned, .reset rec hrec hwant hseen hτ hspawned⟩
  | booked rec r henabled hrec hwant hgate hr hbooked hwrote =>
    exact ⟨Or.inr ⟨rec, hrec, hwant, hgate⟩, .booked rec r hrec hwant hgate hr hbooked⟩

theorem wp_killed_sweep {file : InstancesFile} {scope : Option String} (hlock : σ.lock = none)
    (hbookable : Bookable b now σ) (hK : K) (k : ℕ) :
    ((sweep file scope b now).run.killedAfter k).wp (sweepEnv P b now name σ)
      (fun _ τ => Left P K b now name σ τ) σ := by
  have hstart : Left P K b now name σ σ := ⟨Or.inl rfl, .kept (SameAt.refl name σ)⟩
  have hrun : (sweep file scope b now).run.wp (sweepEnv P b now name σ)
      (fun _ τ => Tidies name σ τ ∧ Swept P file b now name σ τ) σ := wp_sweep hlock hbookable
  refine wp_mono (Prog.wp_killedAfter (I := Left P K b now name σ) ?_ ?_ hrun hstart k)
    fun _ _ h => h.1
  · rintro s _ rfl h
    exact h
  · intro a τ r _ hallowed h
    exact h.after hK hallowed

end Left

/-! The invariant. -/

/-- The answers in which `name` is not seen running. -/
def NotSeen (name : String) : (a : Act) → a.Res → Prop
  | .facts rec, facts => rec.name = name → observedState rec facts ≠ .ready
  | _, _ => True

theorem notSeen_of_event {name : String} {e : Event} (h : e.seesRunning name = false) :
    NotSeen name e.act e.answer := by
  obtain ⟨t, a, r⟩ := e
  cases a with
  | facts rec =>
    intro hname hready
    simp [Event.seesRunning, hname, hready] at h
  | _ => trivial

theorem not_seenRunning {name : String} {rec : InstanceRecord} (hname : rec.name = name) :
    ¬ SeenRunning (NotSeen name) rec := by
  rintro ⟨p, ⟨facts, hfacts, rfl⟩, hready⟩
  exact hfacts hname hready

namespace Pace

variable {b : Backoff} {s : Pace} {round : Round} {name : String}

/-- The record keeps the delay after the last start, or nothing will start the instance again. -/
def Holds (b : Backoff) (t : ℤ) (n : ℕ) (name : String) (σ : Ledger) : Prop :=
  σ.want? name = some .stopped ∨
    ∃ rec limit, σ.rec? name = some rec ∧ Nat.min n u32Max ≤ rec.restartAttempts ∧
      rec.nextRestartAt.bind Rfc3339.parse = some limit ∧ t + secs (b.delaySecs n) ≤ limit

structure Inv (b : Backoff) (s : Pace) (name : String) : Prop where
  lock : s.world.ledger.lock = none
  last : ∀ t n, s.last name = some (t, n) → t ≤ s.clock ∧ Holds b t n name s.world.ledger

theorem bookable (hadm : s.Admissible b round) : Bookable b round.now s.before.ledger :=
  fun m rec hrec hwant hgate =>
    ⟨_, nextFrom_of_inYears hadm.chrono (hadm.years m rec hrec hwant hgate)⟩

theorem left_after {P : (a : Act) → a.Res → Prop} (h : s.Inv b name)
    (hadm : s.Admissible b round) (hlog : ∀ e ∈ (s.after b round).log, P e.act e.answer) :
    Left P (round.kill ≠ none) b round.now name s.before.ledger (s.after b round).ledger := by
  have hlock : s.before.ledger.lock = none := h.lock
  have hop : (round.op b).wp (sweepEnv P b round.now name s.before.ledger)
      (fun _ τ => Left P (round.kill ≠ none) b round.now name s.before.ledger τ)
      s.before.ledger := by
    unfold Round.op
    cases hkill : round.kill with
    | none =>
      refine (Prog.wp_map _ _ _ _).mpr ?_
      exact wp_mono (wp_sweep hlock (bookable hadm)) fun _ _ h => h.2.left
    | some k =>
      exact (Prog.wp_map _ _ _ _).mpr (wp_killed_sweep hlock (bookable hadm) (by simp) k)
  have hrun := ledger_run hop hlog
  exact hrun.congr ⟨rfl, fun _ => rfl, rfl, rfl⟩

theorem not_stopped {σ : Ledger} {rec : InstanceRecord} (hrec : σ.rec? name = some rec)
    (hwant : rec.desiredState = .running) : σ.want? name ≠ some .stopped := by
  simp [Ledger.want?, hrec, hwant]

/-- A booked attempt keeps the delay, also that of an earlier start. -/
theorem holds_of_booked {rec r : InstanceRecord} {τ : Ledger} {t : ℤ} {n : ℕ}
    (hadm : s.Admissible b round) (hrec : s.before.ledger.rec? name = some rec)
    (hwant : rec.desiredState = .running)
    (hgate : gate (some rec) round.now = .go (attemptOf rec)) (hr : τ.rec? name = some r)
    (hbooked : Booked b round.now rec r) (ht : t ≤ round.now)
    (hn : Nat.min n u32Max ≤ attemptOf rec) : Holds b t n name τ := by
  obtain ⟨next, hnext, hr'⟩ := hbooked.next
  have hyears := hadm.years name rec hrec hwant hgate
  obtain rfl : round.now + secs (b.delaySecs (attemptOf rec)) = next :=
    Except.ok.inj ((nextFrom_of_inYears hadm.chrono hyears).symm.trans hnext)
  refine Or.inr ⟨r, round.now + secs (b.delaySecs (attemptOf rec)), hr, ?_, ?_, ?_⟩
  · exact hbooked.attempts ▸ hn
  · rw [hr']
    exact parse_of_inYears hyears
  · have hle : secs (b.delaySecs n) ≤ secs (b.delaySecs (attemptOf rec)) := by
      have hnat := Backoff.delaySecs_le (b := b) hn
      unfold secs nanosPerSec
      omega
    omega

theorem count_le {rec : InstanceRecord} (h : s.Inv b name)
    (hrec : s.before.ledger.rec? name = some rec) (hwant : rec.desiredState = .running) :
    Nat.min (((s.last name).map Prod.snd).getD 0) u32Max ≤ rec.restartAttempts := by
  cases hlast : s.last name with
  | none => simp
  | some last =>
    obtain ⟨-, hholds⟩ := h.last last.1 last.2 hlast
    obtain hstopped | ⟨rec', limit, hrec', hcount, -, -⟩ := hholds
    · exact absurd hstopped (not_stopped hrec hwant)
    · obtain rfl : rec = rec' := Option.some.inj (hrec.symm.trans hrec')
      exact hcount

theorem attemptOf_ge {rec : InstanceRecord} {n : ℕ} (h : Nat.min n u32Max ≤ rec.restartAttempts) :
    Nat.min (n + 1) u32Max ≤ attemptOf rec := by
  simp only [attemptOf, u32Max, Nat.min_def] at h ⊢
  split_ifs at h ⊢ <;> omega

theorem inv_step (h : s.Inv b name) (hadm : s.Admissible b round) :
    (s.step b round).Inv b name := by
  have hnotUp : round.kill ≠ none → ¬ (s.after b round).ledger.LastUp name :=
    fun hkill => hadm.booked hkill name
  refine ⟨rfl, fun t n hlast => ?_⟩
  cases hstarts : s.starts b round name with
  | true =>
    obtain ⟨rfl, rfl⟩ : round.now = t ∧ ((s.last name).map Prod.snd).getD 0 + 1 = n := by
      simpa [step, hstarts] using hlast
    refine ⟨le_refl _, ?_⟩
    have hspawned : (s.after b round).ledger.spawned name ≠ s.before.ledger.spawned name := by
      intro heq
      exact absurd (hstarts.symm.trans heq) (by rintro ⟨⟩)
    cases (left_after (P := fun _ _ => True) h hadm fun _ _ => trivial).record with
    | kept hsame => exact absurd hsame.spawned hspawned
    | reset rec hrec hwant hseen hτ heq => exact absurd heq hspawned
    | stopped hstopped => exact Or.inl hstopped
    | up hup hkilled => exact absurd hup (hnotUp hkilled)
    | booked rec r hrec hwant hgate hr hbooked =>
      exact holds_of_booked hadm hrec hwant hgate hr hbooked (le_refl _)
        (attemptOf_ge (count_le h hrec hwant))
  | false =>
    cases hsees : s.sees b round name with
    | true => simp [step, hstarts, hsees] at hlast
    | false =>
      have hlast : s.last name = some (t, n) := by simpa [step, hstarts, hsees] using hlast
      obtain ⟨hclock, hholds⟩ := h.last t n hlast
      have ht : t ≤ round.now := hclock.trans hadm.clock
      refine ⟨ht, ?_⟩
      have hlog : ∀ e ∈ (s.after b round).log, NotSeen name e.act e.answer := by
        intro e he
        exact notSeen_of_event (by simpa using List.any_eq_false.mp hsees e he)
      cases (left_after h hadm hlog).record with
      | kept hsame =>
        obtain hstopped | ⟨rec, limit, hrec, hrest⟩ := hholds
        · exact Or.inl (hsame.want?_eq.trans hstopped)
        · exact Or.inr ⟨rec, limit, hsame.record.trans hrec, hrest⟩
      | reset rec hrec hwant hseen hτ heq =>
        exact absurd hseen (not_seenRunning (Ledger.name_of_rec? hrec))
      | stopped hstopped => exact Or.inl hstopped
      | up hup hkilled => exact absurd hup (hnotUp hkilled)
      | booked rec r hrec hwant hgate hr hbooked =>
        refine holds_of_booked hadm hrec hwant hgate hr hbooked ht ?_
        have hcount := count_le h hrec hwant
        rw [hlast] at hcount
        have hge := attemptOf_ge hcount
        refine le_trans ?_ hge
        simp only [Option.map_some, Option.getD_some, Nat.min_def]
        split_ifs <;> omega

theorem spaced_of_inv (h : ∀ name, s.Inv b name) (hadm : s.Admissible b round) :
    s.Spaced b round := by
  intro name t n hlast hstarts
  obtain heq | ⟨rec, hrec, hwant, hgate⟩ :=
    (left_after (P := fun _ _ => True) (h name) hadm fun _ _ => trivial).spawned
  · exact absurd (hstarts.symm.trans heq) (by rintro ⟨⟩)
  · obtain ⟨-, hstopped | ⟨rec', limit, hrec', -, hlimit, hle⟩⟩ := (h name).last t n hlast
    · exact absurd hstopped (not_stopped hrec hwant)
    · obtain rfl : rec = rec' := Option.some.inj (hrec.symm.trans hrec')
      exact hle.trans (limit_le_of_gate hgate hlimit)

end Pace

/-- Between two starts of an instance lies the delay after the first, however often the supervisor
is killed and started anew, in every run in which each round is admissible. -/
theorem restarts_keep_backoff (b : Backoff) (world : World) (clock : ℤ)
    (hlock : world.lock = none) (rounds : List Round)
    (hrounds : Run.AllOk (Pace.step b) (Pace.Admissible b) (Pace.begin world clock) rounds)
    (before after : List Round) (round : Round) (hsplit : rounds = before ++ round :: after) :
    (Run.run (Pace.step b) (Pace.begin world clock) before).Spaced b round := by
  subst hsplit
  obtain ⟨hbefore, hround, -⟩ := (Run.allOk_append _ _ _ _ _).mp hrounds
  refine Pace.spaced_of_inv (fun name => ?_) hround
  have hstart : (Pace.begin world clock).Inv b name := ⟨hlock, (by rintro _ _ ⟨⟩)⟩
  have hstep : ∀ s r, Pace.Inv b s name → s.Admissible b r → (s.step b r).Inv b name :=
    fun _ _ => Pace.inv_step
  exact Run.invariant hstep hstart hbefore

/-- An instance whose process has exited. -/
def crashedA : World where
  records := ⟨[{ name := "a", state := .ready, port := some 8080, pid := some 1, pgid := some 1 }],
    by decide⟩
  live := []
  nextPid := 2
  lock := none
  log := []

def shortBackoff : Backoff :=
  Backoff.new nanosPerSec (60 * nanosPerSec) (by decide) (by decide)

theorem nodup_singleA : ([("a", ({} : Declaration))].map Prod.fst).Nodup := by decide

def sweepA (now : ℤ) (kill : Option ℕ) (gone : List ℕ) : Round where
  now := now
  file := ⟨[("a", {})], nodup_singleA⟩
  kill := kill
  choices := [{ gone }]

theorem years_of_rows {b : Backoff} {now : ℤ} {w : World}
    (h : w.records.rows.all (fun rec => decide (InYears b now (attemptOf rec))) = true) (m : String)
    (rec : InstanceRecord) (hrec : w.ledger.rec? m = some rec) : InYears b now (attemptOf rec) := by
  obtain ⟨hmem, -⟩ := Table.lookup_eq_some_iff.mp hrec
  exact of_decide_eq_true (List.all_eq_true.mp h rec hmem)

theorem restarts_keep_backoff_twice :
    let s := (Pace.begin crashedA 0).step shortBackoff (sweepA 0 none [])
    s.last "a" = some (0, 1) ∧ s.starts shortBackoff (sweepA 1000000000 none [2]) "a" = true ∧
      s.Spaced shortBackoff (sweepA 1000000000 none [2]) := by
  refine ⟨by decide +kernel, by decide +kernel, ?_⟩
  refine restarts_keep_backoff shortBackoff crashedA 0 rfl
    [sweepA 0 none [], sweepA 1000000000 none [2]]
    ⟨⟨?_, ?_, ?_, fun hkill => absurd rfl hkill⟩, ⟨?_, ?_, ?_, fun hkill => absurd rfl hkill⟩, trivial⟩
    [sweepA 0 none []] [] _ rfl
  · decide
  · decide
  · exact fun m rec hrec _ _ => years_of_rows (by decide +kernel) m rec hrec
  · decide
  · decide
  · exact fun m rec hrec _ _ => years_of_rows (by decide +kernel) m rec hrec

/-- A sweep is killed after it has brought the instance up and before it has booked the attempt: the
next one starts the instance at once. -/
theorem killed_sweep_forgets_backoff :
    let s := (Pace.begin crashedA 0).step shortBackoff (sweepA 0 (some 29) [])
    ¬ s.Spaced shortBackoff (sweepA 1 none [2]) := by
  intro s hspaced
  have hlast : s.last "a" = some (0, 1) := by decide +kernel
  have hstarts : s.starts shortBackoff (sweepA 1 none [2]) "a" = true := by decide +kernel
  have hdelay := hspaced "a" 0 1 hlast hstarts
  exact absurd hdelay (by decide +kernel)

end CrabMate.Ctl
