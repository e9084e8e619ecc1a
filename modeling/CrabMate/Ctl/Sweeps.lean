import CrabMate.Ctl.Plans

/-! What a health sweep does for one instance: nothing, or it puts the backoff back because the
instance was seen running, or it makes an attempt and books it. -/
namespace CrabMate.Ctl
open List Prog

open Prog (wp_mono)

variable {P : (a : Act) → a.Res → Prop} {σ : Ledger} {name : String} {file : InstancesFile}
variable {b : Backoff} {now : ℤ}

/-- The number under which the next attempt is booked. -/
def attemptOf (rec : InstanceRecord) : ℕ := Nat.min (rec.restartAttempts + 1) u32Max

theorem gate_go {rec : InstanceRecord} {attempt : ℕ} (h : gate (some rec) now = .go attempt) :
    attempt = attemptOf rec := by
  cases hlimit : ((some rec).bind InstanceRecord.nextRestartAt).bind Rfc3339.parse with
  | none =>
    simp only [gate, hlimit] at h
    exact (Gate.go.inj h).symm
  | some limit =>
    simp only [gate, hlimit] at h
    split_ifs at h
    exact (Gate.go.inj h).symm

/-- An attempt that may be made at `now` can be booked. -/
def Bookable (b : Backoff) (now : ℤ) (σ : Ledger) : Prop :=
  ∀ m rec, σ.rec? m = some rec → rec.desiredState = .running →
    gate (some rec) now = .go (attemptOf rec) →
    ∃ next, b.nextFrom now (attemptOf rec) = .ok next

/-- `r` has the booking of an attempt that was made when the record was `rec`. -/
structure Booked (b : Backoff) (now : ℤ) (rec r : InstanceRecord) : Prop where
  attempts : r.restartAttempts = attemptOf rec
  next : ∃ next, b.nextFrom now (attemptOf rec) = .ok next ∧ r.nextRestartAt = some ⟨next⟩
  wanted : r.desiredState = .running

def InstanceRecord.cleared (rec : InstanceRecord) : InstanceRecord :=
  { rec with restartAttempts := 0, nextRestartAt := none }

/-- The plan finds the instance running. -/
def SeenRunning (P : (a : Act) → a.Res → Prop) (rec : InstanceRecord) : Prop :=
  ∃ p, Reported P rec p ∧ p.observed = .ready

/-- The instance is wanted, and its backoff is over at `now`. -/
def Passed (σ : Ledger) (name : String) (now : ℤ) : Prop :=
  ∃ rec, σ.rec? name = some rec ∧ rec.desiredState = .running ∧
    gate (some rec) now = .go (attemptOf rec)

/-- The starts of a sweep, seen from `name`. -/
def SweepSpawn (now : ℤ) (name : String) (σ τ : Ledger) (m : String) : Prop :=
  m ≠ name ∨ Passed σ name now ∧ (τ.LastUp name ∨ τ.want? name = some .stopped)

/-- The writes of a sweep, seen from `name`. -/
inductive SweepWrite (P : (a : Act) → a.Res → Prop) (b : Backoff) (now : ℤ) (name : String)
    (σ τ : Ledger) : InstanceRecord → Writer → Prop
  | other (rec : InstanceRecord) (writer : Writer) (h : rec.name ≠ name) :
      SweepWrite P b now name σ τ rec writer
  | up (rec : InstanceRecord) (writer : Writer) (hwriter : writer.isUp = true)
      (hrec : UpRecord name rec)
      (hafter : writer ≠ .spawnAndRecord → τ.wrote .spawnAndRecord name = true) :
      SweepWrite P b now name σ τ rec writer
  | down (rec : InstanceRecord) (writer : Writer) (hname : rec.name = name)
      (hstopped : rec.desiredState = .stopped)
      (hwriter : writer = .down ∨ writer = .finishStopped) :
      SweepWrite P b now name σ τ rec writer
  | book (rec r : InstanceRecord) (hrec : σ.rec? name = some rec)
      (hwant : rec.desiredState = .running)
      (hgate : gate (some rec) now = .go (attemptOf rec)) (hname : r.name = name)
      (hbooked : Booked b now rec r) :
      SweepWrite P b now name σ τ r .book
  | reset (rec : InstanceRecord) (hrec : σ.rec? name = some rec)
      (hwant : rec.desiredState = .running) (hseen : SeenRunning P rec)
      (hspawned : τ.spawned name = σ.spawned name) :
      SweepWrite P b now name σ τ rec.cleared .reset

/-- The outcome of a sweep for `name`. -/
inductive Swept (P : (a : Act) → a.Res → Prop) (file : InstancesFile) (b : Backoff) (now : ℤ)
    (name : String) (σ τ : Ledger) : Prop
  | kept (h : SameAt name σ τ)
  | reset (rec : InstanceRecord) (hrec : σ.rec? name = some rec)
      (hwant : rec.desiredState = .running) (hseen : SeenRunning P rec)
      (hτ : τ.rec? name = some rec.cleared) (hspawned : τ.spawned name = σ.spawned name)
      (hrecorded : τ.wrote .spawnAndRecord name = σ.wrote .spawnAndRecord name)
  | booked (rec r : InstanceRecord) (henabled : enabledIn file name = true)
      (hrec : σ.rec? name = some rec) (hwant : rec.desiredState = .running)
      (hgate : gate (some rec) now = .go (attemptOf rec)) (hr : τ.rec? name = some r)
      (hbooked : Booked b now rec r) (hwrote : τ.wrote .book name = true)

/-- What the first part of a sweep has chosen for the step: nothing, or an attempt. -/
def Chosen (file : InstancesFile) (σ : Ledger) (now : ℤ) (step : Step) :
    Option (Step × ℕ) → Prop
  | none => True
  | some due => due.1 = step ∧ enabledIn file step.name = true ∧
      (∃ spec restart reason, step = .start step.name spec restart reason) ∧
      ∃ rec, σ.rec? step.name = some rec ∧ rec.desiredState = .running ∧
        gate (some rec) now = .go (attemptOf rec) ∧ due.2 = attemptOf rec

/-- Before the execution: the record of `name` is as it was, or its backoff has been put back. -/
inductive Rested (P : (a : Act) → a.Res → Prop) (name : String) (steps : List Step)
    (σ τ : Ledger) : Prop
  | kept (h : SameAt name σ τ)
  | reset (rec : InstanceRecord) (hstep : Step.running name ∈ steps)
      (hrec : σ.rec? name = some rec) (hwant : rec.desiredState = .running)
      (hseen : SeenRunning P rec) (hτ : τ.rec? name = some rec.cleared)
      (hspawned : τ.spawned name = σ.spawned name)
      (hrecorded : τ.wrote .spawnAndRecord name = σ.wrote .spawnAndRecord name)

/-- The surroundings in which a sweep is followed from `σ`. -/
abbrev sweepEnv (P : (a : Act) → a.Res → Prop) (b : Backoff) (now : ℤ) (name : String)
    (σ : Ledger) : Prog.Env Act Act.Res Ledger Act.Res :=
  ledgerEnv P (SweepWrite P b now name σ) (SweepSpawn now name σ)

theorem permitsOther_sweep :
    PermitsOther (SweepWrite P b now name σ) (SweepSpawn now name σ) name :=
  ⟨fun _ rec writer => .other rec writer, fun _ _ => Or.inl⟩

theorem permitsOwn_sweep (h : Passed σ name now) :
    PermitsOwn (SweepWrite P b now name σ) (SweepSpawn now name σ) name :=
  ⟨fun _ rec writer => .up rec writer, fun _ rec writer => .down rec writer,
    fun _ hlast => Or.inr ⟨h, Or.inl hlast⟩, fun _ hstopped => Or.inr ⟨h, Or.inr hstopped⟩⟩

theorem wp_reset {τ : Ledger} {m : String} {Q : Unit → Ledger → Prop} (hkept : Q () τ)
    (hreset : ∀ rec, τ.rec? m = some rec → SweepWrite P b now name σ τ rec.cleared .reset ∧
      Q () (τ.write rec.cleared .reset)) : (reset m).wp (sweepEnv P b now name σ) Q τ := by
  rw [reset, wp_bind]
  apply wp_read
  cases hrec : τ.rec? m with
  | none => exact hkept
  | some rec =>
    dsimp only
    split_ifs with h
    · exact hkept
    · exact wp_write (hreset rec hrec).1 (hreset rec hrec).2

theorem wp_book {τ : Ledger} {m : String} {attempt : ℕ} {Q : Except CtlError Unit → Ledger → Prop}
    (hnext : ∃ next, b.nextFrom now attempt = .ok next) (hnone : τ.rec? m = none → Q (.ok ()) τ)
    (hsome : ∀ rec r next, τ.rec? m = some rec → b.nextFrom now attempt = .ok next →
      r = { rec with restartAttempts := attempt, nextRestartAt := some ⟨next⟩,
                     desiredState := .running } →
      SweepWrite P b now name σ τ r .book ∧ Q (.ok ()) (τ.write r .book)) :
    (book m attempt now b).run.wp (sweepEnv P b now name σ) Q τ := by
  obtain ⟨next, hnext⟩ := hnext
  simp only [book, wp_run_bind, wp_run_lift]
  apply wp_read
  cases hrec : τ.rec? m with
  | none => exact hnone hrec
  | some rec =>
    simp only [onOk_ok, call, wp_run_bind, wp_run_mk, wp_pure, hnext,
      wp_run_lift]
    obtain ⟨hw, hq⟩ := hsome rec _ next hrec hnext rfl
    exact wp_write hw hq

theorem Rested.congr {τ υ : Ledger} {steps : List Step} (h : Rested P name steps σ τ)
    (hsame : SameAt name τ υ) : Rested P name steps σ υ := by
  cases h with
  | kept h => exact .kept (h.trans hsame)
  | reset rec hstep hrec hwant hseen hτ hspawned hrecorded =>
    exact .reset rec hstep hrec hwant hseen (hsame.record.trans hτ)
      (hsame.spawned.trans hspawned) ((hsame.wrote _).trans hrecorded)

/-- What is left of the first part of a sweep when the steps of `rest` remain. -/
structure Choosing (P : (a : Act) → a.Res → Prop) (name : String) (steps : List Step) (σ : Ledger)
    (rest : List Step) (τ : Ledger) : Prop where
  lock : τ.lock = none
  nodup : (rest.map Step.name).Nodup
  subset : rest ⊆ steps
  record : ∀ step ∈ rest, τ.rec? step.name = σ.rec? step.name
  same : name ∈ rest.map Step.name → SameAt name σ τ
  rested : Rested P name steps σ τ

theorem Choosing.tail {steps rest : List Step} {step : Step} {τ : Ledger}
    (h : Choosing P name steps σ (step :: rest) τ) : Choosing P name steps σ rest τ where
  lock := h.lock
  nodup := (nodup_cons.mp h.nodup).2
  subset := fun _ hx => h.subset (mem_cons_of_mem _ hx)
  record := fun x hx => h.record x (mem_cons_of_mem _ hx)
  same := fun hin => h.same (mem_cons_of_mem _ hin)
  rested := h.rested

theorem Choosing.write {steps rest : List Step} {step : Step} {τ : Ledger} {r : InstanceRecord}
    (h : Choosing P name steps σ (step :: rest) τ) (hr : r.name = step.name)
    (hrested : Rested P name steps σ (τ.write r .reset)) :
    Choosing P name steps σ rest (τ.write r .reset) := by
  obtain ⟨hnotin, hnodup⟩ := nodup_cons.mp h.nodup
  have hne : ∀ n ∈ rest.map Step.name, r.name ≠ n := by
    rintro n hn rfl
    exact hnotin (hr ▸ hn)
  refine ⟨h.lock, hnodup, h.tail.subset, fun x hx => ?_, fun hin => ?_, hrested⟩
  · rw [Ledger.rec?_write_of_ne _ _ (hne _ (mem_map_of_mem hx))]
    exact h.tail.record x hx
  · exact (h.tail.same hin).trans (SameAt.write (hne _ hin) .reset)

theorem wp_sweepStep {observed : List Row} {steps rest : List Step} {step : Step} {τ : Ledger}
    (hobs : Observes P σ observed) (happlies : ∀ step ∈ steps, Applies P file σ step)
    (h : Choosing P name steps σ (step :: rest) τ) :
    (sweepStep observed now step).wp (sweepEnv P b now name σ)
      (fun y τ' => Choosing P name steps σ rest τ' ∧ Chosen file σ now step y) τ := by
  have hstep : step ∈ steps := h.subset mem_cons_self
  have hrec : τ.rec? step.name = σ.rec? step.name := h.record step mem_cons_self
  cases step with
  | running m =>
    simp only [sweepStep, wp_bind]
    refine wp_reset ⟨h.tail, trivial⟩ fun rec hm => ?_
    have hmname : rec.name = m := Ledger.name_of_rec? hm
    by_cases hname : m = name
    · subst hname
      have hsame : SameAt m σ τ := h.same mem_cons_self
      obtain ⟨rec', hrec', hwant, hseen⟩ : ∃ rec', σ.rec? m = some rec' ∧
          rec'.desiredState = .running ∧ SeenRunning P rec' := by
        cases happlies _ hstep with
        | running n rec' p hrec' hwant hp hready => exact ⟨rec', hrec', hwant, p, hp, hready⟩
      obtain rfl : rec = rec' := Option.some.inj (hm.symm.trans (hrec.trans hrec'))
      refine ⟨.reset rec hrec' hwant hseen hsame.spawned, h.write hmname ?_, trivial⟩
      refine .reset rec hstep hrec' hwant hseen ?_ hsame.spawned ?_
      · exact hmname ▸ Ledger.rec?_write_self τ rec.cleared .reset
      · simp [hsame.wrote]
    · refine ⟨.other _ _ (hmname ▸ hname), h.write hmname ?_, trivial⟩
      exact h.rested.congr (SameAt.write (hmname ▸ hname) .reset)
  | start m spec restart reason =>
    simp only [sweepStep]
    split_ifs with hfail
    · exact ⟨h.tail, trivial⟩
    · rw [wp_bind]
      apply wp_read
      have hexists : ∃ rec, σ.rec? m = some rec := by
        have hcurrent := hobs.current m
        cases hfind : findCurrent observed m with
        | none => simp [observedOf, hfind, isFailure] at hfail
        | some row =>
          rw [hfind] at hcurrent
          exact ⟨row.1, hcurrent.1⟩
      obtain ⟨rec, hσ⟩ := hexists
      rw [show τ.rec? m = some rec from hrec.trans hσ]
      cases hgate : gate (some rec) now with
      | wait => exact ⟨h.tail, trivial⟩
      | go attempt =>
        obtain rfl := gate_go hgate
        cases happlies _ hstep with
        | fresh _ _ _ _ hnone => exact absurd (hnone.symm.trans hσ) (by simp)
        | restart _ _ _ r henabled hr hwant =>
          obtain rfl : rec = r := Option.some.inj (hσ.symm.trans hr)
          exact ⟨h.tail, rfl, henabled, ⟨spec, _, reason, rfl⟩, rec, hσ, hwant, hgate, rfl⟩
  | _ => exact ⟨h.tail, trivial⟩

/-! The attempts that were chosen. -/

theorem due_sublist {steps : List Step} {chosen : List (Option (Step × ℕ))}
    (h : List.Forall₂ (Chosen file σ now) steps chosen) :
    ((chosen.filterMap id).map Prod.fst).Sublist steps := by
  induction h with
  | nil => exact List.Sublist.slnil
  | @cons step y steps chosen hy _ ih =>
    cases y with
    | none => exact ih.cons step
    | some due =>
      obtain ⟨rfl, -⟩ := hy
      exact ih.cons_cons due.1

theorem chosen_of_mem {steps : List Step} {chosen : List (Option (Step × ℕ))}
    (h : List.Forall₂ (Chosen file σ now) steps chosen) {due : Step × ℕ}
    (hdue : due ∈ chosen.filterMap id) : Chosen file σ now due.1 (some due) := by
  induction h with
  | nil => exact absurd hdue not_mem_nil
  | @cons step y steps chosen hy _ ih =>
    cases y with
    | none => exact ih hdue
    | some d =>
      obtain rfl | hdue := mem_cons.mp hdue
      · obtain ⟨rfl, hy⟩ := hy
        exact ⟨rfl, hy⟩
      · exact ih hdue

theorem Ran.exists_rec {τ : Ledger} {rec : InstanceRecord} (h : Ran P file name σ τ)
    (hrec : σ.rec? name = some rec) : ∃ r, τ.rec? name = some r := by
  have hwant : ∀ d, τ.want? name = some d → ∃ r, τ.rec? name = some r := by
    intro d hd
    obtain ⟨r, hr, -⟩ := Option.map_eq_some_iff.mp hd
    exact ⟨r, hr⟩
  cases h with
  | kept h => exact ⟨rec, h.record.trans hrec⟩
  | started r _ _ hr _ _ => exact ⟨r, hr⟩
  | failed _ _ _ hstopped _ _ => exact hwant _ hstopped
  | stopped _ _ hstopped _ _ _ => exact hwant _ hstopped

theorem Rested.tidies {τ : Ledger} {steps : List Step} (h : Rested P name steps σ τ)
    (hlock : τ.lock = none) : Tidies name σ τ := by
  cases h with
  | kept h => exact .of_sameAt h hlock
  | reset rec _ hrec _ _ hτ _ _ =>
    refine ⟨hlock, fun htidy => ?_⟩
    have hstate : rec.state ≠ .starting := htidy.settled rec hrec
    exact .of_rec? hlock hτ hstate (htidy.valid rec hrec)

theorem Rested.swept {τ υ : Ledger} {steps : List Step} (h : Rested P name steps σ τ)
    (hsame : SameAt name τ υ) : Swept P file b now name σ υ := by
  cases h.congr hsame with
  | kept h => exact .kept h
  | reset rec _ hrec hwant hseen hυ hspawned hrecorded =>
    exact .reset rec hrec hwant hseen hυ hspawned hrecorded

/-- An instance for which an attempt was chosen has not been found running. -/
theorem Rested.same_of_start {τ : Ledger} {steps : List Step} {step : Step}
    (h : Rested P name steps σ τ) (hnodup : (steps.map Step.name).Nodup) (hstep : step ∈ steps)
    (hname : step.name = name)
    (hstart : ∃ spec restart reason, step = .start step.name spec restart reason) :
    SameAt name σ τ := by
  cases h with
  | kept h => exact h
  | reset rec hrunning _ _ _ _ _ _ =>
    obtain rfl : step = .running name := inj_on_of_nodup_map hnodup hstep hrunning hname
    obtain ⟨spec, restart, reason, hstart⟩ := hstart
    exact absurd hstart (by simp)

/-- What is left of the booking when the attempts of `rest` remain. -/
structure Booking (b : Backoff) (now : ℤ) (name : String) (due : List (Step × ℕ)) (σ υ : Ledger)
    (rest : List (Step × ℕ)) (φ : Ledger) : Prop where
  tidies : Tidies name υ φ
  nodup : (rest.map fun d => d.1.name).Nodup
  subset : rest ⊆ due
  same : name ∈ rest.map (fun d => d.1.name) ∨ name ∉ due.map (fun d => d.1.name) →
    SameAt name υ φ
  booked : name ∈ due.map (fun d => d.1.name) → name ∉ rest.map (fun d => d.1.name) →
    ∃ rec r, σ.rec? name = some rec ∧ φ.rec? name = some r ∧ Booked b now rec r ∧
      φ.wrote .book name = true

theorem wp_book_round {due rest : List (Step × ℕ)} {d : Step × ℕ} {υ φ : Ledger}
    (hbookable : Bookable b now σ) (hchosen : ∀ d ∈ due, Chosen file σ now d.1 (some d))
    (hexists : name ∈ due.map (fun d => d.1.name) → ∃ r, υ.rec? name = some r)
    (h : Booking b now name due σ υ (d :: rest) φ) :
    (book d.1.name d.2 now b).run.wp (sweepEnv P b now name σ)
      (Prog.onOk (fun _ => Booking b now name due σ υ rest) fun _ _ => False) φ := by
  have hd : d ∈ due := h.subset mem_cons_self
  have hsub : rest ⊆ due := fun x hx => h.subset (mem_cons_of_mem _ hx)
  obtain ⟨hnotin, hrest⟩ := nodup_cons.mp h.nodup
  obtain ⟨-, -, -, rec, hrec, hwant, hgate, hattempt⟩ := hchosen d hd
  obtain ⟨next, hnext⟩ := hbookable _ rec hrec hwant hgate
  rw [hattempt]
  by_cases hname : d.1.name = name
  · have hin : name ∈ due.map fun d => d.1.name := hname ▸ mem_map_of_mem hd
    have hsame : SameAt name υ φ := h.same (Or.inl (hname ▸ mem_cons_self))
    have hout : name ∉ rest.map fun d => d.1.name := hname ▸ hnotin
    obtain ⟨r₀, hr₀⟩ := hexists hin
    rw [hname] at hrec ⊢
    refine wp_book ⟨next, hnext⟩ (fun hnone => ?_) fun r r' next' hr hnext' hr' => ?_
    · exact absurd (hnone.symm.trans (hsame.record.trans hr₀)) (by simp)
    · have hr₁ : r.name = name := Ledger.name_of_rec? hr
      have hrname : r'.name = name := by rw [hr', hr₁]
      have hbooked : Booked b now rec r' := by
        rw [hr']
        exact ⟨rfl, ⟨next', hnext', rfl⟩, rfl⟩
      have hself : (φ.write r' .book).rec? name = some r' :=
        hrname ▸ Ledger.rec?_write_self φ r' .book
      have htidies : Tidies name φ (φ.write r' .book) := by
        refine ⟨h.tidies.lock, fun htidy => ?_⟩
        have hstate : r'.state ≠ .starting := by
          rw [hr']
          exact htidy.settled r hr
        exact .of_rec? h.tidies.lock hself hstate (htidy.valid r hr)
      refine ⟨.book rec r' hrec hwant hgate hrname hbooked, h.tidies.trans htidies, hrest, hsub,
        fun hor => ?_, fun _ _ => ⟨rec, r', hrec, hself, hbooked, by simp [hrname]⟩⟩
      obtain hin' | hout' := hor
      · exact absurd hin' hout
      · exact absurd hin hout'
  · have hkeep : ∀ {φ' : Ledger}, φ'.lock = none → SameAt name φ φ' →
        Booking b now name due σ υ rest φ' := by
      intro φ' hlock hφ'
      refine ⟨h.tidies.trans (.of_sameAt hφ' hlock), hrest, hsub, fun hor => ?_,
        fun hin hout => ?_⟩
      · exact (h.same (hor.imp_left fun hin => mem_cons_of_mem _ hin)).trans hφ'
      · have hout' : name ∉ (d :: rest).map fun d => d.1.name := by
          rintro (_ | ⟨_, hin'⟩)
          · exact hname rfl
          · exact hout hin'
        obtain ⟨rec, r, hrec, hr, hbooked, hwrote⟩ := h.booked hin hout'
        exact ⟨rec, r, hrec, hφ'.record.trans hr, hbooked, (hφ'.wrote _).trans hwrote⟩
    refine wp_book ⟨next, hnext⟩ (fun _ => hkeep h.tidies.lock (SameAt.refl name φ))
      fun r r' next' hr hnext' hr' => ?_
    have hrname : r'.name ≠ name := by
      rw [hr']
      exact Ledger.name_of_rec? hr ▸ hname
    exact ⟨.other _ _ hrname, hkeep h.tidies.lock (SameAt.write hrname .book)⟩

/-- One sweep, seen from `name`. -/
theorem wp_sweep {scope : Option String} (hlock : σ.lock = none)
    (hbookable : Bookable b now σ) :
    (sweep file scope b now).run.wp (sweepEnv P b now name σ)
      (fun _ τ => Tidies name σ τ ∧ Swept P file b now name σ τ) σ := by
  simp only [sweep, wp_run_bind, wp_run_lift]
  refine wp_ls fun observed hobs => ?_
  simp only [onOk_ok, wp_run_bind]
  refine wp_scopedPlan (fun e => ⟨Tidies.refl hlock, .kept (SameAt.refl name σ)⟩)
    fun steps hplanned => ?_
  simp only [onOk_ok, wp_run_bind, wp_run_lift]
  have hstart : Choosing P name steps σ steps σ :=
    ⟨hlock, hplanned.nodup, fun _ h => h, fun _ _ => rfl, fun _ => SameAt.refl name σ,
      .kept (SameAt.refl name σ)⟩
  refine wp_mono (wp_mapM (sweepStep observed now) (Choosing P name steps σ)
    (Chosen file σ now) hstart fun step rest τ h => wp_sweepStep hobs hplanned.step h) fun chosen τ hτ => ?_
  obtain ⟨hchoosing, hrel⟩ := hτ
  set due := chosen.filterMap id with hdue
  have hchosen : ∀ d ∈ due, Chosen file σ now d.1 (some d) := fun d hd => chosen_of_mem hrel hd
  have hsub : (due.map Prod.fst).Sublist steps := due_sublist hrel
  have hnames : (due.map Prod.fst).map Step.name = due.map fun d => d.1.name := by
    rw [map_map]
    rfl
  have hnodup : ((due.map Prod.fst).map Step.name).Nodup := (hsub.map _).nodup hplanned.nodup
  -- the attempt for `name`, if there is one, finds the record as the plan did
  have hown : ∀ d ∈ due, d.1.name = name → SameAt name σ τ := fun d hd hname =>
    hchoosing.rested.same_of_start hplanned.nodup (hsub.subset (mem_map_of_mem hd)) hname
      (hchosen d hd).2.2.1
  have hpassed : ∀ d ∈ due, d.1.name = name → Passed σ name now := by
    intro d hd hname
    obtain ⟨-, -, -, rec, hrec, hwant, hgate, -⟩ := hchosen d hd
    exact ⟨rec, hname ▸ hrec, hwant, hgate⟩
  have hrun : ∀ step ∈ due.map Prod.fst, step.name = name → ∀ υ, υ.lock = none →
      SameAt name τ υ → (runStep step).wp (sweepEnv P b now name σ)
        (fun _ φ => Tidies name υ φ ∧ Ran P file name υ φ) υ := by
    intro step hstep hname υ hυlock hsame
    obtain ⟨d, hd, rfl⟩ := mem_map.mp hstep
    obtain ⟨rec, hrec, hwant, hgate⟩ := hpassed d hd hname
    have hsame' : SameAt name σ υ := (hown d hd hname).trans hsame
    refine wp_runStep_own (permitsOwn_sweep ⟨rec, hrec, hwant, hgate⟩) (fun hnone => ?_) hυlock
      hname ((hplanned.step d.1 (hsub.subset hstep)).congr (hname ▸ hsame'.record))
    exact absurd (hnone.symm.trans (hsame'.record.trans hrec)) (by simp)
  simp only [onOk_ok, wp_run_bind, wp_run_lift]
  refine wp_mono (wp_execute permitsOther_sweep hchoosing.lock hnodup hrun) fun done υ hυ => ?_
  obtain ⟨hυtidies, hυsame, hran⟩ := hυ
  rw [hnames] at hυsame hnodup
  have hexists : name ∈ due.map (fun d => d.1.name) → ∃ r, υ.rec? name = some r := by
    intro hin
    obtain ⟨d, hd, hname⟩ := mem_map.mp hin
    obtain ⟨-, -, -, rec, hrec, -⟩ := hchosen d hd
    exact hran.exists_rec ((hown d hd hname).record.trans (hname ▸ hrec))
  have hbooking : Booking b now name due σ υ due υ :=
    ⟨Tidies.refl hυtidies.lock, hnodup, fun _ h => h, fun _ => SameAt.refl name υ,
      fun hin hout => absurd hin hout⟩
  simp only [wp_run_bind]
  refine wp_mono (wp_run_forM _ (Booking b now name due σ υ) hbooking
    fun d rest φ h => wp_book_round hbookable hchosen hexists h) fun r φ hφ => ?_
  cases r with
  | error e => exact hφ.elim
  | ok u =>
    replace hφ : Booking b now name due σ υ [] φ := hφ
    refine ⟨((hchoosing.rested.tidies hchoosing.lock).trans hυtidies).trans hφ.tidies, ?_⟩
    by_cases hin : name ∈ due.map fun d => d.1.name
    · obtain ⟨rec, r, hrec, hr, hbooked, hwrote⟩ := hφ.booked hin not_mem_nil
      obtain ⟨d, hd, hname⟩ := mem_map.mp hin
      obtain ⟨-, henabled, -, rec', hrec', hwant, hgate, -⟩ := hchosen d hd
      rw [hname] at hrec' henabled
      obtain rfl : rec = rec' := Option.some.inj (hrec.symm.trans hrec')
      exact .booked rec r henabled hrec hwant hgate hr hbooked hwrote
    · exact hchoosing.rested.swept ((hυsame hin).trans (hφ.same (Or.inr hin)))

end CrabMate.Ctl
