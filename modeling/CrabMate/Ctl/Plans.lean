import CrabMate.Ctl.Effects
import CrabMate.Lib.Except

/-! What a plan says about the records, and what its execution does to the ledger. -/
namespace CrabMate.Ctl
open List Prog

open Prog (wp_mono)

variable {P : (a : Act) → a.Res → Prop} {W : Ledger → InstanceRecord → Writer → Prop}
variable {N : Ledger → String → Prop} {σ : Ledger} {name : String} {file : InstancesFile}

/-! Reading the records. -/

/-- Facts about the process of `rec` that the environment may report. -/
def Reported (P : (a : Act) → a.Res → Prop) (rec : InstanceRecord) (p : Probe) : Prop :=
  ∃ facts, P (.facts rec) facts ∧ p = probeOf rec facts

/-- One row for each record. -/
structure Observes (P : (a : Act) → a.Res → Prop) (σ : Ledger) (observed : List Row) : Prop where
  sound : ∀ row ∈ observed, σ.rec? row.1.name = some row.1
  reported : ∀ row ∈ observed, Reported P row.1 row.2
  complete : ∀ n rec, σ.rec? n = some rec → ∃ p, (rec, p) ∈ observed
  nodup : (observed.map fun row => row.1.name).Nodup

/-- The row that reading `n` gives. -/
def RowOf (P : (a : Act) → a.Res → Prop) (σ : Ledger) (n : String) (row : Option Row) : Prop :=
  (σ.rec? n = none ∧ row = none) ∨
    ∃ rec p, σ.rec? n = some rec ∧ Reported P rec p ∧ row = some (rec, p)

theorem names_sublist {names : List String} {rows : List (Option Row)}
    (h : List.Forall₂ (RowOf P σ) names rows) :
    ((rows.filterMap id).map fun row => row.1.name).Sublist names := by
  induction h with
  | nil => exact List.Sublist.slnil
  | @cons n row names rows hrow _ ih =>
    obtain ⟨-, rfl⟩ | ⟨rec, p, hrec, -, rfl⟩ := hrow
    · exact ih.cons n
    · obtain rfl := Ledger.name_of_rec? hrec
      exact ih.cons_cons rec.name

theorem mem_rows_of_forall₂ {names : List String} {rows : List (Option Row)}
    (h : List.Forall₂ (RowOf P σ) names rows) {row : Row} (hrow : row ∈ rows.filterMap id) :
    σ.rec? row.1.name = some row.1 ∧ Reported P row.1 row.2 := by
  induction h with
  | nil => exact absurd hrow not_mem_nil
  | @cons n row' names rows hrow' _ ih =>
    obtain ⟨-, rfl⟩ | ⟨rec, p, hrec, hp, rfl⟩ := hrow'
    · exact ih hrow
    · obtain rfl | hrow := mem_cons.mp hrow
      · obtain rfl := Ledger.name_of_rec? hrec
        exact ⟨hrec, hp⟩
      · exact ih hrow

theorem exists_row_of_mem {names : List String} {rows : List (Option Row)}
    (h : List.Forall₂ (RowOf P σ) names rows) {n : String} {rec : InstanceRecord}
    (hn : n ∈ names) (hrec : σ.rec? n = some rec) : ∃ p, (rec, p) ∈ rows.filterMap id := by
  induction h with
  | nil => exact absurd hn not_mem_nil
  | @cons m row names rows hrow _ ih =>
    obtain rfl | hn := mem_cons.mp hn
    · obtain ⟨hnone, -⟩ | ⟨rec', p, hrec', -, rfl⟩ := hrow
      · exact absurd (hnone.symm.trans hrec) (by simp)
      · obtain rfl : rec' = rec := Option.some.inj (hrec'.symm.trans hrec)
        exact ⟨p, mem_cons_self⟩
    · obtain ⟨p, hp⟩ := ih hn
      refine ⟨p, ?_⟩
      cases row with
      | none => exact hp
      | some row => exact mem_cons_of_mem _ hp

theorem wp_ls {Q : List Row → Ledger → Prop}
    (h : ∀ observed, Observes P σ observed → Q observed σ) : ls.wp (ledgerEnv P W N) Q σ := by
  rw [ls, wp_bind]
  refine wp_act fun names hnames _ => ⟨trivial, ?_⟩
  have hnames' : names = σ.records.rows.map InstanceRecord.name := hnames
  rw [wp_bind]
  refine wp_mono (wp_mapM _ (fun _ τ => τ = σ) (RowOf P σ) rfl fun n _ τ hτ => ?_) ?_
  · subst hτ
    rw [wp_bind]
    apply wp_read
    cases hrec : τ.rec? n with
    | none => exact ⟨rfl, Or.inl ⟨hrec, rfl⟩⟩
    | some rec =>
      simp only [wp_bind]
      exact wp_observe fun facts _ hfacts =>
        ⟨rfl, Or.inr ⟨rec, _, hrec, ⟨facts, hfacts, rfl⟩, rfl⟩⟩
  · rintro rows τ ⟨rfl, hrel⟩
    refine h _ ⟨fun row hrow => ?_, fun row hrow => ?_, fun n rec hrec => ?_, ?_⟩
    · exact (mem_rows_of_forall₂ hrel (mem_mergeSort.mp hrow)).1
    · exact (mem_rows_of_forall₂ hrel (mem_mergeSort.mp hrow)).2
    · have hn : n ∈ names := by
        obtain ⟨hmem, rfl⟩ := Table.lookup_eq_some_iff.mp hrec
        exact hnames' ▸ mem_map_of_mem hmem
      obtain ⟨p, hp⟩ := exists_row_of_mem hrel hn hrec
      exact ⟨p, mem_mergeSort.mpr hp⟩
    · refine (((mergeSort_perm _ _).map _).nodup_iff).mpr ?_
      exact (names_sublist hrel).nodup (hnames' ▸ τ.records.nodup)

/-! The plan. -/

/-- The row of `n`, if there is a record. -/
def CurrentOf (P : (a : Act) → a.Res → Prop) (σ : Ledger) (n : String) : Option Row → Prop
  | none => σ.rec? n = none
  | some row => σ.rec? n = some row.1 ∧ Reported P row.1 row.2

theorem Observes.current {observed : List Row} (h : Observes P σ observed) (n : String) :
    CurrentOf P σ n (findCurrent observed n) := by
  cases hfind : findCurrent observed n with
  | none =>
    have hnone := find?_eq_none.mp hfind
    cases hrec : σ.rec? n with
    | none => exact hrec
    | some rec =>
      obtain ⟨p, hp⟩ := h.complete n rec hrec
      exact absurd (by simpa using Ledger.name_of_rec? hrec) (hnone (rec, p) hp)
  | some row =>
    have hname : row.1.name = n := by simpa using find?_some hfind
    have hmem := mem_of_find?_eq_some hfind
    exact ⟨hname ▸ h.sound row hmem, h.reported row hmem⟩

@[simp] theorem name_disabledStep (n : String) (current : Option Row) :
    (disabledStep n current).name = n := by
  unfold disabledStep
  split
  · split_ifs <;> rfl
  · rfl

@[simp] theorem name_declStep (n : String) (decl : Declaration) (workspace : Option String)
    (resolved : Option Resolved) (current : Option Row) :
    (declStep n decl workspace resolved current).name = n := by
  unfold declStep
  split_ifs
  · exact name_disabledStep n current
  · split
    · rfl
    · split_ifs
      · rfl
      · split <;> rfl
      · split <;> rfl

def Ledger.want? (σ : Ledger) (name : String) : Option DesiredState :=
  (σ.rec? name).map InstanceRecord.desiredState

def enabledIn (file : InstancesFile) (name : String) : Bool :=
  (file.lookup name).any fun entry => entry.2.enabled

/-- When a plan has a step. -/
inductive Applies (P : (a : Act) → a.Res → Prop) (file : InstancesFile) (σ : Ledger) : Step → Prop
  | fresh (n : String) (spec : StartSpec) (reason : String) (henabled : enabledIn file n = true)
      (hnone : σ.rec? n = none) : Applies P file σ (.start n spec false reason)
  | restart (n : String) (spec : StartSpec) (reason : String) (rec : InstanceRecord)
      (henabled : enabledIn file n = true) (hrec : σ.rec? n = some rec)
      (hwant : rec.desiredState = .running) : Applies P file σ (.start n spec true reason)
  | stop (n reason : String) (rec : InstanceRecord) (hdisabled : enabledIn file n = false)
      (hrec : σ.rec? n = some rec) : Applies P file σ (.stop n reason)
  | running (n : String) (rec : InstanceRecord) (p : Probe) (hrec : σ.rec? n = some rec)
      (hwant : rec.desiredState = .running) (hp : Reported P rec p) (hready : p.observed = .ready) :
      Applies P file σ (.running n)
  | skipped (n reason : String)
      (hstopped : enabledIn file n = true → σ.want? n = some .stopped) :
      Applies P file σ (.skipped n reason)

structure Planned (P : (a : Act) → a.Res → Prop) (file : InstancesFile) (σ : Ledger)
    (steps : List Step) : Prop where
  nodup : (steps.map Step.name).Nodup
  step : ∀ step ∈ steps, Applies P file σ step

theorem Applies.congr {τ : Ledger} {step : Step} (h : Applies P file σ step)
    (hrec : τ.rec? step.name = σ.rec? step.name) : Applies P file τ step := by
  cases h with
  | fresh n spec reason henabled hnone => exact .fresh n spec reason henabled (hrec.trans hnone)
  | restart n spec reason rec henabled h hwant =>
    exact .restart n spec reason rec henabled (hrec.trans h) hwant
  | stop n reason rec hdisabled h => exact .stop n reason rec hdisabled (hrec.trans h)
  | running n rec p h hwant hp hready => exact .running n rec p (hrec.trans h) hwant hp hready
  | skipped n reason hstopped =>
    refine .skipped n reason fun henabled => ?_
    rw [Ledger.want?, show τ.rec? n = σ.rec? n from hrec]
    exact hstopped henabled

theorem enabledIn_of_mem {n : String} {decl : Declaration} (hmem : (n, decl) ∈ file.rows) :
    enabledIn file n = decl.enabled := by
  have hlookup : file.lookup n = some (n, decl) := Table.lookup_eq_some_iff.mpr ⟨hmem, rfl⟩
  simp [enabledIn, hlookup]

theorem applies_disabledStep {n : String} {current : Option Row}
    (hdisabled : enabledIn file n = false) (hcurrent : CurrentOf P σ n current) :
    Applies P file σ (disabledStep n current) := by
  have hskip : ∀ reason, Applies P file σ (.skipped n reason) :=
    fun reason => .skipped n reason fun h => absurd (hdisabled.symm.trans h) (by simp)
  unfold disabledStep
  split
  · split_ifs
    · exact .stop n _ _ hdisabled hcurrent.1
    · exact hskip _
    · exact hskip _
  · exact hskip _

theorem applies_declStep {n : String} {decl : Declaration} {current : Option Row}
    (hmem : (n, decl) ∈ file.rows) (hcurrent : CurrentOf P σ n current)
    (workspace : Option String) (resolved : Option Resolved) :
    Applies P file σ (declStep n decl workspace resolved current) := by
  have henabled := enabledIn_of_mem hmem
  unfold declStep
  by_cases h : decl.enabled = true
  · rw [h] at henabled
    simp only [h, Bool.not_true, Bool.false_eq_true, if_false]
    cases current with
    | none => exact .fresh n _ _ henabled hcurrent
    | some row =>
      obtain ⟨rec, p⟩ := row
      obtain ⟨hrec, hp⟩ : σ.rec? n = some rec ∧ Reported P rec p := hcurrent
      by_cases hwant : rec.desiredState = .stopped
      · simp only [hwant, if_true]
        refine .skipped n _ fun _ => ?_
        simp [Ledger.want?, hrec, hwant]
      · have hwant' : rec.desiredState = .running := by
          cases hd : rec.desiredState with
          | running => rfl
          | stopped => exact absurd hd hwant
        simp only [hwant, if_false]
        cases profileChangeReason decl rec p.pidAlive (resolved.map Resolved.fingerprint) with
        | some reason => exact .restart n _ _ rec henabled hrec hwant'
        | none =>
          dsimp only
          split_ifs with hready
          · exact .running n rec p hrec hwant' hp hready
          · exact .restart n _ _ rec henabled hrec hwant'
  · rw [Bool.not_eq_true] at h
    simp only [h, Bool.not_false, if_true]
    exact applies_disabledStep (henabled.trans h) hcurrent

theorem stepForDecl_ok {site : Site} {profiles : String → EnvMap → Except CtlError Resolved}
    {observed : List Row} {entry : String × Declaration} {step : Step}
    (h : stepForDecl site profiles observed entry = .ok step) : ∃ workspace resolved,
      (match entry.2.profile with
        | some profile => (profiles profile entry.2.env).map some
        | none => .ok none) = .ok resolved ∧
      step = declStep entry.1 entry.2 workspace resolved (findCurrent observed entry.1) := by
  unfold stepForDecl at h
  obtain ⟨workspace, -, h⟩ := Except.bind_eq_ok.mp h
  cases hprofile : entry.2.profile with
  | none =>
    rw [hprofile] at h
    exact ⟨workspace, none, rfl, (Except.ok.inj h).symm⟩
  | some profile =>
    rw [hprofile] at h
    obtain ⟨resolved, hres, h⟩ := Except.bind_eq_ok.mp h
    exact ⟨workspace, resolved, hres, (Except.ok.inj h).symm⟩

theorem names_declSteps {site : Site} {profiles : String → EnvMap → Except CtlError Resolved}
    {observed : List Row} {entries : List (String × Declaration)} {steps : List Step}
    (h : List.Forall₂ (fun e s => stepForDecl site profiles observed e = .ok s) entries steps) :
    steps.map Step.name = entries.map Prod.fst := by
  induction h with
  | nil => rfl
  | @cons entry step _ _ hstep _ ih =>
    obtain ⟨workspace, resolved, -, rfl⟩ := stepForDecl_ok hstep
    rw [map_cons, map_cons, ih, name_declStep]

theorem stepForOrphan_eq {row : Row} {step : Step} (h : stepForOrphan row = some step) :
    ∃ reason, step = .stop row.1.name reason := by
  unfold stepForOrphan at h
  split_ifs at h
  exact ⟨_, (Option.some.inj h).symm⟩

theorem names_orphans (rows : List Row) :
    ((rows.filterMap stepForOrphan).map Step.name).Sublist (rows.map fun row => row.1.name) := by
  induction rows with
  | nil => exact List.Sublist.slnil
  | cons row rows ih =>
    cases hrow : stepForOrphan row with
    | none =>
      rw [filterMap_cons_none hrow]
      exact ih.cons _
    | some step =>
      obtain ⟨reason, rfl⟩ := stepForOrphan_eq hrow
      rw [filterMap_cons_some hrow]
      exact ih.cons_cons _

def undeclaredRows (file : InstancesFile) (observed : List Row) : List Row :=
  observed.filter fun row => !(file.rows.map Prod.fst).contains row.1.name

theorem planWith_ok {site : Site} {profiles : String → EnvMap → Except CtlError Resolved}
    {observed : List Row} {steps : List Step}
    (h : planWith site profiles file observed = .ok steps) :
    ∃ decls, List.Forall₂ (fun e s => stepForDecl site profiles observed e = .ok s) file.rows decls ∧
      steps = decls ++ (undeclaredRows file observed).filterMap stepForOrphan := by
  unfold planWith at h
  cases hdecls : file.rows.mapM (stepForDecl site profiles observed) with
  | error e => simp [hdecls, bind, Except.bind] at h
  | ok decls =>
    refine ⟨decls, Except.mapM_ok hdecls, ?_⟩
    simpa [hdecls, bind, Except.bind, pure, Except.pure, undeclaredRows, eq_comm] using h

theorem planned_planWith {site : Site} {profiles : String → EnvMap → Except CtlError Resolved}
    {observed : List Row} {steps : List Step} (hobs : Observes P σ observed)
    (h : planWith site profiles file observed = .ok steps) : Planned P file σ steps := by
  obtain ⟨decls, hrel, rfl⟩ := planWith_ok h
  have hnames : decls.map Step.name = file.rows.map Prod.fst := names_declSteps hrel
  have horphans := names_orphans (undeclaredRows file observed)
  have hapart : ∀ row ∈ undeclaredRows file observed, row.1.name ∉ file.rows.map Prod.fst := by
    intro row hrow
    simpa using (mem_filter.mp hrow).2
  constructor
  · rw [map_append, hnames]
    refine nodup_append.mpr ⟨file.nodup, ?_, fun a ha b hb => ?_⟩
    · exact horphans.nodup ((filter_sublist.map _).nodup hobs.nodup)
    · obtain ⟨row, hrow, rfl⟩ := mem_map.mp (horphans.subset hb)
      rintro rfl
      exact hapart row hrow ha
  · intro step hstep
    obtain hstep | hstep := mem_append.mp hstep
    · obtain ⟨entry, hentry, hstep⟩ := Except.exists_of_forall₂ hrel hstep
      obtain ⟨workspace, resolved, -, rfl⟩ := stepForDecl_ok hstep
      exact applies_declStep hentry (hobs.current entry.1) workspace resolved
    · obtain ⟨row, hrow, hstep⟩ := mem_filterMap.mp hstep
      obtain ⟨reason, rfl⟩ := stepForOrphan_eq hstep
      refine .stop row.1.name reason row.1 ?_ (hobs.sound row (mem_filter.mp hrow).1)
      have hnone : file.lookup row.1.name = none := by
        refine find?_eq_none.mpr fun entry hentry => ?_
        have hne : entry.1 ≠ row.1.name :=
          fun h => hapart row hrow (h ▸ mem_map_of_mem hentry)
        simpa using hne
      simp [enabledIn, hnone]

theorem wp_scopedPlan {scope : Option String} {Q : Except CtlError (List Step) → Ledger → Prop}
    (hfail : ∀ e, Q (.error e) σ) (hplan : ∀ steps, Planned P file σ steps → Q (.ok steps) σ) :
    (scopedPlan file scope).run.wp (ledgerEnv P W N) Q σ := by
  simp only [scopedPlan, plan, call, wp_run_bind, wp_run_lift]
  refine wp_act fun site _ _ => ⟨trivial, ?_⟩
  simp only [onOk_ok, wp_run_bind, wp_run_mk, wp_pure]
  cases site.profiles with
  | error e => exact hfail e
  | ok profiles =>
    simp only [onOk_ok, wp_run_bind, wp_run_lift]
    refine wp_ls fun observed hobs => ?_
    simp only [wp_run_mk, wp_pure]
    cases hsteps : planWith site profiles file observed with
    | error e => exact hfail e
    | ok steps =>
      have hplanned := planned_planWith hobs hsteps
      refine hplan _ ?_
      cases scope with
      | none => exact hplanned
      | some n =>
        exact ⟨(filter_sublist.map _).nodup hplanned.nodup,
          fun step hstep => hplanned.step step (mem_filter.mp hstep).1⟩

/-! Starts and stops. -/

/-- `down` has written its mark. -/
def Ledger.marked (σ : Ledger) (rec : InstanceRecord) : Ledger := σ.write rec.wantStopped .down

/-- `down` has run to its end. -/
def Ledger.halted (σ : Ledger) (rec : InstanceRecord) : Ledger :=
  (σ.marked rec).write rec.finished .finishStopped

theorem Ledger.rec?_marked {rec : InstanceRecord} (hrec : rec.name = name) :
    (σ.marked rec).rec? name = some rec.wantStopped := by
  subst hrec
  exact Ledger.rec?_write_self _ _ _

theorem Ledger.rec?_halted {rec : InstanceRecord} (hrec : rec.name = name) :
    (σ.halted rec).rec? name = some rec.finished := by
  subst hrec
  exact Ledger.rec?_write_self _ _ _

theorem Ledger.TidyAt.of_rec? {τ : Ledger} {rec : InstanceRecord} (hlock : τ.lock = none)
    (hrec : τ.rec? name = some rec) (hstate : rec.state ≠ .starting)
    (hvalid : validateName name = .ok ()) : τ.TidyAt name := by
  refine ⟨hlock, fun rec' h => ?_, fun _ _ => hvalid⟩
  exact Option.some.inj (hrec.symm.trans h) ▸ hstate

theorem Ledger.TidyAt.of_sameAt {τ : Ledger} (h : σ.TidyAt name) (hsame : SameAt name σ τ)
    (hlock : τ.lock = none) : τ.TidyAt name := by
  refine ⟨hlock, fun rec hrec => ?_, fun rec hrec => ?_⟩
  · exact h.settled rec (hsame.record ▸ hrec)
  · exact h.valid rec (hsame.record ▸ hrec)

/-- `τ` is left with the lock free, and as tidy as `σ` was. -/
structure Tidies (name : String) (σ τ : Ledger) : Prop where
  lock : τ.lock = none
  tidy : σ.TidyAt name → τ.TidyAt name

theorem Tidies.refl (h : σ.lock = none) : Tidies name σ σ := ⟨h, id⟩

theorem Tidies.trans {τ υ : Ledger} (h₁ : Tidies name σ τ) (h₂ : Tidies name τ υ) :
    Tidies name σ υ := ⟨h₂.lock, fun h => h₂.tidy (h₁.tidy h)⟩

theorem Tidies.of_sameAt {τ : Ledger} (hsame : SameAt name σ τ) (hlock : τ.lock = none) :
    Tidies name σ τ := ⟨hlock, fun h => h.of_sameAt hsame hlock⟩

theorem tidies_marked {rec : InstanceRecord} (hlock : σ.lock = none)
    (hrec : σ.rec? name = some rec) : Tidies name σ (σ.marked rec) :=
  ⟨hlock, fun h => .of_rec? hlock (Ledger.rec?_marked (Ledger.name_of_rec? hrec))
    (h.settled rec hrec) (h.valid rec hrec)⟩

theorem tidies_halted {rec : InstanceRecord} (hlock : σ.lock = none)
    (hrec : σ.rec? name = some rec) : Tidies name σ (σ.halted rec) :=
  ⟨hlock, fun h => .of_rec? hlock (Ledger.rec?_halted (Ledger.name_of_rec? hrec)) (by rintro ⟨⟩)
    (h.valid rec hrec)⟩

theorem Started.tidies {ρ τ : Ledger} (h : Started name ρ τ) : Tidies name σ τ := by
  obtain ⟨rec, hrec, -, hstate⟩ := h.record
  exact ⟨h.lock, fun _ => .of_rec? h.lock hrec hstate h.valid⟩

/-! Operations for other names keep the lock free. -/

/-- Everything may be written and started for `m`, and nothing else. -/
abbrev onlyFor (P : (a : Act) → a.Res → Prop) (m : String) : Prog.Env Act Act.Res Ledger Act.Res :=
  ledgerEnv P (fun _ rec _ => rec.name = m) fun _ n => n = m

theorem wp_up_only (args : UpArgs) (hlock : σ.lock = none) :
    (up args).run.wp (onlyFor P args.name) (fun _ τ => τ.lock = none) σ := by
  refine wp_up ?_ rfl (fun _ _ => rfl) hlock (fun _ _ _ _ => hlock) (fun _ _ => hlock)
    (fun _ _ h => h.lock) ?_
  · exact fun _ _ _ _ h _ => h.name_eq
  · exact fun _ _ _ _ hr _ _ => ⟨hr, hlock⟩

theorem wp_down_only {m : String} {Q : Except CtlError DownOutcome → Ledger → Prop}
    (hlock : σ.lock = none) (hQ : ∀ r τ, τ.lock = none → Q r τ) :
    (down m).run.wp (onlyFor P m) Q σ := by
  refine wp_down (fun _ _ => hQ _ _ hlock) (fun _ => hQ _ _ hlock) fun _ rec hrec => ?_
  have hname := Ledger.name_of_rec? hrec
  exact ⟨hname, hname, fun _ => hQ _ _ hlock, fun _ _ => hQ _ _ hlock⟩

theorem wp_execStart_only {m : String} {spec : StartSpec} {restart : Bool} {reason : String}
    (hlock : σ.lock = none) : (execStart m spec restart reason).wp (onlyFor P m)
      (fun _ τ => τ.lock = none) σ := by
  have hup : ∀ τ : Ledger, τ.lock = none → (execUp m spec restart reason).wp (onlyFor P m)
      (fun _ υ => υ.lock = none) τ := by
    intro τ hτ
    rw [execUp, wp_bind]
    have hrun : (up (spec.upArgs m)).run.wp (onlyFor P m) (fun _ υ => υ.lock = none) τ :=
      wp_up_only (spec.upArgs m) hτ
    refine wp_mono hrun fun out υ hυ => ?_
    cases out <;> exact hυ
  unfold execStart
  cases restart with
  | false => exact hup σ hlock
  | true =>
    simp only [if_true, wp_bind]
    refine wp_down_only hlock fun r τ hτ => ?_
    cases r with
    | ok out => exact hup τ hτ
    | error e => exact hτ

theorem wp_execStop_only {m : String} (hlock : σ.lock = none) :
    (execStop m).wp (onlyFor P m) (fun _ τ => τ.lock = none) σ := by
  rw [execStop, wp_bind]
  refine wp_down_only hlock fun r τ hτ => ?_
  cases r <;> exact hτ

/-- What the execution of a plan does for `name`. -/
inductive Ran (P : (a : Act) → a.Res → Prop) (file : InstancesFile) (name : String)
    (σ τ : Ledger) : Prop
  | kept (h : SameAt name σ τ)
  | started (rec : InstanceRecord) (henabled : enabledIn file name = true)
      (hwant : σ.want? name ≠ some .stopped) (hrec : τ.rec? name = some rec)
      (hup : UpRecord name rec) (hrecorded : τ.wrote .spawnAndRecord name = true)
  | failed (henabled : enabledIn file name = true) (hwant : σ.want? name = some .running)
      (hsure : ¬ Sure P name) (hstopped : τ.want? name = some .stopped)
      (hrecorded : τ.wrote .spawnAndRecord name = σ.wrote .spawnAndRecord name)
      (hspawned : τ.spawned name = σ.spawned name)
  | stopped (hdisabled : enabledIn file name = false) (hwant : σ.want? name ≠ none)
      (hstopped : τ.want? name = some .stopped) (hdown : τ.wrote .down name = true)
      (hrecorded : τ.wrote .spawnAndRecord name = σ.wrote .spawnAndRecord name)
      (hspawned : τ.spawned name = σ.spawned name)

theorem SameAt.want?_eq {τ : Ledger} (h : SameAt name σ τ) : τ.want? name = σ.want? name := by
  simp only [Ledger.want?, h.record]

theorem Ran.congr_right {τ υ : Ledger} (h : Ran P file name σ τ) (hsame : SameAt name τ υ) :
    Ran P file name σ υ := by
  cases h with
  | kept h => exact .kept (h.trans hsame)
  | started rec henabled hwant hrec hup hrecorded =>
    exact .started rec henabled hwant (hsame.record.trans hrec) hup
      ((hsame.wrote _).trans hrecorded)
  | failed henabled hwant hsure hstopped hrecorded hspawned =>
    exact .failed henabled hwant hsure (hsame.want?_eq.trans hstopped)
      ((hsame.wrote _).trans hrecorded) (hsame.spawned.trans hspawned)
  | stopped hdisabled hwant hstopped hdown hrecorded hspawned =>
    exact .stopped hdisabled hwant (hsame.want?_eq.trans hstopped)
      ((hsame.wrote _).trans hdown) ((hsame.wrote _).trans hrecorded)
      (hsame.spawned.trans hspawned)

theorem Ran.congr_left {τ υ : Ledger} (h : Ran P file name τ υ) (hsame : SameAt name σ τ) :
    Ran P file name σ υ := by
  cases h with
  | kept h => exact .kept (hsame.trans h)
  | started rec henabled hwant hrec hup hrecorded =>
    exact .started rec henabled (hsame.want?_eq ▸ hwant) hrec hup hrecorded
  | failed henabled hwant hsure hstopped hrecorded hspawned =>
    exact .failed henabled (hsame.want?_eq ▸ hwant) hsure hstopped
      (hrecorded.trans (hsame.wrote _)) (hspawned.trans hsame.spawned)
  | stopped hdisabled hwant hstopped hdown hrecorded hspawned =>
    exact .stopped hdisabled (hsame.want?_eq ▸ hwant) hstopped hdown
      (hrecorded.trans (hsame.wrote _)) (hspawned.trans hsame.spawned)

/-- `down` leaves the mark, however far it came. -/
theorem stopped_of_down {τ : Ledger} {rec : InstanceRecord} (hlock : σ.lock = none)
    (hrec : σ.rec? name = some rec) (hτ : τ = σ.marked rec ∨ τ = σ.halted rec) :
    Tidies name σ τ ∧ τ.want? name = some .stopped ∧ τ.wrote .down name = true ∧
      τ.wrote .spawnAndRecord name = σ.wrote .spawnAndRecord name ∧
      τ.spawned name = σ.spawned name := by
  have hname := Ledger.name_of_rec? hrec
  obtain rfl | rfl := hτ
  · refine ⟨tidies_marked hlock hrec, ?_, ?_, ?_, rfl⟩
    · rw [Ledger.want?, Ledger.rec?_marked hname]
      rfl
    · simp [Ledger.marked, hname]
    · simp [Ledger.marked]
  · refine ⟨tidies_halted hlock hrec, ?_, ?_, ?_, rfl⟩
    · rw [Ledger.want?, Ledger.rec?_halted hname]
      rfl
    · simp [Ledger.halted, Ledger.marked, hname]
    · simp [Ledger.halted, Ledger.marked]

/-! The execution of a plan, seen from `name`. -/

/-- An execution may write and start what is not `name`. -/
structure PermitsOther (W : Ledger → InstanceRecord → Writer → Prop) (N : Ledger → String → Prop)
    (name : String) : Prop where
  write : ∀ τ rec writer, rec.name ≠ name → W τ rec writer
  spawn : ∀ τ m, m ≠ name → N τ m

/-- What the start or the stop of `name` has to be allowed to write and to start. -/
structure PermitsOwn (W : Ledger → InstanceRecord → Writer → Prop) (N : Ledger → String → Prop)
    (name : String) : Prop where
  up : ∀ τ rec writer, writer.isUp = true → UpRecord name rec →
    (writer ≠ .spawnAndRecord → τ.wrote .spawnAndRecord name = true) → W τ rec writer
  down : ∀ τ rec writer, rec.name = name → rec.desiredState = .stopped →
    writer = .down ∨ writer = .finishStopped → W τ rec writer
  spawnUp : ∀ τ, τ.LastUp name → N τ name
  spawnStopped : ∀ τ, τ.want? name = some .stopped → N τ name

section Own

variable (hperm : PermitsOwn W N name)

include hperm

theorem wp_execUp {spec : StartSpec} {restart : Bool} {reason : String}
    {Q : Step → Ledger → Prop} (hN : N (σ.setLock (some 0)) name) (hlock : σ.lock = none)
    (hsettled : σ.Settled name)
    (hreuse : ∀ s rec, σ.rec? name = some rec → Reusable rec → Q s σ)
    (hfail : ∀ s, ¬ (Sure P name ∧ validateName name = .ok () ∧ σ.Idle name) → Q s σ)
    (hstart : ∀ s τ, Started name σ τ → Q s τ) :
    (execUp name spec restart reason).wp (ledgerEnv P W N) Q σ := by
  rw [execUp, wp_bind]
  have hargs : (spec.upArgs name).name = name := rfl
  refine wp_up (by rw [hargs]; exact hperm.up) hN (fun τ hτ => hperm.spawnUp _ hτ) hlock
    (fun out => hreuse _) (fun e => hfail _) (fun r τ hτ => ?_) fun hns => absurd hsettled hns
  cases r with
  | ok out => exact hstart _ τ hτ
  | error e => exact hstart _ τ hτ

theorem wp_execStart_restart {rec : InstanceRecord} {spec : StartSpec} {reason : String}
    {Q : Step → Ledger → Prop} (hlock : σ.lock = none) (hrec : σ.rec? name = some rec)
    (hkept : ∀ s, Q s σ)
    (hfail : ∀ s τ, ¬ Sure P name → τ = σ.marked rec ∨ τ = σ.halted rec → Q s τ)
    (hstart : ∀ s τ, Started name (σ.halted rec) τ → Q s τ) :
    (execStart name spec true reason).wp (ledgerEnv P W N) Q σ := by
  have hname : rec.name = name := Ledger.name_of_rec? hrec
  have hhalted : (σ.halted rec).rec? name = some rec.finished := Ledger.rec?_halted hname
  have hrec' : ∀ r, (σ.halted rec).rec? name = some r → rec.finished = r :=
    fun r hr => Option.some.inj (hhalted.symm.trans hr)
  simp only [execStart, if_true, wp_bind]
  refine wp_down (fun e _ => hkept _) (fun hnone => absurd (hnone.symm.trans hrec) (by simp))
    fun hvalid r hr => ?_
  obtain rfl : rec = r := Option.some.inj (hrec.symm.trans hr)
  refine ⟨hperm.down _ _ _ hname rfl (Or.inl rfl), hperm.down _ _ _ hname rfl (Or.inr rfl),
    fun out => ?_, fun hns e => hfail _ _ hns (Or.inl rfl)⟩
  refine wp_execUp hperm (hperm.spawnStopped _ ?_) hlock (fun r hr => hrec' r hr ▸ (by rintro ⟨⟩))
    (fun s r hr hreusable => ?_) (fun s hcond => ?_) hstart
  · exact congrArg (Option.map InstanceRecord.desiredState) hhalted
  · obtain hstate | ⟨hstate, -⟩ := hrec' r hr ▸ hreusable
    · exact absurd hstate (by rintro ⟨⟩)
    · exact absurd hstate (by rintro ⟨⟩)
  · refine hfail _ _ (fun hsure => hcond ⟨hsure, hvalid, fun r hr => ?_⟩) (Or.inr rfl)
    exact hrec' r hr ▸ rfl

theorem wp_execStop {rec : InstanceRecord} {Q : Step → Ledger → Prop}
    (hrec : σ.rec? name = some rec) (hkept : ∀ s, Q s σ)
    (h : ∀ s τ, τ = σ.marked rec ∨ τ = σ.halted rec → Q s τ) :
    (execStop name).wp (ledgerEnv P W N) Q σ := by
  have hname : rec.name = name := Ledger.name_of_rec? hrec
  rw [execStop, wp_bind]
  refine wp_down (fun e _ => hkept _) (fun hnone => absurd (hnone.symm.trans hrec) (by simp))
    fun _ r hr => ?_
  obtain rfl : rec = r := Option.some.inj (hrec.symm.trans hr)
  exact ⟨hperm.down _ _ _ hname rfl (Or.inl rfl), hperm.down _ _ _ hname rfl (Or.inr rfl),
    fun out => h _ _ (Or.inr rfl), fun _ e => h _ _ (Or.inl rfl)⟩

theorem wp_runStep_own {step : Step}
    (hfresh : σ.rec? name = none → N (σ.setLock (some 0)) name) (hlock : σ.lock = none)
    (hname : step.name = name) (happlies : Applies P file σ step) :
    (runStep step).wp (ledgerEnv P W N)
      (fun _ τ => Tidies name σ τ ∧ Ran P file name σ τ) σ := by
  have hkept : Tidies name σ σ ∧ Ran P file name σ σ :=
    ⟨Tidies.refl hlock, .kept (SameAt.refl name σ)⟩
  cases happlies with
  | fresh n spec reason henabled hnone =>
    obtain rfl : n = name := hname
    simp only [runStep, execStart, Bool.false_eq_true, if_false]
    refine wp_execUp hperm (hfresh hnone) hlock (fun r hr => ?_) (fun _ _ _ _ => hkept)
      (fun _ _ => hkept) fun _ τ hτ => ?_
    · exact absurd (hnone.symm.trans hr) (by simp)
    · obtain ⟨rec, hrec, hrecord, -⟩ := hτ.record
      exact ⟨hτ.tidies, .started rec henabled (by simp [Ledger.want?, hnone]) hrec hrecord
        hτ.recorded⟩
  | restart n spec reason rec henabled hrec hwant =>
    obtain rfl : n = name := hname
    have hrun : σ.want? n = some .running := by simp [Ledger.want?, hrec, hwant]
    refine wp_execStart_restart hperm hlock hrec (fun _ => hkept) (fun _ τ hns hτ => ?_)
      fun _ τ hτ => ?_
    · obtain ⟨hτtidy, hstopped, -, hrecorded, hspawned⟩ := stopped_of_down hlock hrec hτ
      exact ⟨hτtidy, .failed henabled hrun hns hstopped hrecorded hspawned⟩
    · obtain ⟨r, hr, hrecord, -⟩ := hτ.record
      exact ⟨hτ.tidies, .started r henabled (by simp [hrun]) hr hrecord hτ.recorded⟩
  | stop n reason rec hdisabled hrec =>
    obtain rfl : n = name := hname
    refine wp_execStop hperm hrec (fun _ => hkept) fun _ τ hτ => ?_
    obtain ⟨hτtidy, hstopped, hmark, hrecorded, hspawned⟩ := stopped_of_down hlock hrec hτ
    exact ⟨hτtidy, .stopped hdisabled (by simp [Ledger.want?, hrec]) hstopped hmark hrecorded
      hspawned⟩
  | running n rec p hrec hwant hp hready => exact hkept
  | skipped n reason hstopped => exact hkept

end Own

section Execute

variable (hother : PermitsOther W N name)

include hother

theorem wp_runStep_other {step : Step} (hlock : σ.lock = none) (hname : step.name ≠ name) :
    (runStep step).wp (ledgerEnv P W N) (fun _ τ => τ.lock = none ∧ SameAt name σ τ) σ := by
  have hframe : ∀ τ rec writer, rec.name = step.name → W τ rec writer :=
    fun τ rec writer h => hother.write τ rec writer (h ▸ hname)
  cases step with
  | start m spec restart reason =>
    exact wp_sameAt hname hframe (fun τ => hother.spawn τ m hname) (wp_execStart_only hlock)
  | stop m reason =>
    exact wp_sameAt hname hframe (fun τ => hother.spawn τ m hname) (wp_execStop_only hlock)
  | _ => exact ⟨hlock, SameAt.refl name σ⟩

/-- The steps of a plan touch only their own instances, so the step of `name` finds what it was
planned for. -/
theorem wp_execute {steps : List Step} (hlock : σ.lock = none)
    (hnodup : (steps.map Step.name).Nodup)
    (hown : ∀ step ∈ steps, step.name = name → ∀ τ, τ.lock = none → SameAt name σ τ →
      (runStep step).wp (ledgerEnv P W N)
        (fun _ υ => Tidies name τ υ ∧ Ran P file name τ υ) τ) :
    (execute steps).wp (ledgerEnv P W N)
      (fun _ τ => Tidies name σ τ ∧ (name ∉ steps.map Step.name → SameAt name σ τ) ∧
        Ran P file name σ τ) σ := by
  let I (rest : List Step) (τ : Ledger) : Prop :=
    Tidies name σ τ ∧ (rest.map Step.name).Nodup ∧ rest ⊆ steps ∧
      (name ∈ rest.map Step.name ∨ name ∉ steps.map Step.name → SameAt name σ τ) ∧
      Ran P file name σ τ
  have hI : I steps σ :=
    ⟨Tidies.refl hlock, hnodup, fun _ h => h, fun _ => SameAt.refl name σ,
      .kept (SameAt.refl name σ)⟩
  refine wp_mono (wp_mapM runStep I (fun _ _ => True) hI ?_)
    fun _ τ h => ⟨h.1.1, fun hn => h.1.2.2.2.1 (Or.inr hn), h.1.2.2.2.2⟩
  rintro step rest τ ⟨hτtidy, hτnodup, hsub, hsame, hran⟩
  have hstep : step ∈ steps := hsub mem_cons_self
  obtain ⟨hnotin, hrest⟩ := nodup_cons.mp hτnodup
  have hsub' : rest ⊆ steps := fun x hx => hsub (mem_cons_of_mem _ hx)
  by_cases hname : step.name = name
  · have hτsame : SameAt name σ τ := hsame (Or.inl (hname ▸ mem_cons_self))
    refine wp_mono (hown step hstep hname τ hτtidy.lock hτsame) fun _ υ hυ => ⟨?_, trivial⟩
    refine ⟨hτtidy.trans hυ.1, hrest, hsub', fun hor => ?_, hυ.2.congr_left hτsame⟩
    obtain hin | hout := hor
    · exact absurd (hname ▸ hin) hnotin
    · exact absurd (hname ▸ mem_map_of_mem hstep) hout
  · refine wp_mono (wp_runStep_other hother hτtidy.lock hname) fun _ υ hυ => ⟨?_, trivial⟩
    refine ⟨hτtidy.trans (.of_sameAt hυ.2 hυ.1), hrest, hsub', fun hor => ?_,
      hran.congr_right hυ.2⟩
    refine (hsame ?_).trans hυ.2
    exact hor.imp_left fun hin => mem_cons_of_mem _ hin

/-- One convergence, seen from `name`. -/
theorem wp_apply {scope : Option String} (hperm : PermitsOwn W N name)
    (hfresh : ∀ τ, τ.rec? name = none → N τ name) (hlock : σ.lock = none) :
    (apply file scope).run.wp (ledgerEnv P W N)
      (fun _ τ => Tidies name σ τ ∧ Ran P file name σ τ) σ := by
  rw [apply, wp_run_bind]
  refine wp_scopedPlan (fun e => ⟨Tidies.refl hlock, .kept (SameAt.refl name σ)⟩)
    fun steps hplanned => ?_
  simp only [onOk_ok, wp_run_lift]
  refine wp_mono (wp_execute hother hlock hplanned.nodup fun step hstep hname τ hτlock hsame => ?_)
    fun _ τ h => ⟨h.1, h.2.2⟩
  exact wp_runStep_own hperm (hfresh (τ.setLock (some 0))) hτlock hname
    ((hplanned.step step hstep).congr (hname ▸ hsame.record))

end Execute

end CrabMate.Ctl
