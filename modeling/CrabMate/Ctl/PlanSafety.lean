import CrabMate.Ctl.Plans

/-! Which processes a plan touches: one step for each declaration, and the steps that signal a
process that the supervisor did not start. -/
namespace CrabMate.Ctl
open List

/-- The steps whose execution begins with `ops::down`. -/
def Step.signals : Step → Bool
  | .start _ _ restart _ => restart
  | .stop _ _ => true
  | _ => false

/-- One step for each declaration, in order, and then at most one for each undeclared record. -/
def CompletePlan (file : InstancesFile) (observed : List Row) (steps : List Step) : Prop :=
  ∃ declared orphans, steps = declared ++ orphans ∧
    declared.map Step.name = file.rows.map Prod.fst ∧
    (orphans.map Step.name).Sublist ((undeclaredRows file observed).map fun row => row.1.name)

/-- No step signals a live process whose record was not started by the supervisor. -/
def SparesForeign (observed : List Row) (steps : List Step) : Prop :=
  ∀ step ∈ steps, step.signals = true → ∀ row ∈ observed, row.1.name = step.name →
    row.2.pidAlive = true → Origin.fromRecord row.1 = .supervise

/-- The profile of the declaration is the one the record was started with, in name and content. -/
def ProfileUnchanged (profiles : String → EnvMap → Except CtlError Resolved) (decl : Declaration)
    (rec : InstanceRecord) : Prop :=
  decl.profile = rec.profile ∧ ∀ profile resolved, decl.profile = some profile →
    profiles profile decl.env = .ok resolved → some resolved.fingerprint = rec.profileFingerprint

/-- Of a live instance that somebody else started and nobody stopped, the declaration of that name
asks for nothing new. -/
def ForeignAtRest (profiles : String → EnvMap → Except CtlError Resolved) (file : InstancesFile)
    (observed : List Row) : Prop :=
  ∀ entry ∈ file.rows, entry.2.enabled = true → ∀ row ∈ observed, row.1.name = entry.1 →
    row.2.pidAlive = true → Origin.fromRecord row.1 ≠ .supervise → row.1.desiredState ≠ .stopped →
    ProfileUnchanged profiles entry.2 row.1 ∧ row.2.observed = .ready

/-- Of the steps, in their order, those of one name. -/
structure ScopedTo (name : String) (steps chosen : List Step) : Prop where
  sublist : chosen.Sublist steps
  mem_iff : ∀ step, step ∈ chosen ↔ step ∈ steps ∧ step.name = name

structure ConvergencePlan (file : InstancesFile) (observed : List Row) (steps : List Step) :
    Prop where
  complete : CompletePlan file observed steps
  spares : SparesForeign observed steps
  scopes : ∀ name, ScopedTo name steps (scopedSteps steps (some name))

variable {site : Site} {profiles : String → EnvMap → Except CtlError Resolved}
variable {file : InstancesFile} {observed : List Row} {steps : List Step} {row : Row}

theorem findCurrent_eq (hnames : (observed.map fun row => row.1.name).Nodup)
    (hrow : row ∈ observed) : findCurrent observed row.1.name = some row := by
  cases hfind : findCurrent observed row.1.name with
  | none =>
    have hne := find?_eq_none.mp hfind row hrow
    simp at hne
  | some found =>
    have hname : found.1.name = row.1.name := by simpa using find?_some hfind
    have hmem := mem_of_find?_eq_some hfind
    rw [inj_on_of_nodup_map hnames hmem hrow hname]

/-- What is resolved for a declaration. -/
def ResolvedFor (profiles : String → EnvMap → Except CtlError Resolved) (decl : Declaration)
    (resolved : Option Resolved) : Prop :=
  match decl.profile with
  | none => resolved = none
  | some profile => ∃ r, resolved = some r ∧ profiles profile decl.env = .ok r

theorem stepForDecl_resolved {entry : String × Declaration} {step : Step}
    (h : stepForDecl site profiles observed entry = .ok step) :
    ∃ workspace resolved, ResolvedFor profiles entry.2 resolved ∧
      step = declStep entry.1 entry.2 workspace resolved (findCurrent observed entry.1) := by
  obtain ⟨workspace, resolved, hres, hstep⟩ := stepForDecl_ok h
  refine ⟨workspace, resolved, ?_, hstep⟩
  unfold ResolvedFor
  cases hprofile : entry.2.profile with
  | none =>
    rw [hprofile] at hres
    exact (Except.ok.inj hres).symm
  | some profile =>
    rw [hprofile] at hres
    dsimp only at hres
    cases hread : profiles profile entry.2.env with
    | error e =>
      rw [hread] at hres
      cases hres
    | ok r =>
      rw [hread] at hres
      exact ⟨r, (Except.ok.inj hres).symm, hread⟩

theorem stepForOrphan_origin {step : Step} (h : stepForOrphan row = some step) :
    step.name = row.1.name ∧ Origin.fromRecord row.1 = .supervise := by
  obtain ⟨reason, hstep⟩ := stepForOrphan_eq h
  refine ⟨by rw [hstep]; rfl, ?_⟩
  unfold stepForOrphan at h
  split_ifs at h with hcond
  push Not at hcond
  exact hcond.1

theorem signals_disabledStep {n : String} {rec : InstanceRecord} {p : Probe}
    (h : (disabledStep n (some (rec, p))).signals = true) : Origin.fromRecord rec = .supervise := by
  simp only [disabledStep] at h
  split_ifs at h with halive horigin
  · exact horigin
  · cases h
  · cases h

theorem profileChangeReason_eq_none {decl : Declaration} {rec : InstanceRecord}
    {resolved : Option Resolved} (hres : ResolvedFor profiles decl resolved) :
    profileChangeReason decl rec true (resolved.map Resolved.fingerprint) = none ↔
      ProfileUnchanged profiles decl rec := by
  unfold ResolvedFor at hres
  unfold profileChangeReason ProfileUnchanged
  by_cases hprofile : decl.profile = rec.profile
  · cases hdecl : decl.profile with
    | none => simp [← hprofile, hdecl]
    | some profile =>
      rw [hdecl] at hres
      obtain ⟨r, rfl, hr⟩ := hres
      simp only [← hprofile, hdecl, Bool.not_true, Bool.false_eq_true, if_false, ne_eq,
        not_true_eq_false, Option.map_some, ite_eq_right_iff, true_and]
      constructor
      · intro h p resolved hp hresolved
        obtain rfl := Option.some.inj hp
        obtain rfl := Except.ok.inj (hr.symm.trans hresolved)
        by_contra hne
        exact absurd (h hne) (by simp)
      · intro h hne
        exact absurd (h profile r rfl hr) hne
  · simp [hprofile]

/-- The enabled instance is left alone when it was stopped by hand, or when it runs as declared. -/
theorem signals_declStep {n : String} {decl : Declaration} {workspace : Option String}
    {resolved : Option Resolved} (hres : ResolvedFor profiles decl resolved)
    (henabled : decl.enabled = true) (halive : row.2.pidAlive = true) :
    (declStep n decl workspace resolved (some row)).signals = false ↔
      (row.1.desiredState ≠ .stopped →
        ProfileUnchanged profiles decl row.1 ∧ row.2.observed = .ready) := by
  rw [← profileChangeReason_eq_none hres]
  simp only [declStep, henabled, Bool.not_true, Bool.false_eq_true, if_false, halive]
  by_cases hstopped : row.1.desiredState = .stopped
  · simp [hstopped, Step.signals]
  · cases hreason : profileChangeReason decl row.1 true (resolved.map Resolved.fingerprint) with
    | some reason => simp [hstopped, Step.signals]
    | none =>
      by_cases hready : row.2.observed = .ready
      · simp [hstopped, hready, Step.signals]
      · simp [hstopped, hready, Step.signals]

theorem completePlan_planWith (h : planWith site profiles file observed = .ok steps) :
    CompletePlan file observed steps := by
  obtain ⟨decls, hrel, rfl⟩ := planWith_ok h
  exact ⟨decls, _, rfl, names_declSteps hrel, names_orphans _⟩

theorem scopedTo_scopedSteps (name : String) (steps : List Step) :
    ScopedTo name steps (scopedSteps steps (some name)) :=
  ⟨filter_sublist, fun step => by simp [scopedSteps]⟩

theorem foreignAtRest_of_spares (hnames : (observed.map fun row => row.1.name).Nodup)
    (h : planWith site profiles file observed = .ok steps) (hspares : SparesForeign observed steps) :
    ForeignAtRest profiles file observed := by
  intro entry hentry henabled row hrow hname halive horigin hstopped
  obtain ⟨decls, hrel, rfl⟩ := planWith_ok h
  obtain ⟨step, hmem, hstep⟩ := Except.exists_of_forall₂ hrel.flip hentry
  obtain ⟨workspace, resolved, hres, rfl⟩ := stepForDecl_resolved hstep
  have hcurrent : findCurrent observed entry.1 = some row := hname ▸ findCurrent_eq hnames hrow
  rw [hcurrent] at hmem
  have hquiet : (declStep entry.1 entry.2 workspace resolved (some row)).signals = false ↔ _ :=
    signals_declStep hres henabled halive
  refine hquiet.mp ?_ hstopped
  by_contra hsignals
  rw [Bool.not_eq_false] at hsignals
  refine horigin (hspares _ (mem_append_left _ hmem) hsignals row hrow ?_ halive)
  rw [name_declStep, hname]

theorem spares_of_foreignAtRest (hnames : (observed.map fun row => row.1.name).Nodup)
    (h : planWith site profiles file observed = .ok steps)
    (hrest : ForeignAtRest profiles file observed) : SparesForeign observed steps := by
  intro step hstep hsignals row hrow hname halive
  obtain ⟨decls, hrel, rfl⟩ := planWith_ok h
  obtain hstep | hstep := mem_append.mp hstep
  · obtain ⟨entry, hentry, hstep⟩ := Except.exists_of_forall₂ hrel hstep
    obtain ⟨workspace, resolved, hres, rfl⟩ := stepForDecl_resolved hstep
    rw [name_declStep] at hname
    rw [← hname, findCurrent_eq hnames hrow] at hsignals
    by_cases henabled : entry.2.enabled = true
    · by_contra horigin
      have hquiet : (declStep row.1.name entry.2 workspace resolved (some row)).signals = false :=
        (signals_declStep hres henabled halive).mpr fun hstopped =>
          hrest entry hentry henabled row hrow hname halive horigin hstopped
      exact absurd (hquiet.symm.trans hsignals) (by simp)
    · rw [declStep, if_pos (by simpa using henabled)] at hsignals
      exact signals_disabledStep hsignals
  · obtain ⟨found, hfound, hstep⟩ := mem_filterMap.mp hstep
    obtain ⟨hfoundName, horigin⟩ := stepForOrphan_origin hstep
    have hmem := (mem_filter.mp hfound).1
    have heq : row = found := inj_on_of_nodup_map hnames hrow hmem (hname.trans hfoundName)
    exact heq ▸ horigin

/-- A plan spares the processes of others exactly when each of them that is declared and enabled
already runs as declared: only the disabled and the undeclared ones are asked for their origin. -/
theorem plan_with_spares_iff (hnames : (observed.map fun row => row.1.name).Nodup)
    (h : planWith site profiles file observed = .ok steps) :
    ConvergencePlan file observed steps ↔ ForeignAtRest profiles file observed :=
  ⟨fun hplan => foreignAtRest_of_spares hnames h hplan.spares, fun hrest =>
    ⟨completePlan_planWith h, spares_of_foreignAtRest hnames h hrest,
      fun name => scopedTo_scopedSteps name steps⟩⟩

def declaredOnlyA : InstancesFile := ⟨[("a", {})], by decide⟩

/-- Started by hand with the given profile, and running well. -/
def manualA (profile : Option String) : InstanceRecord where
  name := "a"
  state := .ready
  port := some 4000
  pid := some 7
  profile := profile
  managedBy := some "cli"

def manualRow (profile : Option String) : Row :=
  (manualA profile, probeOf (manualA profile) ⟨true, .match, true⟩)

def noProfiles (name : String) (_ : EnvMap) : Except CtlError Resolved :=
  .error (.usage "profile_not_found" name)

theorem plan_with_spares_manual_a :
    planWith {} noProfiles declaredOnlyA [manualRow none] = .ok [.running "a"] ∧
      (ConvergencePlan declaredOnlyA [manualRow none] [.running "a"] ↔
        ForeignAtRest noProfiles declaredOnlyA [manualRow none]) :=
  ⟨by decide +kernel, plan_with_spares_iff (by decide) (show planWith {} noProfiles declaredOnlyA
    [manualRow none] = .ok [.running "a"] by decide +kernel)⟩

/-- The declaration has no profile and the process was started by hand with one: it is restarted. -/
theorem plan_with_restarts_manual_a : ∃ spec reason,
    planWith {} noProfiles declaredOnlyA [manualRow (some "dev")] =
      .ok [.start "a" spec true reason] ∧
    ¬ ConvergencePlan declaredOnlyA [manualRow (some "dev")] [.start "a" spec true reason] := by
  refine ⟨_, _, rfl, fun h => ?_⟩
  have horigin := h.spares _ mem_cons_self rfl _ mem_cons_self rfl rfl
  exact absurd horigin (by decide +kernel)

end CrabMate.Ctl
