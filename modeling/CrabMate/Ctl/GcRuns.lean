import CrabMate.Ctl.Gc
import CrabMate.Lib.Except

/-! What a run of `gc` removes: only targets of instances that are stopped, and all of them when
every call succeeds. -/
namespace CrabMate.Ctl.Gc
open List Option Prog

open Prog (wp_mono onOk)

/-- Every call succeeds, and everything is old enough. -/
structure GcChoice.Quiet (opts : GcOpts) (c : GcChoice) : Prop where
  lock : c.lock = .ok ()
  fail : c.fail = none
  listed : ∀ p, c.listed p = true
  modified : c.modified = 0
  now : opts.olderThan.getD 0 ≤ c.now

/-- With `calm`, only choices under which every call succeeds. -/
def gcEnv (P : CtlPaths) (opts : GcOpts) (calm : Prop) :
    Prog.Env GcAct GcAct.Res GcWorld fun _ => GcChoice where
  exec := exec P
  ok _ _ c := calm → c.Quiet opts

def GcWorld.Has (w : GcWorld) (path : PathBuf) : Prop := ∃ e ∈ w.entries.rows, e.path = path

section Calls

variable {P : CtlPaths} {opts : GcOpts} {calm : Prop} {w : GcWorld}

theorem wp_call {a : GcAct} {Q : a.Res → GcWorld → Prop}
    (h : ∀ c : GcChoice, (calm → c.Quiet opts) → Q (exec P a w c).1 (exec P a w c).2) :
    (act a).wp (gcEnv P opts calm) Q w := by
  intro w₀ hw c hc
  obtain rfl : w = w₀ := hw
  exact ⟨trivial, h c hc⟩

theorem orFail_cases {α : Type} {c : GcChoice} (hc : calm → c.Quiet opts) (x : α) :
    (¬ calm ∧ ∃ e, orFail c x = .error e) ∨ orFail c x = .ok x := by
  unfold orFail
  cases hfail : c.fail with
  | none => exact Or.inr rfl
  | some e => exact Or.inl ⟨fun h => absurd (hfail.symm.trans (hc h).fail) (by simp), e, rfl⟩

theorem lookup_none_iff {path : PathBuf} : w.entries.lookup path = none ↔ ¬ w.Has path := by
  rw [Table.lookup_eq_none_iff]
  constructor
  · rintro h ⟨e, he, hp⟩
    exact h e he hp
  · exact fun h e he hp => h ⟨e, he, hp⟩

theorem has_of_lookup {path : PathBuf} {e : Entry} (h : w.entries.lookup path = some e) :
    w.Has path := ⟨e, Table.lookup_eq_some_iff.mp h⟩

theorem wp_symlinkMetadata {path : PathBuf}
    {Q : Except String (Option Metadata) → GcWorld → Prop}
    (herr : ¬ calm → ∀ e, Q (.error e) w) (hnone : ¬ w.Has path → Q (.ok none) w)
    (hsome : ∀ md, w.Has path → Q (.ok (some md)) w) :
    (act (.symlinkMetadata path)).wp (gcEnv P opts calm) Q w := by
  refine wp_call fun c hc => ?_
  show Q (orFail c ((w.entries.lookup path).map fun e => ⟨e.isDir, e.len⟩)) w
  obtain ⟨hcalm, e, he⟩ | hok := orFail_cases hc
    ((w.entries.lookup path).map fun e => (⟨e.isDir, e.len⟩ : Metadata))
  · exact he ▸ herr hcalm e
  · rw [hok]
    cases hentry : w.entries.lookup path with
    | none => exact hnone (lookup_none_iff.mp hentry)
    | some e => exact hsome _ (has_of_lookup hentry)

theorem wp_measure {path : PathBuf} {Q : Except CtlError (Option GcTarget) → GcWorld → Prop}
    (herr : ¬ calm → ∀ e, Q (.error e) w) (hnone : ¬ w.Has path → Q (.ok none) w)
    (hsome : ∀ target, target.path = path → w.Has path → Q (.ok (some target)) w) :
    (measure path).run.wp (gcEnv P opts calm) Q w := by
  simp only [measure, wp_run_bind, wp_run_lift]
  refine wp_symlinkMetadata (fun hcalm e => herr hcalm _) hnone fun md hhas => ?_
  simp only [onOk_ok]
  split_ifs
  · exact hsome ⟨path, .file, md.len⟩ rfl hhas
  · simp only [wp_run_bind, wp_run_lift]
    exact wp_call fun c _ => hsome ⟨path, .dir, c.bytes⟩ rfl hhas

end Calls

/-! One instance. -/

def targetPaths (P : CtlPaths) (name : String) (keepData : Bool) : List PathBuf :=
  if keepData then [P.logPath name, rotatedPath (P.logPath name)] else dataPaths P name

section Candidate

variable {P : CtlPaths} {opts : GcOpts} {calm : Prop} {w : GcWorld}

theorem valid_of_recordPath {name : String} {path : PathBuf} (h : P.recordPath name = .ok path) :
    validateName name = .ok () := by
  unfold CtlPaths.recordPath at h
  cases hname : validateName name with
  | ok _ => rfl
  | error e => simp [hname, bind, Except.bind] at h

theorem wp_measure_mem {path : PathBuf} {Q : Except CtlError (Option GcTarget) → GcWorld → Prop}
    (herr : ¬ calm → ∀ e, Q (.error e) w)
    (h : ∀ r : Option GcTarget, (∀ p, p ∈ r.toList.map GcTarget.path ↔ p = path ∧ w.Has p) →
      Q (.ok r) w) : (measure path).run.wp (gcEnv P opts calm) Q w := by
  refine wp_measure herr (fun hnot => h none fun p => ?_) fun target htarget hhas =>
    h (some target) fun p => ?_
  · constructor
    · rintro ⟨⟩
    · rintro ⟨rfl, hp⟩
      exact absurd hp hnot
  · simp only [toList_some, map_cons, map_nil, mem_singleton, htarget]
    constructor
    · rintro rfl
      exact ⟨rfl, hhas⟩
    · exact fun hp => hp.1

theorem wp_measureHome {name : String} {keepData : Bool}
    {Q : Except CtlError (Option GcTarget) → GcWorld → Prop} (hname : validateName name = .ok ())
    (herr : ¬ calm → ∀ e, Q (.error e) w)
    (h : ∀ r : Option GcTarget, (∀ p, p ∈ r.toList.map GcTarget.path ↔
      (keepData = false ∧ p = P.instanceHome name) ∧ w.Has p) → Q (.ok r) w) :
    (measureHome P name keepData).run.wp (gcEnv P opts calm) Q w := by
  cases keepData with
  | true =>
    refine h none fun p => ?_
    simp
  | false =>
    have hhome : P.instanceHomeChecked name = .ok (P.instanceHome name) := by
      simp [CtlPaths.instanceHomeChecked, hname, bind, Except.bind, pure, Except.pure]
    simp only [measureHome, Bool.false_eq_true, if_false, wp_run_bind, wp_run_mk,
      wp_pure, hhome, onOk_ok]
    exact wp_measure_mem herr fun r hr => h r fun p => by simp [hr]

theorem eq_of_recordPath {name : String} {path : PathBuf} (h : P.recordPath name = .ok path) :
    path = P.instancesDir ++ [name ++ ".json"] := by
  have hname := valid_of_recordPath h
  simp only [CtlPaths.recordPath, hname, bind, Except.bind, pure, Except.pure] at h
  exact (Except.ok.inj h).symm

/-- The targets are the paths of the instance that are there. -/
theorem wp_collectTargets {name : String} {keepData : Bool}
    {Q : Except CtlError (List GcTarget) → GcWorld → Prop} (hname : validateName name = .ok ())
    (herr : ¬ calm → ∀ e, Q (.error e) w)
    (h : ∀ targets : List GcTarget,
      (∀ p, p ∈ targets.map GcTarget.path ↔ p ∈ targetPaths P name keepData ∧ w.Has p) →
      Q (.ok targets) w) :
    (collectTargets P name keepData).run.wp (gcEnv P opts calm) Q w := by
  rw [collectTargets, wp_run_bind]
  refine wp_measureHome hname herr fun home hhome => ?_
  rw [onOk_ok, wp_run_bind]
  refine wp_measure_mem herr fun log hlog => ?_
  rw [onOk_ok, wp_run_bind]
  refine wp_measure_mem herr fun rotated hrotated => h _ fun p => ?_
  simp only [map_append, mem_append, hhome, hlog, hrotated, targetPaths, dataPaths]
  cases keepData <;> simp <;> tauto

theorem foldl_max_zero {times : List (Option ℕ)} (h : ∀ t ∈ times, t.getD 0 = 0) :
    times.foldl (fun idle time => max idle (time.getD 0)) 0 = 0 := by
  induction times with
  | nil => rfl
  | cons t times ih =>
    rw [foldl_cons, h t mem_cons_self, Nat.max_self]
    exact ih fun t' ht' => h t' (mem_cons_of_mem _ ht')

theorem wp_ageGate {rec : InstanceRecord} {targets : List GcTarget}
    {Q : Option String → GcWorld → Prop} (h : ∀ r, (calm → r = none) → Q r w) :
    (ageGate P rec targets opts).wp (gcEnv P opts calm) Q w := by
  unfold ageGate
  cases hlimit : opts.olderThan with
  | none => exact h none fun _ => rfl
  | some limit =>
    simp only [wp_bind]
    refine wp_mono (wp_mapM _ (fun _ w' => w' = w) (fun _ r => calm → r.getD 0 = 0) rfl
      fun path _ w' hw => ?_) fun times w' hw => ?_
    · subst hw
      refine wp_call fun c hc => ⟨rfl, fun hcalm => ?_⟩
      have hmodified := (hc hcalm).modified
      simp only [exec]
      cases w'.entries.lookup path <;> cases (orFail c ()).toOption <;> simp [hmodified]
    · obtain ⟨rfl, htimes⟩ := hw
      rw [wp_bind]
      refine wp_call fun c hc => h _ fun hcalm => ?_
      have hidle := foldl_max_zero fun t ht =>
        let ⟨_, _, hrel⟩ := Except.exists_of_forall₂ htimes ht
        hrel hcalm
      have hnow := (hc hcalm).now
      rw [hlimit, getD_some] at hnow
      simp only [hidle, exec, Nat.sub_zero, ite_eq_right_iff, reduceCtorEq, imp_false, not_lt]
      exact hnow

theorem wp_refusal {row : Row} {targets : List GcTarget} {Q : Option String → GcWorld → Prop}
    (h : ∀ r, (r = none → row.2.processIsLiveAndOurs = false) →
      (calm → row.2.processIsLiveAndOurs = false → r = none) → Q r w) :
    (refusal P row targets opts).wp (gcEnv P opts calm) Q w := by
  unfold refusal
  cases hlive : row.2.processIsLiveAndOurs with
  | true =>
    simp only [liveProcessReason, hlive, Bool.not_true, Bool.false_eq_true, if_false]
    exact h _ (by simp) fun _ hdead => absurd (hlive.symm.trans hdead) (by simp)
  | false =>
    simp only [liveProcessReason, hlive, Bool.not_false, if_true]
    exact wp_ageGate fun r hr => h r (fun _ => hlive) fun hcalm _ => hr hcalm

/-- A candidate that is not refused has no process and all its targets; when all calls succeed, an
instance that is stopped and has a target is not refused. -/
theorem wp_candidate {row : Row} {Q : Except CtlError (Option GcItem) → GcWorld → Prop}
    (hname : validateName row.1.name = .ok ()) (herr : ¬ calm → ∀ e, Q (.error e) w)
    (hskip : ∀ r, (∀ item, r = some item → item.refused ≠ none) →
      (calm → row.2.observed.isPrunable = true → row.2.processIsLiveAndOurs = false →
        ∀ p ∈ targetPaths P row.1.name opts.keepData, ¬ w.Has p) → Q (.ok r) w)
    (htake : ∀ item, item.refused = none → row.2.observed.isPrunable = true →
      row.2.processIsLiveAndOurs = false →
      (∀ p, p ∈ item.targets.map GcTarget.path ↔
        p ∈ targetPaths P row.1.name opts.keepData ∧ w.Has p) → Q (.ok (some item)) w) :
    (candidate P opts row).run.wp (gcEnv P opts calm) Q w := by
  unfold candidate
  cases hprunable : row.2.observed.isPrunable with
  | false => exact hskip none (by simp) fun _ h => absurd (hprunable.symm.trans h) (by simp)
  | true =>
    simp only [Bool.not_true, Bool.false_eq_true, if_false, hname, wp_run_bind]
    refine wp_collectTargets hname herr fun targets htargets => ?_
    rw [onOk_ok]
    split_ifs with hempty
    · refine hskip none (by simp) fun _ _ _ p hp hhas => ?_
      rw [List.isEmpty_iff.mp hempty] at htargets
      exact absurd ((htargets p).mpr ⟨hp, hhas⟩) (by simp)
    · simp only [wp_run_bind, wp_run_lift]
      refine wp_refusal fun refused hlive hcalm => ?_
      cases refused with
      | none => exact htake _ rfl hprunable (hlive rfl) htargets
      | some reason =>
        refine hskip _ (fun item hitem => Option.some.inj hitem ▸ (by simp)) fun hc _ hdead => ?_
        exact absurd (hcalm hc hdead) (by simp)

end Candidate

/-! What is listed. -/

section List

variable {P : CtlPaths} {opts : GcOpts} {calm : Prop} {w : GcWorld}

theorem wp_readInstancesDir {Q : Except CtlError (List PathBuf) → GcWorld → Prop}
    (herr : ¬ calm → ∀ e, Q (.error e) w)
    (h : ∀ paths : List PathBuf, (∀ p ∈ paths, p.dropLast = P.instancesDir) →
      (calm → ∀ p, w.Has p → p.dropLast = P.instancesDir → p ∈ paths) → Q (.ok paths) w) :
    (readInstancesDir P).run.wp (gcEnv P opts calm) Q w := by
  simp only [readInstancesDir, wp_run_bind, wp_run_lift]
  refine wp_call fun c hc => ?_
  obtain ⟨hcalm, e, he⟩ | hok := orFail_cases hc ((w.entries.rows.map Entry.path).filter fun p =>
    p.dropLast = P.instancesDir && c.listed p)
  · simp only [exec, he, onOk_ok]
    exact herr hcalm _
  · simp only [exec, hok, onOk_ok]
    refine h _ (fun p hp => ?_) fun hcalm p hhas hdir => ?_
    · simp only [mem_filter, Bool.and_eq_true, decide_eq_true_eq] at hp
      exact hp.2.1
    · obtain ⟨e, he, rfl⟩ := hhas
      simp [mem_filter, (hc hcalm).listed, hdir, List.mem_map_of_mem he]

/-- The row that is read from `path`. -/
def Reads (calm : Prop) (w : GcWorld) (path : PathBuf) (r : Option Row) : Prop :=
  (∀ row, r = some row → row.2 = probeOf row.1 (w.facts row.1) ∧
    ∃ e ∈ w.entries.rows, e.path = path ∧ e.isDir = false ∧ e.record = some row.1) ∧
  (calm → ∀ e ∈ w.entries.rows, e.path = path → e.isDir = false → ∀ rec, e.record = some rec →
    r = some (rec, probeOf rec (w.facts rec)))

theorem wp_readRow (path : PathBuf) :
    (readRow path).wp (gcEnv P opts calm) (fun r w' => w' = w ∧ Reads calm w path r) w := by
  rw [readRow, wp_bind]
  refine wp_call fun c hc => ?_
  -- what is read of the path
  have hread : ∀ rec, (exec P (.readOptional path) w c).1 = some rec →
      ∃ e ∈ w.entries.rows, e.path = path ∧ e.isDir = false ∧ e.record = some rec := by
    intro rec hrec
    simp only [exec] at hrec
    obtain ⟨-, -, hrec⟩ := bind_eq_some_iff.mp hrec
    obtain ⟨e, he, hrec⟩ := bind_eq_some_iff.mp hrec
    obtain ⟨hmem, hpath⟩ := Table.lookup_eq_some_iff.mp he
    cases hdir : e.isDir with
    | true => simp [hdir] at hrec
    | false => exact ⟨e, hmem, hpath, hdir, by simpa [hdir] using hrec⟩
  have hall : calm → ∀ e ∈ w.entries.rows, e.path = path → e.isDir = false →
      ∀ rec, e.record = some rec → (exec P (.readOptional path) w c).1 = some rec := by
    intro hcalm e he hpath hdir rec hrec
    have hlookup : w.entries.lookup path = some e := Table.lookup_eq_some_iff.mpr ⟨he, hpath⟩
    simp [exec, orFail, (hc hcalm).fail, hlookup, hdir, hrec, Except.toOption]
  have hworld : (exec P (.readOptional path) w c).2 = w := rfl
  rw [hworld]
  cases hanswer : (exec P (.readOptional path) w c).1 with
  | none =>
    refine ⟨rfl, fun row hrow => ?_, fun hcalm e he hpath hdir rec hrec => ?_⟩
    · exact absurd hrow (by simp)
    · exact absurd (hanswer.symm.trans (hall hcalm e he hpath hdir rec hrec)) (by simp)
  | some rec =>
    rw [wp_bind]
    refine wp_call fun _ _ => ⟨rfl, fun row hrow => ?_, fun hcalm e he hpath hdir rec' hrec => ?_⟩
    · obtain rfl := Option.some.inj hrow
      exact ⟨rfl, hread rec hanswer⟩
    · obtain rfl : rec = rec' :=
        Option.some.inj (hanswer.symm.trans (hall hcalm e he hpath hdir rec' hrec))
      rfl

theorem isRecordFile_recordPath {name : String} {path : PathBuf}
    (h : P.recordPath name = .ok path) : isRecordFile path = true := by
  have hne : name.toList ≠ [] := by
    intro hempty
    have hvalid := valid_of_recordPath h
    simp [validateName, hempty] at hvalid
  have hfile : fileName path = name ++ ".json" := by
    rw [eq_of_recordPath h, fileName, getLastD_concat]
  have hlong : name ++ ".json" ≠ ".json" := by
    intro heq
    have hlist := congrArg (fun s => s.toList.length) heq
    simp only [String.toList_append, length_append] at hlist
    exact hne (length_eq_zero_iff.mp (by omega))
  simp [isRecordFile, hfile, hlong, endsWith]

/-- The rows are those of the records in the directory. -/
theorem wp_ls {d : StateDir P} {Q : Except CtlError (List Row) → GcWorld → Prop}
    (hentries : w.entries = d.entries) (hfacts : w.facts = d.facts)
    (herr : ¬ calm → ∀ e, Q (.error e) w)
    (h : ∀ rows : List Row, (∀ row ∈ rows, d.Instance row.1 ∧ row = d.row row.1) →
      (calm → ∀ rec, d.Instance rec → d.row rec ∈ rows) → Q (.ok rows) w) :
    (ls P).run.wp (gcEnv P opts calm) Q w := by
  simp only [ls, allRecordPaths, wp_run_bind]
  refine wp_readInstancesDir herr fun paths hdir hall => ?_
  simp only [onOk_ok, wp_run_pure, wp_run_bind, wp_run_lift]
  refine wp_mono (wp_mapM readRow (fun _ w' => w' = w) (Reads calm w) rfl
    fun path _ w' hw => hw ▸ wp_readRow path) ?_
  rintro rows w' ⟨rfl, hrows⟩
  refine h _ (fun row hrow => ?_) fun hcalm rec hrec => ?_
  · have hrow : some row ∈ rows := by simpa using mem_mergeSort.mp hrow
    obtain ⟨path, hpath, hreads⟩ := Except.exists_of_forall₂ hrows hrow
    obtain ⟨hprobe, e, he, rfl, hfile, hrecord⟩ := hreads.1 row rfl
    have hpath' := (mem_filter.mp (mem_mergeSort.mp hpath)).1
    have hnamed := d.named e (hentries ▸ he) row.1 hrecord (hdir e.path hpath')
    refine ⟨⟨e, hentries ▸ he, hfile, hrecord, hnamed⟩, Prod.ext rfl ?_⟩
    rw [hprobe, hfacts]
    rfl
  · obtain ⟨e, he, hfile, hrecord, hnamed⟩ := hrec
    have he' : e ∈ w'.entries.rows := hentries ▸ he
    have hdir' : e.path.dropLast = P.instancesDir := by simp [eq_of_recordPath hnamed]
    have hpath : e.path ∈ (paths.filter isRecordFile).mergeSort fun a b =>
        fileName a ≤ fileName b := by
      refine mem_mergeSort.mpr (mem_filter.mpr ⟨?_, isRecordFile_recordPath hnamed⟩)
      exact hall hcalm e.path ⟨e, he', rfl⟩ hdir'
    obtain ⟨r, hr, hreads⟩ := Except.exists_of_forall₂ hrows.flip hpath
    obtain rfl := hreads.2 hcalm e he' rfl hfile rec hrecord
    refine mem_mergeSort.mpr ?_
    rw [StateDir.row, ← hfacts]
    simpa using hr

end List

/-! What is removed. -/

section Removal

variable {P : CtlPaths} {opts : GcOpts} {calm : Prop} {d : StateDir P} {w : GcWorld}

/-- `p` is a target of an instance that is stopped. -/
def StateDir.Target (d : StateDir P) (keepData : Bool) (rec : InstanceRecord) (p : PathBuf) :
    Prop :=
  d.Collectable rec ∧ d.Has p ∧ p ∈ targetPaths P rec.name keepData

/-- Only targets have been removed. -/
structure Inv (d : StateDir P) (opts : GcOpts) (w : GcWorld) : Prop where
  entries : ∀ e ∈ w.entries.rows, e ∈ d.entries.rows
  removed : ∀ p ∈ w.removed, ∃ rec, d.Target opts.keepData rec p

/-- Every target has been removed, or is there and is still to be removed. -/
def Remaining (d : StateDir P) (opts : GcOpts) (todo : InstanceRecord → PathBuf → Prop)
    (w : GcWorld) : Prop :=
  ∀ rec p, d.Target opts.keepData rec p → p ∈ w.removed ∨ w.Has p ∧ todo rec p

theorem Inv.has (h : Inv d opts w) {p : PathBuf} (hp : w.Has p) : d.Has p := by
  obtain ⟨e, he, rfl⟩ := hp
  exact ⟨e, h.entries e he, rfl⟩

theorem Remaining.mono {todo todo' : InstanceRecord → PathBuf → Prop}
    (h : Remaining d opts todo w)
    (hle : ∀ rec p, d.Target opts.keepData rec p → w.Has p → todo rec p → todo' rec p) :
    Remaining d opts todo' w :=
  fun rec p ht => (h rec p ht).imp_right fun hp => ⟨hp.1, hle rec p ht hp.1 hp.2⟩

theorem mem_targetPaths {name : String} {keepData : Bool} {p : PathBuf}
    (h : p ∈ targetPaths P name keepData) : ∃ x, p = P.instancesDir ++ [x] := by
  have hdata : p ∈ dataPaths P name := by
    cases keepData with
    | true => exact mem_cons_of_mem _ h
    | false => exact h
  simp only [dataPaths, mem_cons, not_mem_nil, or_false] at hdata
  rcases hdata with rfl | rfl | rfl
  · exact ⟨_, rfl⟩
  · exact ⟨_, rfl⟩
  · exact ⟨name ++ ".log" ++ ".1", by simp [rotatedPath, CtlPaths.logPath]⟩

theorem eq_of_mem_prefixes {dir p q : PathBuf} (hp : ∃ x, p = dir ++ [x])
    (hq : ∃ y, q = dir ++ [y]) (h : q <+: p) : q = p := by
  obtain ⟨x, rfl⟩ := hp
  obtain ⟨y, rfl⟩ := hq
  exact h.eq_of_length (by simp)

/-- The path is gone afterwards. -/
theorem wp_removeTarget {owner : InstanceRecord} {q : PathBuf}
    {todo : InstanceRecord → PathBuf → Prop} (hinv : Inv d opts w)
    (hq : d.Target opts.keepData owner q) (hleft : calm → Remaining d opts todo w) :
    (removeTarget q).run.wp (gcEnv P opts calm)
      (onOk (fun _ w' => Inv d opts w' ∧
          (calm → Remaining d opts (fun rec p => todo rec p ∧ p ≠ q) w'))
        fun _ w' => ¬ calm ∧ Inv d opts w') w := by
  simp only [removeTarget, wp_run_bind, wp_run_lift]
  refine wp_symlinkMetadata (fun hcalm e => ⟨hcalm, hinv⟩) (fun hnot => ?_) fun md hhas => ?_
  · refine ⟨hinv, fun hcalm => (hleft hcalm).mono fun rec p _ hp htodo => ⟨htodo, ?_⟩⟩
    rintro rfl
    exact hnot hp
  · simp only [onOk_ok, wp_run_bind, wp_run_lift]
    refine wp_call fun c hc => ?_
    have hremoved : ∀ p ∈ w.removed ++ [q], ∃ rec, d.Target opts.keepData rec p := by
      intro p hp
      rcases mem_append.mp hp with hp | hp
      · exact hinv.removed p hp
      · exact ⟨owner, mem_singleton.mp hp ▸ hq⟩
    obtain ⟨hcalm, e, he⟩ | hok := orFail_cases hc ()
    · simp only [exec, he]
      exact ⟨hcalm, hinv.entries, hremoved⟩
    · simp only [exec, hok]
      refine ⟨⟨fun e he => hinv.entries e (mem_filter.mp he).1, hremoved⟩,
        fun hcalm rec p ht => ?_⟩
      by_cases hpq : p = q
      · subst hpq
        exact Or.inl (mem_append_right _ (mem_singleton_self p))
      · refine ((hleft hcalm) rec p ht).imp (mem_append_left _) fun hp => ⟨?_, hp.2, hpq⟩
        obtain ⟨e, he, rfl⟩ := hp.1
        refine ⟨e, mem_filter.mpr ⟨he, ?_⟩, rfl⟩
        rw [Bool.not_eq_true', Bool.eq_false_iff]
        intro hprefix
        exact hpq (eq_of_mem_prefixes (mem_targetPaths ht.2.2) (mem_targetPaths hq.2.2)
          (List.isPrefixOf_iff_prefix.mp hprefix)).symm

/-- An instance is dealt with: its targets are gone, or it is left alone. -/
theorem wp_collectItem {row : Row} {rest : List Row} (hrow : d.Instance row.1 ∧ row = d.row row.1)
    (hinv : Inv d opts w)
    (hleft : calm → Remaining d opts (fun rec _ => d.row rec ∈ row :: rest) w) :
    (collectItem P opts true row).run.wp (gcEnv P opts calm)
      (onOk (fun _ w' => Inv d opts w' ∧
          (calm → Remaining d opts (fun rec _ => d.row rec ∈ rest) w'))
        fun _ w' => ¬ calm ∧ Inv d opts w') w := by
  obtain ⟨hinstance, hprobe⟩ := hrow
  have hname : validateName row.1.name = .ok () := by
    obtain ⟨e, -, -, -, hpath⟩ := hinstance
    exact valid_of_recordPath hpath
  -- a target of another instance waits for its own row
  have hother : ∀ rec, d.row rec ∈ row :: rest → rec ≠ row.1 → d.row rec ∈ rest := by
    intro rec hrec hne
    rcases mem_cons.mp hrec with heq | hrec
    · exact absurd (congrArg Prod.fst heq) hne
    · exact hrec
  rw [collectItem, wp_run_bind]
  refine wp_candidate hname (fun hcalm _ => ⟨hcalm, hinv⟩) (fun r hr hnone => ?_)
    fun item hrefused hprunable hdead htargets => ?_
  · rw [onOk_ok]
    have hkept : Inv d opts w ∧ (calm → Remaining d opts (fun rec _ => d.row rec ∈ rest) w) := by
      refine ⟨hinv, fun hcalm => (hleft hcalm).mono fun rec p ht hp hrec => hother rec hrec ?_⟩
      rintro rfl
      rw [hprobe] at hnone
      exact hnone hcalm ht.1.2.1 ht.1.2.2 p ht.2.2 hp
    cases r with
    | none => exact hkept
    | some item =>
      have hsome : item.refused.isNone = false :=
        Bool.eq_false_iff.mpr fun h => hr item rfl (isNone_iff_eq_none.mp h)
      simp only [hsome, Bool.and_false, Bool.false_eq_true, if_false]
      exact hkept
  · have hcollectable : d.Collectable row.1 := by
      rw [hprobe] at hprunable hdead
      exact ⟨hinstance, hprunable, hdead⟩
    have htarget : ∀ t ∈ item.targets, d.Target opts.keepData row.1 t.path := by
      intro t ht
      obtain ⟨hpath, hhas⟩ := (htargets t.path).mp (List.mem_map_of_mem ht)
      exact ⟨hcollectable, hinv.has hhas, hpath⟩
    simp only [onOk_ok, hrefused, isNone_none, Bool.and_true, if_true,
      wp_run_bind]
    refine wp_mono (wp_run_forM _ (fun (ts : List GcTarget) w' =>
      (∀ t ∈ ts, d.Target opts.keepData row.1 t.path) ∧ Inv d opts w' ∧
        (calm → Remaining d opts (fun rec p => d.row rec ∈ rest ∨ ∃ t ∈ ts, t.path = p) w'))
      (E := fun _ w' => ¬ calm ∧ Inv d opts w') ⟨htarget, hinv, fun hcalm => ?_⟩
      fun t ts w' h => ?_) fun r w' h => ?_
    · refine (hleft hcalm).mono fun rec p ht hp hrec => ?_
      by_cases hrec' : rec = row.1
      · subst hrec'
        obtain ⟨t, ht', heq⟩ := List.mem_map.mp ((htargets p).mpr ⟨ht.2.2, hp⟩)
        exact Or.inr ⟨t, ht', heq⟩
      · exact Or.inl (hother rec hrec hrec')
    · obtain ⟨hts, hinv', hleft'⟩ := h
      refine wp_mono (wp_removeTarget hinv' (hts t mem_cons_self) hleft') fun r w'' h' => ?_
      cases r with
      | error e => exact h'
      | ok _ =>
        refine ⟨fun t' ht' => hts t' (mem_cons_of_mem _ ht'), h'.1, fun hcalm => ?_⟩
        refine (h'.2 hcalm).mono fun rec p _ _ htodo => ?_
        obtain ⟨hrec | ⟨t', ht', rfl⟩, hne⟩ := htodo
        · exact Or.inl hrec
        · rcases mem_cons.mp ht' with rfl | ht'
          · exact absurd rfl hne
          · exact Or.inr ⟨t', ht', rfl⟩
    · cases r with
      | error e => exact h
      | ok _ =>
        refine ⟨h.2.1, fun hcalm => (h.2.2 hcalm).mono fun rec p _ _ htodo => ?_⟩
        rcases htodo with hrec | ⟨t, ht, -⟩
        · exact hrec
        · exact absurd ht not_mem_nil

theorem wp_collectItems (hinv : Inv d opts w) (hentries : w.entries = d.entries)
    (hfacts : w.facts = d.facts) :
    (collectItems P opts true).run.wp (gcEnv P opts calm)
      (fun _ w' => Inv d opts w' ∧ (calm → ∀ rec p, d.Target opts.keepData rec p → p ∈ w'.removed))
      w := by
  rw [collectItems, wp_run_bind]
  refine wp_ls hentries hfacts (fun hcalm _ => ⟨hinv, fun h => absurd h hcalm⟩)
    fun rows hrows hall => ?_
  rw [onOk_ok, wp_run_bind]
  refine wp_mono (wp_run_mapM _ (fun rest w' =>
    (∀ row ∈ rest, d.Instance row.1 ∧ row = d.row row.1) ∧ Inv d opts w' ∧
      (calm → Remaining d opts (fun rec _ => d.row rec ∈ rest) w'))
    (E := fun _ w' => ¬ calm ∧ Inv d opts w') ⟨hrows, hinv, fun hcalm rec p ht => ?_⟩
    fun row rest w' h => ?_) fun r w' h => ?_
  · obtain ⟨e, he, rfl⟩ := ht.2.1
    exact Or.inr ⟨⟨e, hentries ▸ he, rfl⟩, hall hcalm rec ht.1.1⟩
  · obtain ⟨hrest, hinv', hleft⟩ := h
    refine wp_mono (wp_collectItem (hrest row mem_cons_self) hinv' hleft) fun r w'' h' => ?_
    cases r with
    | error e => exact h'
    | ok _ => exact ⟨fun row' h => hrest row' (mem_cons_of_mem _ h), h'⟩
  · cases r with
    | error e => exact ⟨h.2, fun hcalm => absurd hcalm h.1⟩
    | ok items =>
      refine ⟨h.2.1, fun hcalm rec p ht => ?_⟩
      rcases h.2.2 hcalm rec p ht with hp | ⟨-, hrec⟩
      · exact hp
      · exact absurd hrec not_mem_nil

theorem keeps_measure (path : PathBuf) :
    Prog.Keeps (gcEnv P opts calm) (· = w) (fun w' => ¬ calm ∧ w' = w) (measure path) := by
  rintro w' rfl
  exact wp_measure (fun hcalm _ => ⟨hcalm, rfl⟩) (fun _ => rfl) fun _ _ _ => rfl

theorem keeps_orphanData :
    Prog.Keeps (gcEnv P opts calm) (· = w) (fun w' => ¬ calm ∧ w' = w) (orphanData P) := by
  have hread : Prog.Keeps (gcEnv P opts calm) (· = w) (fun w' => ¬ calm ∧ w' = w)
      (readInstancesDir P) := by
    rintro w' rfl
    exact wp_readInstancesDir (fun hcalm _ => ⟨hcalm, rfl⟩) fun _ _ _ => rfl
  have hbase : ∀ path, (orphanBase P path).Stays (gcEnv P opts calm) (· = w) := by
    rintro path w' rfl
    simp only [orphanBase]
    split_ifs
    · rfl
    · cases instanceBaseName (fileName path) with
      | none => rfl
      | some base =>
        dsimp only
        cases P.recordPath base with
        | error e => rfl
        | ok record =>
          simp only [wp_bind]
          exact wp_call fun _ _ => rfl
  refine hread.bind fun paths => ?_
  refine ((stays_mapM hbase paths).keeps).bind fun found => ?_
  refine keeps_mapM (fun name => ?_) _
  exact (keeps_mapM keeps_measure _).bind fun sizes => keeps_pure _

theorem wp_purge (d : StateDir P) :
    (purge P opts true).run.wp (gcEnv P opts calm)
      (fun _ w' => Inv d opts w' ∧ (calm → ∀ rec p, d.Target opts.keepData rec p → p ∈ w'.removed))
      d.world := by
  have hinv : Inv d opts d.world := ⟨fun _ he => he, (by rintro _ ⟨⟩)⟩
  have hfailed : ¬ calm → Inv d opts d.world ∧
      (calm → ∀ rec p, d.Target opts.keepData rec p → p ∈ d.world.removed) :=
    fun hcalm => ⟨hinv, fun h => absurd h hcalm⟩
  simp only [purge, if_true, wp_run_bind, wp_run_mk]
  refine wp_call fun c hc => ?_
  have hlock : (∃ e, c.lock = .error e) ∨ c.lock = .ok () := by
    cases c.lock with
    | error e => exact Or.inl ⟨e, rfl⟩
    | ok _ => exact Or.inr rfl
  rcases hlock with ⟨e, he⟩ | hok
  · simp only [exec, he, onOk_error]
    exact hfailed fun hcalm => absurd (he.symm.trans (hc hcalm).lock) (by simp)
  · simp only [exec, hok, onOk_ok, wp_run_bind]
    refine wp_mono (keeps_orphanData d.world rfl) fun r w' hr => ?_
    cases r with
    | error e =>
      obtain ⟨hcalm, rfl⟩ := hr
      exact hfailed hcalm
    | ok orphans =>
      obtain rfl : w' = d.world := hr
      rw [onOk_ok, wp_run_bind]
      refine wp_mono (wp_collectItems hinv rfl rfl) fun r w' h => ?_
      cases r <;> exact h

end Removal

/-! Names that coincide. -/

section Names

variable {P : CtlPaths}

theorem append_right_cancel {a b t : String} (h : a ++ t = b ++ t) : a = b := by
  have hlist := congrArg String.toList h
  rw [String.toList_append, String.toList_append] at hlist
  exact String.toList_inj.mp (append_cancel_right hlist)

theorem append_ne_of_getLast {a b s t : String} (h : s.toList.getLast? ≠ t.toList.getLast?)
    (hs : s.toList ≠ []) (ht : t.toList ≠ []) : a ++ s ≠ b ++ t := by
  intro heq
  have hlist := congrArg (fun x => x.toList.getLast?) heq
  simp only [String.toList_append, getLast?_append_of_ne_nil _ hs,
    getLast?_append_of_ne_nil _ ht] at hlist
  exact h hlist

theorem rotatedPath_logPath (name : String) :
    rotatedPath (P.logPath name) = P.instancesDir ++ [name ++ ".log.1"] := by
  simp [rotatedPath, CtlPaths.logPath, String.append_assoc]

/-- The path of a target tells which coincidence of names makes it a path of another instance. -/
theorem shared_cases {a b : String} (hab : b ≠ a) {p : PathBuf} (hp : p ∈ dataPaths P a)
    (hb : p ∈ instancePaths P b) :
    p = P.instanceHome a ∧ (a = b ++ ".json" ∨ a = b ++ ".log" ∨ a = b ++ ".log.1") ∨
      p = P.logPath a ∧ b = a ++ ".log" ∨
      p = rotatedPath (P.logPath a) ∧ b = a ++ ".log.1" := by
  have hlog : a ++ ".log" ≠ b ++ ".json" := append_ne_of_getLast (by decide) (by decide) (by decide)
  have hlog' : a ++ ".log" ≠ b ++ ".log.1" :=
    append_ne_of_getLast (by decide) (by decide) (by decide)
  have hrotated : a ++ ".log.1" ≠ b ++ ".json" :=
    append_ne_of_getLast (by decide) (by decide) (by decide)
  have hrotated' : a ++ ".log.1" ≠ b ++ ".log" :=
    append_ne_of_getLast (by decide) (by decide) (by decide)
  have hsame : ∀ t : String, a ++ t ≠ b ++ t := fun t h => hab (append_right_cancel h).symm
  simp only [instancePaths, dataPaths, rotatedPath_logPath, mem_cons, not_mem_nil,
    or_false] at hp hb ⊢
  simp only [CtlPaths.instanceHome, CtlPaths.logPath] at hp hb ⊢
  rcases hp with rfl | rfl | rfl
  · left
    simp only [append_cancel_left_eq, List.cons.injEq, and_true] at hb
    refine ⟨rfl, ?_⟩
    rcases hb with h | h | h | h
    · exact Or.inl h
    · exact absurd h.symm hab
    · exact Or.inr (Or.inl h)
    · exact Or.inr (Or.inr h)
  · right
    left
    simp only [append_cancel_left_eq, List.cons.injEq, and_true] at hb
    rcases hb with h | h | h | h
    · exact absurd h hlog
    · exact ⟨rfl, h.symm⟩
    · exact absurd h (hsame _)
    · exact absurd h hlog'
  · right
    right
    simp only [append_cancel_left_eq, List.cons.injEq, and_true] at hb
    rcases hb with h | h | h | h
    · exact absurd h hrotated
    · exact ⟨rfl, h.symm⟩
    · exact absurd h hrotated'
    · exact absurd h (hsame _)

theorem append_ne_self {a t : String} (ht : t.toList ≠ []) : a ≠ a ++ t := by
  intro h
  have hlist := congrArg (fun x => x.toList.length) h
  simp only [String.toList_append, length_append] at hlist
  exact ht (length_eq_zero_iff.mp (by omega))

end Names

/-! The removals of a run. -/

/-- What a run of `gc` removes. -/
def removedBy (P : CtlPaths) (opts : GcOpts) (d : StateDir P) (cs : List GcChoice) :
    List PathBuf :=
  ((purge P opts true).run.run (exec P) cs d.world).2.removed

section Runs

variable {P : CtlPaths} {opts : GcOpts} (d : StateDir P)

theorem removed_targets (cs : List GcChoice) (p : PathBuf) (hp : p ∈ removedBy P opts d cs) :
    ∃ rec, d.Target opts.keepData rec p := by
  have hok : ∀ a w c, (gcEnv P opts False).ok a w c := fun _ _ _ h => absurd h id
  have hrun := run_of_wp (fun _ => rfl) (wp_purge d) (choicesOk_of_forall hok cs d.world)
  exact hrun.1.removed p hp

theorem exists_run_removing_all (opts : GcOpts) :
    ∃ cs, ∀ rec p, d.Target opts.keepData rec p → p ∈ removedBy P opts d cs := by
  have hok : ∀ a w, ∃ c, (gcEnv P opts True).ok a w c := fun _ _ =>
    ⟨{ now := opts.olderThan.getD 0 }, fun _ => ⟨rfl, rfl, fun _ => rfl, rfl, Nat.le_refl _⟩⟩
  obtain ⟨cs, hcs⟩ := exists_choicesOk (p := (purge P opts true).run) hok d.world
  exact ⟨cs, (run_of_wp (fun _ => rfl) (wp_purge d) hcs).2 trivial⟩

theorem dataPaths_of_target {keepData : Bool} {rec : InstanceRecord} {p : PathBuf}
    (h : d.Target keepData rec p) : p ∈ dataPaths P rec.name := by
  have hp := h.2.2
  cases keepData with
  | true => exact mem_cons_of_mem _ hp
  | false => exact hp

theorem exists_of_instancePaths {name : String} {q : PathBuf} (h : q ∈ instancePaths P name) :
    ∃ x, q = P.instancesDir ++ [x] := by
  rcases mem_cons.mp h with rfl | h
  · exact ⟨_, rfl⟩
  · have htarget : q ∈ targetPaths P name false := h
    exact mem_targetPaths htarget

theorem not_shared_of_namesApart {keepData : Bool} (hapart : d.NamesApart keepData)
    {rec other : InstanceRecord} {p : PathBuf} (htarget : d.Target keepData rec p)
    (hother : d.Instance other) (hne : other.name ≠ rec.name) :
    p ∉ instancePaths P other.name := by
  intro hp
  obtain ⟨hhome, hlog, hrotated⟩ := hapart rec other htarget.1 hother
  rcases shared_cases hne (dataPaths_of_target d htarget) hp with
    ⟨rfl, hname⟩ | ⟨rfl, hname⟩ | ⟨rfl, hname⟩
  · have hkeep : keepData = false := by
      cases keepData with
      | false => rfl
      | true =>
        have hmem := htarget.2.2
        simp only [targetPaths, if_true, rotatedPath_logPath] at hmem
        simp only [CtlPaths.logPath, CtlPaths.instanceHome, mem_cons, not_mem_nil,
          or_false, append_cancel_left_eq, List.cons.injEq, and_true] at hmem
        rcases hmem with hmem | hmem
        · exact absurd hmem (append_ne_self (by decide))
        · exact absurd hmem (append_ne_self (by decide))
    obtain ⟨hjson, hlog', hrotated'⟩ := hhome hkeep htarget.2.1
    rcases hname with hname | hname | hname
    · exact hjson hname
    · exact hlog' hname
    · exact hrotated' hname
  · exact hlog htarget.2.1 hname
  · exact hrotated htarget.2.1 hname

theorem not_shared_of_onlyOwnData (hruns : ∀ cs, d.OnlyOwnData (removedBy P opts d cs))
    {rec other : InstanceRecord} {p : PathBuf} (htarget : d.Target opts.keepData rec p)
    (hother : d.Instance other) (hne : other.name ≠ rec.name) :
    p ∉ instancePaths P other.name := by
  intro hp
  obtain ⟨cs, hcs⟩ := exists_run_removing_all d opts
  obtain ⟨owner, -, -, halone⟩ := hruns cs p (hcs rec p htarget)
  -- the owner differs from one of the two
  by_cases howner : other.name = owner.name
  · have hrec : rec.name ≠ owner.name := fun h => hne (howner.trans h.symm)
    have hmem : p ∈ instancePaths P rec.name :=
      mem_cons_of_mem _ (dataPaths_of_target d htarget)
    exact halone rec htarget.1.1 hrec p hmem (prefix_refl p)
  · exact halone other hother howner p hp (prefix_refl p)

end Runs

/-- Every run of `gc` deletes only data of instances that are stopped, and nothing of any other
instance, exactly when the names are apart. -/
theorem gc_deletes_own_data_iff (P : CtlPaths) (opts : GcOpts) (d : StateDir P) :
    (∀ cs, d.OnlyOwnData (removedBy P opts d cs)) ↔ d.NamesApart opts.keepData := by
  constructor
  · intro hruns rec other hcollectable hother
    have hshared : ∀ p, d.Has p → p ∈ targetPaths P rec.name opts.keepData →
        other.name ≠ rec.name → p ∉ instancePaths P other.name :=
      fun p hhas hp hne => not_shared_of_onlyOwnData d hruns ⟨hcollectable, hhas, hp⟩ hother hne
    have hlogs : P.logPath rec.name ∈ targetPaths P rec.name opts.keepData ∧
        rotatedPath (P.logPath rec.name) ∈ targetPaths P rec.name opts.keepData := by
      unfold targetPaths dataPaths
      split_ifs <;> simp
    refine ⟨fun hkeep hhas => ?_, fun hhas hname => ?_, fun hhas hname => ?_⟩
    · have hhome : P.instanceHome rec.name ∈ targetPaths P rec.name opts.keepData := by
        simp [targetPaths, hkeep, dataPaths]
      have happly : ∀ t : String, t.toList ≠ [] →
          P.instancesDir ++ [other.name ++ t] ∈ instancePaths P other.name →
          rec.name ≠ other.name ++ t := by
        intro t ht hmem hname
        have hne : other.name ≠ rec.name := hname ▸ append_ne_self ht
        refine hshared _ hhas hhome hne ?_
        rw [CtlPaths.instanceHome, hname]
        exact hmem
      refine ⟨happly _ (by decide) ?_, happly _ (by decide) ?_, happly _ (by decide) ?_⟩
      · exact mem_cons_self
      · simp [instancePaths, dataPaths, CtlPaths.logPath]
      · simp [instancePaths, dataPaths, rotatedPath_logPath]
    · have hne : other.name ≠ rec.name := hname ▸ (append_ne_self (by decide)).symm
      refine hshared _ hhas hlogs.1 hne ?_
      simp [instancePaths, dataPaths, CtlPaths.instanceHome, CtlPaths.logPath, hname]
    · have hne : other.name ≠ rec.name := hname ▸ (append_ne_self (by decide)).symm
      refine hshared _ hhas hlogs.2 hne ?_
      simp [instancePaths, dataPaths, CtlPaths.instanceHome, rotatedPath_logPath, hname]
  · intro hapart cs p hp
    obtain ⟨rec, htarget⟩ := removed_targets d cs p hp
    refine ⟨rec, htarget.1, dataPaths_of_target d htarget, fun other hother hne q hq hle => ?_⟩
    have heq : q = p := eq_of_mem_prefixes (mem_targetPaths htarget.2.2) (exists_of_instancePaths hq) hle
    exact not_shared_of_namesApart d hapart htarget hother hne (heq ▸ hq)

/-- An instance that is stopped, and one that runs and is called like its log. -/
def stoppedA : InstanceRecord := { name := "a", state := .stopped }

def runningALog : InstanceRecord := { name := "a.log", state := .ready, pid := some 7 }

def varState : CtlPaths := ⟨["var", "crabmate"]⟩

def homeAtLog : StateDir varState where
  entries :=
    ⟨[{ path := ["var", "crabmate", "instances", "a.json"], isDir := false,
        record := some stoppedA },
      { path := ["var", "crabmate", "instances", "a.log.json"], isDir := false,
        record := some runningALog },
      { path := ["var", "crabmate", "instances", "a.log"], isDir := true }], by decide⟩
  facts rec := if rec.pid = some 7 then ⟨true, .match, true⟩ else ⟨false, .noPid, false⟩
  named e he rec hrec _ := by
    simp only [mem_cons, not_mem_nil, or_false] at he
    rcases he with rfl | rfl | rfl
    · obtain rfl := Option.some.inj hrec
      decide +kernel
    · obtain rfl := Option.some.inj hrec
      decide +kernel
    · exact absurd hrec (by simp)

/-- The home of a running instance is deleted as the log of a stopped one. -/
theorem gc_deletes_home_as_log :
    ∃ cs, ["var", "crabmate", "instances", "a.log"] ∈ removedBy varState {} homeAtLog cs ∧
      ¬ homeAtLog.OnlyOwnData (removedBy varState {} homeAtLog cs) := by
  have hstopped : homeAtLog.Instance stoppedA :=
    ⟨_, mem_cons_self, rfl, rfl, by decide +kernel⟩
  have hrunning : homeAtLog.Instance runningALog :=
    ⟨_, mem_cons_of_mem _ mem_cons_self, rfl, rfl, by decide +kernel⟩
  have htarget : homeAtLog.Target false stoppedA ["var", "crabmate", "instances", "a.log"] :=
    ⟨⟨hstopped, by decide, by decide⟩, ⟨_, mem_cons_of_mem _ (mem_cons_of_mem _
      mem_cons_self), rfl⟩, by decide +kernel⟩
  obtain ⟨cs, hcs⟩ := exists_run_removing_all homeAtLog {}
  have hremoved := hcs stoppedA _ htarget
  refine ⟨cs, hremoved, fun honly => ?_⟩
  obtain ⟨owner, -, -, halone⟩ := honly _ hremoved
  by_cases howner : "a" = owner.name
  · have hne : runningALog.name ≠ owner.name := howner ▸ (by decide)
    exact halone runningALog hrunning hne _ (by decide +kernel) (prefix_refl _)
  · exact halone stoppedA hstopped howner _ (by decide +kernel) (prefix_refl _)

end CrabMate.Ctl.Gc
