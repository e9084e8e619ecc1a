import CrabMate.Lib.Journal
import CrabMate.Lib.Run
import CrabMate.Tools.FileWrites

/-! The changelist after any sequence of writes against the files: when its baselines are the
contents from the start of the session and its current texts the present ones. -/
namespace CrabMate
open RustStr LexPath Journal List Function

section Truth

variable {σ K : Type} [DecidableEq K] (w : Workspace σ K)

/-- The file that a path of the changelist is about. -/
def Workspace.fileOf (rel : Str) : Option K := (w.absolutize rel).map w.fileAt

/-- The changelist of a session tells the truth about the files: its baselines are the contents at
the start and its current texts the present ones, and no other file has changed. -/
structure ChangelistTruthful (start : σ) (s : WriteSession σ) : Prop where
  tracked : ∀ t ∈ s.changelist.files.rows, ∃ k, w.fileOf t.rel = some k ∧
    w.content start k = t.baseline.map .text ∧ w.content s.disk k = t.current.map .text
  untouched : ∀ k, (∀ t ∈ s.changelist.files.rows, w.fileOf t.rel ≠ some k) →
    w.content s.disk k = w.content start k

/-- The changelist as the log of a journal. -/
def WorkspaceChangelist.log (cl : WorkspaceChangelist) (rel : Str) :
    Option (Option Str × Option Str) :=
  (cl.files.lookup rel).map fun t => (t.baseline, t.current)

def WriteSession.journal (s : WriteSession σ) :
    Journal.State K Str (Option FileContent) (Option Str) :=
  ⟨w.content s.disk, s.changelist.log⟩

abbrev JournalTruthful (start : σ) (s : WriteSession σ) : Prop :=
  Journal.Truthful w.fileOf (Option.map .text) (w.content start) (s.journal w)

/-- The text that reading a file gives. -/
def FileContent.text? : Option FileContent → Option Str
  | some (.text t) => some t
  | _ => none

variable {w} {start : σ} {s s' : WriteSession σ}

theorem toOption_readToString (disk : σ) (p : FsPath) :
    (w.readToString disk p).toOption = FileContent.text? (w.content disk (w.fileAt p)) := by
  cases hread : w.readToString disk p with
  | ok t => rw [w.read_ok hread]; rfl
  | error e =>
    have hnot : ∀ t, w.content disk (w.fileAt p) ≠ some (.text t) := by
      intro t ht
      rw [w.readToString_text ht] at hread
      cases hread
    unfold FileContent.text?
    split
    · next t ht => exact absurd ht (hnot t)
    · rfl

theorem log_ne_none {cl : WorkspaceChangelist} {rel : Str} :
    cl.log rel ≠ none ↔ ∃ t ∈ cl.files.rows, t.rel = rel := by
  simp [WorkspaceChangelist.log, Table.lookup_eq_none_iff]

theorem log_eq_some {cl : WorkspaceChangelist} {rel : Str} {e : Option Str × Option Str} :
    cl.log rel = some e ↔
      ∃ t ∈ cl.files.rows, t.rel = rel ∧ (t.baseline, t.current) = e := by
  simp [WorkspaceChangelist.log, Table.lookup_eq_some_iff, and_assoc]

theorem changelistTruthful_of_journal
    (h : JournalTruthful w start s) :
    ChangelistTruthful w start s where
  tracked t ht := h.logged t.rel _ (log_eq_some.mpr ⟨t, ht, rfl, rfl⟩)
  untouched k hk := by
    refine h.rest k fun rel hrel => ?_
    obtain ⟨t, ht, rfl⟩ := log_ne_none.mp hrel
    exact hk t ht

theorem log_recordMutation (cl : WorkspaceChangelist) {rel : Str} (hrel : trim rel ≠ [])
    (before after : Option Str) :
    (cl.recordMutation rel before after).log = Function.update cl.log (trim rel)
      (some (((cl.log (trim rel)).map Prod.fst).getD before, after)) := by
  funext n
  have hempty : (trim rel).isEmpty = false := by simpa using hrel
  simp only [WorkspaceChangelist.log, WorkspaceChangelist.recordMutation, hempty,
    Bool.false_eq_true, if_false]
  cases hold : cl.files.lookup (trim rel) with
  | none =>
    by_cases hn : n = trim rel
    · subst hn
      simp [Table.lookup_put_self cl.files ⟨trim rel, before, after⟩]
    · simp [hn, WorkspaceChangelist.log,
        Table.lookup_put_of_ne cl.files (r := ⟨trim rel, before, after⟩) (Ne.symm hn)]
  | some t =>
    simp only [Option.isSome_some, if_true]
    rw [Table.lookup_updateWhere]
    by_cases hn : n = trim rel
    · subst hn
      have ht := (Table.lookup_eq_some_iff.mp hold).2
      simp [hold, ht]
    · rw [update_of_ne hn, WorkspaceChangelist.log]
      cases hother : cl.files.lookup n with
      | none => rfl
      | some u =>
        have hu : u.rel ≠ trim rel := by
          rw [(Table.lookup_eq_some_iff.mp hother).2]
          exact hn
        simp [hu]

/-- A path that leads to its file through the changelist too, by the one spelling among `others`
and the paths in the changelist. -/
structure WriteSession.Named (w : Workspace σ K) (s : WriteSession σ) (others : List Str)
    (rel : Str) (p : FsPath) : Prop where
  nonempty : trim rel ≠ []
  place : w.fileOf (trim rel) = some (w.fileAt p)
  one : ∀ n, (∃ t ∈ s.changelist.files.rows, t.rel = n) ∨ n ∈ others →
    w.fileOf n = some (w.fileAt p) → n = trim rel

def WriteSession.Tracks (s : WriteSession σ) (rel : Str) : Prop :=
  ∃ t ∈ s.changelist.files.rows, t.rel = trim rel

/-- What a call changes it reports as it should. -/
def Reports (w : Workspace σ K) (s s' : WriteSession σ) : Prop :=
  ∃ ws, s'.journal w = ws.foldl State.write (s.journal w) ∧
    FitAll w.fileOf (Option.map .text) (s.journal w) [] ws

variable {others seen : List Str} {rel : Str} {p : FsPath} {before after : Option Str}

theorem WriteSession.Named.fits (h : s.Named w others rel p) (hseen : ∀ n ∈ seen, n ∈ others)
    (hbefore : ¬ s.Tracks rel → trim rel ∉ seen →
      w.content s.disk (w.fileAt p) = before.map .text) (after : Option Str) :
    FitsAfter w.fileOf (Option.map .text) (s.journal w) seen
      ⟨trim rel, before, after, w.fileAt p, after.map .text⟩ where
  place := h.place
  named n hn := h.one n (hn.imp log_ne_none.mp (hseen n))
  before hnone := hbefore fun ht => log_ne_none.mpr ht hnone
  after := rfl

theorem reports_of_same {disk : σ} (h : w.content disk = w.content s.disk) :
    Reports w s { s with disk } :=
  ⟨[], State.ext h rfl, trivial⟩

theorem reports_record (hnamed : s.Named w [] rel p)
    (hbefore : ¬ s.Tracks rel → w.content s.disk (w.fileAt p) = before.map .text) {disk : σ}
    (hdisk : w.content disk =
      Function.update (w.content s.disk) (w.fileAt p) (after.map .text)) :
    Reports w s ⟨disk, s.changelist.recordMutation (trim rel) before after⟩ := by
  have hne : trim (trim rel) ≠ [] := by
    rw [trim_trim]
    exact hnamed.nonempty
  refine ⟨[⟨trim rel, before, after, w.fileAt p, after.map .text⟩], State.ext hdisk ?_, ?_, trivial⟩
  · have hlog := log_recordMutation s.changelist hne before after
    rwa [trim_trim] at hlog
  · exact hnamed.fits (fun _ h => h) (fun ht _ => hbefore ht) after

/-- Reading a file back gives its text. -/
theorem recordFileStateAfterWrite_eq (hnamed : s.Named w others rel p) (t : WriteSession σ)
    (before : Option Str) :
    recordFileStateAfterWrite w t (trim rel) before =
      ⟨t.disk, t.changelist.recordMutation (trim rel) before
        (FileContent.text? (w.content t.disk (w.fileAt p)))⟩ := by
  have hempty : (trim rel).isEmpty = false := by simpa using hnamed.nonempty
  obtain ⟨q, hq, hfile⟩ := Option.map_eq_some_iff.mp hnamed.place
  rw [recordFileStateAfterWrite, trim_trim]
  simp only [hempty, Bool.false_eq_true, if_false, hq, Option.bind_some, toOption_readToString,
    hfile]

theorem reports_readBack (hnamed : s.Named w [] rel p)
    (hbefore : ¬ s.Tracks rel → w.content s.disk (w.fileAt p) = before.map .text) {disk : σ}
    {text : Str} (hdisk : w.content disk =
      Function.update (w.content s.disk) (w.fileAt p) (some (.text text))) :
    Reports w s (recordFileStateAfterWrite w { s with disk } (trim rel) before) := by
  have hafter : FileContent.text? (w.content disk (w.fileAt p)) = some text := by
    rw [hdisk, update_self]
    rfl
  rw [recordFileStateAfterWrite_eq hnamed, hafter]
  exact reports_record hnamed hbefore hdisk

theorem Reports.truthful (h : Reports w s s')
    (hs : JournalTruthful w start s) :
    JournalTruthful w start s' := by
  obtain ⟨ws, hjournal, hfit⟩ := h
  rw [JournalTruthful, hjournal]
  exact hs.writes hfit

theorem recordFileStateAfterWrite_trim (t : WriteSession σ) (rel : Str) (before : Option Str) :
    recordFileStateAfterWrite w t rel before = recordFileStateAfterWrite w t (trim rel) before := by
  rw [recordFileStateAfterWrite, recordFileStateAfterWrite, trim_trim]

/-- The file holds a text. -/
def Workspace.HasText (w : Workspace σ K) (disk : σ) (p : FsPath) : Prop :=
  ∃ t, w.content disk (w.fileAt p) = some (.text t)

def Workspace.IsAbsent (w : Workspace σ K) (disk : σ) (p : FsPath) : Prop :=
  w.content disk (w.fileAt p) = none

theorem text?_readToString {disk : σ} (h : w.IsAbsent disk p ∨ w.HasText disk p) :
    w.content disk (w.fileAt p) = (w.readToString disk p).toOption.map .text := by
  rw [toOption_readToString]
  rcases h with h | ⟨t, h⟩
  · rw [show w.content disk (w.fileAt p) = none from h]
    rfl
  · rw [h]
    rfl

theorem createFile_reports {path content : Str} {skipPrecheck : Bool}
    (hfit : ∀ target, w.forWrite s.disk path = .ok target → s.Named w [] path target)
    (h : createFile w s path content skipPrecheck = .ok s') : Reports w s s' := by
  obtain ⟨target, disk, htarget, hnew, hdisk, rfl⟩ := createFile_eq_ok h
  rw [recordFileStateAfterWrite_trim]
  have hbefore : ¬ s.Tracks path →
      w.content s.disk (w.fileAt target) = (none : Option Str).map .text := fun _ => w.absent hnew
  exact reports_readBack (hfit target htarget) hbefore (w.createNew_ok hdisk)

theorem appendFile_reports {args : AppendFileArgs}
    (hfit : args.dryRun = false → ∀ target,
      appendResolveTargetPath w s.disk (trim args.path) args.createIfMissing = .ok target →
      s.Named w [] args.path target ∧ (w.IsAbsent s.disk target ∨ w.HasText s.disk target))
    (h : appendFile w s args = .ok s') : Reports w s s' := by
  obtain ⟨target, disk, -, htarget, hsame, ⟨-, rfl⟩ | ⟨hdry, body, appended, happend, rfl⟩⟩ :=
    appendFile_eq_ok h
  · exact reports_of_same hsame
  · obtain ⟨hnamed, htext⟩ := hfit hdry target htarget
    have htext' : w.IsAbsent disk target ∨ w.HasText disk target := by
      rwa [Workspace.IsAbsent, Workspace.HasText, hsame]
    have hleft := w.appendTo_ok happend
    rw [hsame] at hleft
    obtain ⟨text, hwritten⟩ : ∃ text, w.content appended =
        Function.update (w.content s.disk) (w.fileAt target) (some (.text text)) := by
      rcases htext with hnone | ⟨old, hold⟩
      · exact ⟨body, by rw [hleft, show w.content s.disk (w.fileAt target) = none from hnone]⟩
      · exact ⟨old ++ body, by rw [hleft, hold]⟩
    have hafter : (w.readToString appended target).toOption = some text := by
      rw [toOption_readToString, hwritten, update_self]
      rfl
    rw [hafter]
    refine reports_record hnamed (fun _ => ?_) hwritten
    rw [← hsame]
    exact text?_readToString htext'

theorem modifyFile_reports {path : Str} {mode : ModifyMode} {dryRun skipPrecheck : Bool}
    (hfit : dryRun = false → ∀ target, w.forRead s.disk (trim path) = .ok target →
      s.Named w [] path target ∧ w.HasText s.disk target)
    (h : modifyFile w s path mode dryRun skipPrecheck = .ok s') : Reports w s s' := by
  obtain ⟨target, htarget, ⟨-, rfl⟩ | ⟨hdry, text, disk, hdisk, rfl⟩⟩ := modifyFile_eq_ok h
  · exact reports_of_same rfl
  · obtain ⟨hnamed, htext⟩ := hfit hdry target htarget
    exact reports_readBack hnamed (fun _ => text?_readToString (.inr htext))
      (commitText_content hdisk)

theorem searchReplace_reports {path : Str} {edit : Str → Except Str Str}
    {dryRun skipPrecheck : Bool}
    (hfit : dryRun = false → ∀ target, w.forRead s.disk (trim path) = .ok target →
      s.Named w [] path target)
    (h : searchReplace w s path edit dryRun skipPrecheck = .ok s') : Reports w s s' := by
  obtain ⟨target, content, htarget, hread, ⟨-, rfl⟩ | ⟨hdry, text, disk, hdisk, rfl⟩⟩ :=
    searchReplace_eq_ok h
  · exact reports_of_same rfl
  · have hbefore : ¬ s.Tracks path →
        w.content s.disk (w.fileAt target) = (some content).map .text := fun _ => w.read_ok hread
    exact reports_readBack (hfit hdry target htarget) hbefore (commitText_content hdisk)

theorem copyFile_reports {source dest : Str} {overwrite : Bool}
    (hfit : ∀ src dst, w.forRead s.disk (trim source) = .ok src →
      w.forWrite s.disk (trim dest) = .ok dst →
      s.Named w [] dest dst ∧ w.HasText s.disk src ∧ (s.Tracks dest ∨ w.IsAbsent s.disk dst))
    (h : copyFile w s source dest overwrite = .ok s') : Reports w s s' := by
  obtain ⟨src, dst, disk, hsrc, hdst, hdisk, rfl⟩ := copyFile_eq_ok h
  obtain ⟨hnamed, ⟨text, htext⟩, hdest⟩ := hfit src dst hsrc hdst
  have hbefore : ¬ s.Tracks dest →
      w.content s.disk (w.fileAt dst) = (none : Option Str).map .text := hdest.resolve_left
  have hleft := w.copyTo_ok hdisk
  rw [htext] at hleft
  exact reports_readBack hnamed hbefore hleft

theorem hasText_of_tracks
    (hs : JournalTruthful w start s)
    (hnamed : s.Named w others rel p) (ht : s.Tracks rel) (hp : ¬ w.IsAbsent s.disk p) :
    w.HasText s.disk p := by
  obtain ⟨t, hmem, hrel⟩ := ht
  obtain ⟨k, hk, -, hnow⟩ := hs.logged (trim rel) _ (log_eq_some.mpr ⟨t, hmem, hrel, rfl⟩)
  obtain rfl := Option.some.inj (hk.symm.trans hnamed.place)
  cases hcurrent : t.current with
  | none => exact absurd (hnow.trans (by rw [hcurrent]; rfl)) hp
  | some text => exact ⟨text, hnow.trans (by rw [hcurrent]; rfl)⟩

theorem moveFile_reports {source dest : Str} {overwrite : Bool}
    (hs : JournalTruthful w start s)
    (hfit : ∀ src dst, w.forRead s.disk (trim source) = .ok src →
      w.forWrite s.disk (trim dest) = .ok dst →
      w.fileAt src ≠ w.fileAt dst ∧ s.Named w [] source src ∧ s.Named w [] dest dst ∧
        s.Tracks source ∧ (s.Tracks dest ∨ w.IsAbsent s.disk dst))
    (h : moveFile w s source dest overwrite = .ok s') : Reports w s s' := by
  obtain ⟨src, dst, disk, hsrc, hfile, hdst, hdisk, rfl⟩ := moveFile_eq_ok h
  obtain ⟨hne, hnamed, hnamed', ht, hdest⟩ := hfit src dst hsrc hdst
  have hpresent : ¬ w.IsAbsent s.disk src := by
    have hsome := w.isFile_iff.mp hfile
    intro hnone
    rw [show w.content s.disk (w.fileAt src) = none from hnone] at hsome
    cases hsome
  obtain ⟨text, htext⟩ := hasText_of_tracks hs hnamed ht hpresent
  have hcontent := w.rename_ok hne hdisk
  rw [htext] at hcontent
  have hgone : FileContent.text? (w.content disk (w.fileAt src)) = none := by
    rw [hcontent, update_of_ne hne, update_self]
    rfl
  have hmoved : FileContent.text? (w.content disk (w.fileAt dst)) = some text := by
    rw [hcontent, update_self]
    rfl
  rw [recordFileStateAfterWrite_eq hnamed, recordFileStateAfterWrite_eq hnamed', hgone, hmoved]
  have hsource : trim (trim source) ≠ [] := by
    rw [trim_trim]
    exact hnamed.nonempty
  have hdest' : trim (trim dest) ≠ [] := by
    rw [trim_trim]
    exact hnamed'.nonempty
  refine ⟨[⟨trim source, none, none, w.fileAt src, none⟩,
    ⟨trim dest, none, some text, w.fileAt dst, some (.text text)⟩], State.ext hcontent ?_, ?_, ?_,
    trivial⟩
  · have hlog := log_recordMutation (s.changelist.recordMutation (trim source) none none) hdest'
      none (some text)
    rw [log_recordMutation s.changelist hsource, trim_trim, trim_trim] at hlog
    exact hlog
  · exact hnamed.fits (fun _ h => h) (fun hnot => absurd ht hnot) none
  · refine ⟨hnamed'.place, ?_, ?_, rfl⟩
    · rintro n (hn | hn) hplace
      · exact hnamed'.one n (.inl (log_ne_none.mp hn)) hplace
      · rw [mem_singleton.mp hn] at hplace
        exact absurd (Option.some.inj (hnamed.place.symm.trans hplace)) hne
    · intro hnone _
      exact hdest.resolve_left fun ht => log_ne_none.mpr ht hnone

/-- The deletion of a file of the disk before the call. -/
def deletion (w : Workspace σ K) (disk : σ) (t : Str × FsPath) :
    Write K Str (Option FileContent) (Option Str) :=
  ⟨t.1, FileContent.text? (w.content disk (w.fileAt t.2)), none, w.fileAt t.2, none⟩

theorem deleteFilesExecute_journal {targets : List (Str × FsPath)} {disk : σ}
    (hnames : ∀ t ∈ targets, trim t.1 = t.1 ∧ t.1 ≠ [])
    (hfiles : targets.Pairwise fun t u => w.fileAt t.2 ≠ w.fileAt u.2)
    (hsame : ∀ t ∈ targets, w.content s.disk (w.fileAt t.2) = w.content disk (w.fileAt t.2))
    (h : deleteFilesExecute w targets s = (s', [])) :
    s'.journal w = (targets.map (deletion w disk)).foldl State.write (s.journal w) := by
  induction targets generalizing s with
  | nil =>
    obtain ⟨rfl, -⟩ := Prod.mk.inj h
    rfl
  | cons t targets ih =>
    obtain ⟨hhead, htail⟩ := pairwise_cons.mp hfiles
    obtain ⟨htrim, hne⟩ := hnames t mem_cons_self
    rw [deleteFilesExecute] at h
    split at h
    · next after hremove =>
      have hcontent := w.removeFile_ok hremove
      rw [toOption_readToString, hsame t mem_cons_self] at h
      have hrest := ih (fun u hu => hnames u (mem_cons_of_mem _ hu)) htail (fun u hu => by
        rw [hcontent, update_of_ne (hhead u hu).symm]
        exact hsame u (mem_cons_of_mem _ hu)) h
      rw [hrest, map_cons, foldl_cons]
      congr 1
      have hne' : trim t.1 ≠ [] := by rwa [htrim]
      have hlog := log_recordMutation s.changelist hne'
        (FileContent.text? (w.content disk (w.fileAt t.2))) none
      rw [htrim] at hlog
      exact State.ext hcontent hlog
    · exact absurd (congrArg Prod.snd h) (cons_ne_nil _ _)

theorem fitAll_deletions {targets : List (Str × FsPath)} {others : List Str}
    (htargets : ∀ t ∈ targets, trim t.1 = t.1 ∧ t.1 ∈ others ∧ s.Named w others t.1 t.2 ∧
      w.HasText s.disk t.2) {seen : List Str} (hseen : ∀ n ∈ seen, n ∈ others) :
    FitAll w.fileOf (Option.map .text) (s.journal w) seen
      (targets.map (deletion w s.disk)) := by
  induction targets generalizing seen with
  | nil => trivial
  | cons t targets ih =>
    obtain ⟨htrim, hmem, hnamed, htext⟩ := htargets t mem_cons_self
    constructor
    · have hbefore : w.content s.disk (w.fileAt t.2) =
          (FileContent.text? (w.content s.disk (w.fileAt t.2))).map .text := by
        rw [← toOption_readToString]
        exact text?_readToString (.inr htext)
      have hfits := hnamed.fits hseen (fun _ _ => hbefore) none
      rwa [htrim] at hfits
    · refine ih (fun u hu => htargets u (mem_cons_of_mem _ hu)) fun n hn => ?_
      rcases mem_cons.mp hn with rfl | hn
      · exact hmem
      · exact hseen n hn

theorem deleteFiles_reports {raws : List Str} {confirm : Bool}
    (hfit : ∀ raw ∈ raws, ∀ target, w.forRead s.disk (trim raw) = .ok target →
      s.Named w (raws.map trim) raw target ∧ w.HasText s.disk target)
    (h : deleteFiles w s raws confirm = .ok s') : Reports w s s' := by
  obtain ⟨targets, hnodup, htargets, hrun⟩ := deleteFiles_eq_ok h
  have heach : ∀ t ∈ targets, trim t.1 = t.1 ∧ t.1 ∈ raws.map trim ∧
      s.Named w (raws.map trim) t.1 t.2 ∧ w.HasText s.disk t.2 := by
    intro t ht
    obtain ⟨⟨raw, hraw, hname, -⟩, hread⟩ := htargets t ht
    obtain ⟨hnamed, htext⟩ := hfit raw hraw t.2 (hname ▸ hread)
    have htrim : trim t.1 = t.1 := by rw [hname, trim_trim]
    refine ⟨htrim, hname ▸ mem_map_of_mem hraw, ⟨?_, ?_, ?_⟩, htext⟩
    · rw [htrim, hname]
      exact hnamed.nonempty
    · rw [htrim, hname]
      exact hnamed.place
    · rw [htrim, hname]
      exact hnamed.one
  have hfiles : targets.Pairwise fun t u => w.fileAt t.2 ≠ w.fileAt u.2 := by
    refine (pairwise_map.mp hnodup).imp_of_mem fun {t u} ht hu hne hfile => hne ?_
    obtain ⟨-, hmem, hnamed, -⟩ := heach t ht
    obtain ⟨htrim, -, hnamed', -⟩ := heach u hu
    have hplace := hnamed.place
    rw [(heach t ht).1, hfile] at hplace
    rw [hnamed'.one t.1 (.inr hmem) hplace, htrim]
  refine ⟨targets.map (deletion w s.disk), ?_, ?_⟩
  · exact deleteFilesExecute_journal (fun t ht => by
      obtain ⟨⟨-, -, -, hne⟩, -⟩ := htargets t ht
      exact ⟨(heach t ht).1, hne⟩) hfiles (fun _ _ => rfl) hrun
  · exact fitAll_deletions heach (fun n hn => absurd hn not_mem_nil)

end Truth

section Patches

variable {σ K P : Type} [DecidableEq K] {w : Workspace σ K} {s s' : WriteSession σ}
  {diffy : Diffy P} {absolutizeFrom : AbsolutizeFrom} {apply : PatchApply} {others : List Str}
  {plan : PlannedPatch} {plans : List PlannedPatch}

def PlannedPatch.before : PlannedPatch → Option Str
  | .modify _ before _ => some before
  | .create _ _ => none
  | .delete _ before => before

def PlannedPatch.after : PlannedPatch → Option Str
  | .modify _ _ after => some after
  | .create _ after => some after
  | .delete _ _ => none

theorem recordPlan_some (hdry : apply.dryRun = false) (plan : PlannedPatch)
    (cl : WorkspaceChangelist) :
    recordPlan apply plan (some cl) = some (cl.recordMutation plan.rel plan.before plan.after) := by
  cases plan <;> simp [recordPlan, hdry, PlannedPatch.rel, PlannedPatch.before, PlannedPatch.after]

theorem leaves_eq (plan : PlannedPatch) : plan.leaves = plan.after.map .text := by
  cases plan <;> rfl

/-- A committed plan as a write of the journal. -/
def planWrite (w : Workspace σ K) (apply : PatchApply) (plan : PlannedPatch) :
    Write K Str (Option FileContent) (Option Str) :=
  ⟨trim plan.rel, plan.before, plan.after, w.fileAt (apply.path plan.rel), plan.after.map .text⟩

theorem foldl_planWrite (hdry : apply.dryRun = false)
    (hnames : ∀ plan ∈ plans, trim plan.rel ≠ []) (m : K → Option FileContent)
    (cl : WorkspaceChangelist) :
    ∃ cl', plans.foldl (fun cl plan => recordPlan apply plan cl) (some cl) = some cl' ∧
      (⟨plans.foldl (leaveOn w.toFileSystem apply) m, cl'.log⟩ :
        Journal.State K Str (Option FileContent) (Option Str)) =
        (plans.map (planWrite w apply)).foldl State.write ⟨m, cl.log⟩ := by
  induction plans generalizing m cl with
  | nil => exact ⟨cl, rfl, rfl⟩
  | cons plan plans ih =>
    have hlog := log_recordMutation cl (hnames plan mem_cons_self) plan.before plan.after
    obtain ⟨cl', hcl', hjournal⟩ := ih (fun q hq => hnames q (mem_cons_of_mem _ hq))
      (leaveOn w.toFileSystem apply m plan) (cl.recordMutation plan.rel plan.before plan.after)
    refine ⟨cl', ?_, ?_⟩
    · rw [foldl_cons, recordPlan_some hdry]
      exact hcl'
    · rw [foldl_cons, hjournal, map_cons, foldl_cons, hlog, leaveOn, leaves_eq]
      rfl

/-- What a plan reports as the text before is what its file has before the call, unless it creates
the file. -/
def PlannedPatch.ReadsFile (w : Workspace σ K) (apply : PatchApply) (disk : σ) :
    PlannedPatch → Prop
  | .modify rel before _ => w.readToString disk (apply.path rel) = .ok before
  | .create _ _ => True
  | .delete rel before => before = (w.readToString disk (apply.path rel)).toOption

theorem readsFile_of_planSingleHunk {disk : σ} {chunk : Str} {strip : ℕ}
    (h : (planSingleHunk diffy w.toDisk apply disk chunk strip).1 = .ok (some plan)) :
    plan.ReadsFile w apply disk := by
  unfold planSingleHunk at h
  split at h
  · cases h
  · next filePath originalPath _ =>
    split at h
    · cases hpatched : patched diffy filePath [] chunk with
      | error e => simp [hpatched, Except.map] at h
      | ok after =>
        simp only [hpatched, Except.map, Except.ok.injEq, Option.some.injEq] at h
        rw [← h]
        trivial
    · dsimp only at h
      split at h
      · simp only [Except.ok.injEq, Option.some.injEq] at h
        rw [← h]
        rfl
      · cases h
    · obtain ⟨before, hbefore, h⟩ := Except.bind_eq_ok.mp h
      obtain ⟨after, -, h⟩ := Except.bind_eq_ok.mp h
      rw [← Option.some.inj (Except.ok.inj h)]
      exact mapError_eq_ok.mp hbefore

theorem readsFile_of_patchPlans {disk : σ} {patch : Option Str} {strip : ℕ}
    (h : patchPlans diffy w.toDisk apply absolutizeFrom disk patch strip = .ok plans) :
    ∀ plan ∈ plans, plan.ReadsFile w apply disk := by
  intro plan hplan
  obtain ⟨patchText, chunks, -, -, -, rfl⟩ := patchPlans_ok h
  obtain ⟨c, -, hc⟩ := mem_filterMap.mp hplan
  have hjoin : (planSingleHunk diffy w.toDisk apply disk c.hunk strip).1.toOption.join =
      some plan := hc
  cases hchunk : (planSingleHunk diffy w.toDisk apply disk c.hunk strip).1 with
  | error e =>
    rw [hchunk] at hjoin
    cases hjoin
  | ok plan' =>
    rw [hchunk] at hjoin
    obtain rfl : plan' = some plan := hjoin
    exact readsFile_of_planSingleHunk hchunk

/-- A file that is recorded already, by the session or by an earlier plan, or that has what the
plan takes for granted: it is absent when the plan creates it, and no binary when it deletes it. -/
def PlannedPatch.Fits (w : Workspace σ K) (apply : PatchApply) (s : WriteSession σ)
    (earlier : List Str) (plan : PlannedPatch) : Prop :=
  s.Tracks plan.rel ∨ trim plan.rel ∈ earlier ∨
    match plan with
    | .modify .. => True
    | .create rel _ => w.IsAbsent s.disk (apply.path rel)
    | .delete rel _ => w.IsAbsent s.disk (apply.path rel) ∨ w.HasText s.disk (apply.path rel)

def PlansFit (w : Workspace σ K) (apply : PatchApply) (s : WriteSession σ) (others : List Str) :
    List Str → List PlannedPatch → Prop
  | _, [] => True
  | earlier, plan :: plans =>
    s.Named w others plan.rel (apply.path plan.rel) ∧ plan.Fits w apply s earlier ∧
      PlansFit w apply s others (trim plan.rel :: earlier) plans

theorem named_of_plansFit {earlier : List Str} (h : PlansFit w apply s others earlier plans) :
    ∀ plan ∈ plans, s.Named w others plan.rel (apply.path plan.rel) := by
  induction plans generalizing earlier with
  | nil => exact fun _ hp => absurd hp not_mem_nil
  | cons plan plans ih =>
    intro q hq
    rcases mem_cons.mp hq with rfl | hq
    · exact h.1
    · exact ih h.2.2 q hq

theorem fitAll_plans (hreads : ∀ plan ∈ plans, plan.ReadsFile w apply s.disk)
    (hothers : ∀ plan ∈ plans, trim plan.rel ∈ others) {earlier : List Str}
    (hearlier : ∀ n ∈ earlier, n ∈ others) (h : PlansFit w apply s others earlier plans) :
    FitAll w.fileOf (Option.map .text) (s.journal w) earlier
      (plans.map (planWrite w apply)) := by
  induction plans generalizing earlier with
  | nil => trivial
  | cons plan plans ih =>
    obtain ⟨hnamed, hfits, hrest⟩ := h
    have hread := hreads plan mem_cons_self
    constructor
    · refine hnamed.fits hearlier (fun hnot hnew => ?_) plan.after
      have hfile := (hfits.resolve_left hnot).resolve_left hnew
      cases plan with
      | modify rel before after => exact w.read_ok hread
      | create rel after => exact hfile
      | delete rel before =>
        rw [PlannedPatch.before, show before = _ from hread]
        exact text?_readToString hfile
    · refine ih (fun q hq => hreads q (mem_cons_of_mem _ hq))
        (fun q hq => hothers q (mem_cons_of_mem _ hq)) (fun n hn => ?_) hrest
      rcases mem_cons.mp hn with rfl | hn
      · exact hothers plan mem_cons_self
      · exact hearlier n hn

theorem applyPatch_reports {patch : Option Str} {strip : ℕ} {dryRun : Bool}
    {baseRevision : Option Str}
    (hfit : dryRun = false → ∀ plans,
      patchPlans diffy w.toDisk ⟨w.root, dryRun, baseRevision⟩ absolutizeFrom s.disk patch strip =
        .ok plans →
      PlansFit w ⟨w.root, dryRun, baseRevision⟩ s (plans.map fun plan => trim plan.rel) [] plans)
    (h : applyPatch w diffy absolutizeFrom s patch strip dryRun baseRevision = .ok s') :
    Reports w s s' := by
  unfold applyPatch at h
  dsimp only at h
  cases hplans : patchPlans diffy w.toDisk ⟨w.root, dryRun, baseRevision⟩ absolutizeFrom s.disk
      patch strip with
  | error e =>
    obtain ⟨hresult, -, -⟩ := runWithChangelist_refused (some s.changelist) hplans
    rw [hresult] at h
    cases h
  | ok plans =>
    obtain ⟨hok, hstate, hcl⟩ := runWithChangelist_committed (some s.changelist) hplans
    split at h
    · cases h
    · next report hreport =>
      have hdone := hok.mp ⟨report, hreport⟩
      rw [hstate, hcl] at h
      obtain rfl := Except.ok.inj h
      cases dryRun with
      | true =>
        rw [commitRecorded_dryRun rfl]
        exact reports_of_same rfl
      | false =>
        have hplan := hfit rfl plans hplans
        have hdry : (⟨w.root, false, baseRevision⟩ : PatchApply).dryRun = false := rfl
        have hleaves := commitRecorded_leaves w.toFileSystem hdry plans s.disk (some s.changelist)
        have hnone :
            refusedCommit w.toFileSystem ⟨w.root, false, baseRevision⟩ plans s.disk = none := by
          refine Option.eq_none_iff_forall_ne_some.mpr fun refused hrefused => ?_
          rw [hrefused] at hleaves
          obtain ⟨⟨e, herror⟩, -⟩ := hleaves
          exact absurd (herror.symm.trans hdone) (by simp)
        rw [hnone] at hleaves
        obtain ⟨-, hrecorded, hcontent⟩ := hleaves
        obtain ⟨cl', hcl', hjournal⟩ := foldl_planWrite (w := w) hdry
          (fun q hq => (named_of_plansFit hplan q hq).nonempty) (w.content s.disk) s.changelist
        refine ⟨plans.map (planWrite w ⟨w.root, false, baseRevision⟩), ?_,
          fitAll_plans (readsFile_of_patchPlans hplans) (fun q hq => mem_map.mpr ⟨q, hq, rfl⟩)
            (fun n hn => absurd hn not_mem_nil) hplan⟩
        rw [hrecorded, hcl']
        refine Eq.trans ?_ hjournal
        exact State.ext hcontent rfl

end Patches

section Runs

variable {σ K P : Type} [DecidableEq K] (w : Workspace σ K) (diffy : Diffy P)
  (absolutizeFrom : AbsolutizeFrom)

/-- A call that reports what was there: it calls each file it changes by one spelling, the one in
the changelist if there is one, finds text where it finds a file, copies and moves only to files
that are absent or recorded, and moves only recorded ones. -/
def WriteCall.Fits (s : WriteSession σ) : WriteCall → Prop
  | createFile path _ _ =>
    ∀ target, w.forWrite s.disk path = .ok target → s.Named w [] path target
  | appendFile args => args.dryRun = false → ∀ target,
      appendResolveTargetPath w s.disk (trim args.path) args.createIfMissing = .ok target →
      s.Named w [] args.path target ∧ (w.IsAbsent s.disk target ∨ w.HasText s.disk target)
  | modifyFile path _ dryRun _ => dryRun = false → ∀ target,
      w.forRead s.disk (trim path) = .ok target →
      s.Named w [] path target ∧ w.HasText s.disk target
  | searchReplace path _ dryRun _ => dryRun = false → ∀ target,
      w.forRead s.disk (trim path) = .ok target → s.Named w [] path target
  | copyFile source dest _ => ∀ src dst, w.forRead s.disk (trim source) = .ok src →
      w.forWrite s.disk (trim dest) = .ok dst →
      s.Named w [] dest dst ∧ w.HasText s.disk src ∧ (s.Tracks dest ∨ w.IsAbsent s.disk dst)
  | moveFile source dest _ => ∀ src dst, w.forRead s.disk (trim source) = .ok src →
      w.forWrite s.disk (trim dest) = .ok dst →
      w.fileAt src ≠ w.fileAt dst ∧ s.Named w [] source src ∧ s.Named w [] dest dst ∧
        s.Tracks source ∧ (s.Tracks dest ∨ w.IsAbsent s.disk dst)
  | deleteFiles paths _ => ∀ raw ∈ paths, ∀ target, w.forRead s.disk (trim raw) = .ok target →
      s.Named w (paths.map trim) raw target ∧ w.HasText s.disk target
  | applyPatch patch strip dryRun baseRevision => dryRun = false → ∀ plans,
      patchPlans diffy w.toDisk ⟨w.root, dryRun, baseRevision⟩ absolutizeFrom s.disk patch strip =
        .ok plans →
      PlansFit w ⟨w.root, dryRun, baseRevision⟩ s (plans.map fun plan => trim plan.rel) [] plans

variable {w diffy absolutizeFrom} {start : σ} {s s' : WriteSession σ}

theorem WriteCall.reports (hs : JournalTruthful w start s) {call : WriteCall}
    (hfit : call.Fits w diffy absolutizeFrom s)
    (h : call.exec w diffy absolutizeFrom s = .ok s') : Reports w s s' := by
  cases call with
  | createFile path content skipPrecheck => exact createFile_reports hfit h
  | appendFile args => exact appendFile_reports hfit h
  | modifyFile path mode dryRun skipPrecheck => exact modifyFile_reports hfit h
  | searchReplace path edit dryRun skipPrecheck => exact searchReplace_reports hfit h
  | copyFile source dest overwrite => exact copyFile_reports hfit h
  | moveFile source dest overwrite => exact moveFile_reports hs hfit h
  | deleteFiles paths confirm => exact deleteFiles_reports hfit h
  | applyPatch patch strip dryRun baseRevision => exact applyPatch_reports hfit h

/-- In every state of a session whose calls succeed and report what was there, the changelist has
for each of its paths the content from the start and the present one, and all other files are as
they were at the start. -/
theorem changelist_truthful (start : σ) {calls : List WriteCall}
    (hcalls : Run.AllOk (writeStep w diffy absolutizeFrom)
      (fun s call => call.Succeeds w diffy absolutizeFrom s ∧ call.Fits w diffy absolutizeFrom s)
      (.start start) calls) :
    ChangelistTruthful w start
      (Run.run (writeStep w diffy absolutizeFrom) (.start start) calls) := by
  have hstart : JournalTruthful w start (.start start) := truthful_start _ fun _ => rfl
  have hrun : JournalTruthful w start
      (Run.run (writeStep w diffy absolutizeFrom) (.start start) calls) := by
    refine Run.invariant ?_ hstart hcalls
    rintro s call hs ⟨⟨s', hs'⟩, hfit⟩
    have hstep : writeStep w diffy absolutizeFrom s call = s' := by
      rw [writeStep, hs']
      rfl
    rw [hstep]
    exact (WriteCall.reports hs hfit hs').truthful hs
  exact changelistTruthful_of_journal hrun

end Runs

section MovedFile

/-- The plain files as a workspace: paths are taken as they are, and nothing is refused. -/
def plainWorkspace : Workspace ((FsPath → Option FileContent) × Option Str) FsPath where
  toFileSystem := plainFiles
  root := ["w".toList]
  forRead _ path := .ok (join (absolute ["w".toList]) (components path))
  forWrite _ path := .ok (join (absolute ["w".toList]) (components path))
  absolutize path := some (join (absolute ["w".toList]) (components path))
  isFile s p := (s.1 (plainFiles.fileAt p)).isSome
  isDir _ p := p = absolute ["w".toList]
  precheckBeforeWrite _ _ _ := .ok ()
  verifyRevision _ _ := .ok ()
  createNew s p t := .ok (Function.update s.1 (plainFiles.fileAt p) (some (.text t)), s.2)
  appendTo s p t _ := .ok (Function.update s.1 (plainFiles.fileAt p)
    (some (match s.1 (plainFiles.fileAt p) with
      | none => .text t
      | some (.text old) => .text (old ++ t)
      | some (.binary old) => .binary (old ++ (String.ofList t).toUTF8.toList))), s.2)
  copyTo s p q := .ok (Function.update s.1 (plainFiles.fileAt q) (s.1 (plainFiles.fileAt p)), s.2)
  rename s p q := .ok (Function.update (Function.update s.1 (plainFiles.fileAt p) none)
    (plainFiles.fileAt q) (s.1 (plainFiles.fileAt p)), s.2)
  isFile_iff := Iff.rfl
  readToString_text := by
    intro s p t h
    have hfile : s.1 (p.filter (· ≠ .curDir)) = some (.text t) := h
    change (match s.1 (p.filter (· ≠ .curDir)) with
      | some (.text t) => Except.ok t
      | _ => _) = _
    rw [hfile]
  createNew_ok h := by rw [← Except.ok.inj h]; rfl
  appendTo_ok h := by rw [← Except.ok.inj h]; rfl
  copyTo_ok h := by rw [← Except.ok.inj h]; rfl
  rename_ok _ h := by rw [← Except.ok.inj h]; rfl

def rootDirs : AbsolutizeFrom := fun root sub => root ++ [sub]

def plainStep := writeStep plainWorkspace twoLineDiffy rootDirs

/-- A disk with the one file `a`. -/
def oneFile : (FsPath → Option FileContent) × Option Str :=
  (fun p => if p = twoChunkRoot.path ['a'] then some (.text ['x']) else none, none)

def moveAway : WriteCall := .moveFile ['a'] ['b'] false

/-- A file that is moved before it is written has no baseline. -/
theorem not_changelist_truthful_of_success :
    ¬ ∀ calls : List WriteCall,
      Run.AllOk plainStep (fun s call => call.Succeeds plainWorkspace twoLineDiffy rootDirs s)
        (.start oneFile) calls →
      ChangelistTruthful plainWorkspace oneFile (Run.run plainStep (.start oneFile) calls) := by
  intro h
  have hmoved := h [moveAway] ⟨⟨_, rfl⟩, trivial⟩
  have hrows : (Run.run plainStep (.start oneFile) [moveAway]).changelist.files.rows =
      [⟨['a'], none, none⟩, ⟨['b'], none, some ['x']⟩] := by decide +kernel
  obtain ⟨k, hk, hstart, -⟩ := hmoved.tracked ⟨['a'], none, none⟩ (by
    rw [hrows]
    exact mem_cons_self)
  obtain rfl := Option.some.inj hk
  revert hstart
  decide +kernel

def createThenMove : List WriteCall := [.createFile ['a'] ['x'] false, moveAway]

theorem changelist_truthful_createThenMove :
    ChangelistTruthful plainWorkspace (fun _ => none, none)
      (Run.run plainStep (.start (fun _ => none, none)) createThenMove) := by
  have hrows : (writeStep plainWorkspace twoLineDiffy rootDirs (.start (fun _ => none, none))
      (.createFile ['a'] ['x'] false)).changelist.files.rows = [⟨['a'], none, some ['x']⟩] := by
    decide +kernel
  have hone : ∀ n : Str, (∃ t ∈ (writeStep plainWorkspace twoLineDiffy rootDirs
      (.start (fun _ => none, none)) (.createFile ['a'] ['x'] false)).changelist.files.rows,
      t.rel = n) ∨ n ∈ ([] : List Str) → n = ['a'] := by
    rintro n (⟨t, ht, rfl⟩ | hn)
    · rw [hrows] at ht
      rw [mem_singleton.mp ht]
    · exact absurd hn not_mem_nil
  refine changelist_truthful (w := plainWorkspace) _ ⟨⟨⟨_, rfl⟩, ?_⟩, ⟨⟨_, rfl⟩, ?_⟩, trivial⟩
  · rintro target htarget
    obtain rfl := Except.ok.inj htarget
    refine ⟨by decide, rfl, ?_⟩
    rintro n (⟨t, ht, -⟩ | hn)
    · exact absurd ht not_mem_nil
    · exact absurd hn not_mem_nil
  · rintro src dst hsrc hdst
    obtain rfl := Except.ok.inj hsrc
    obtain rfl := Except.ok.inj hdst
    refine ⟨by decide, ⟨by decide, rfl, fun n hn _ => hone n hn⟩, ⟨by decide, rfl, ?_⟩, ?_,
      .inr rfl⟩
    · intro n hn hplace
      rw [hone n hn] at hplace
      exact absurd hplace (by decide)
    · refine ⟨⟨['a'], none, some ['x']⟩, ?_, rfl⟩
      rw [hrows]
      exact mem_cons_self

end MovedFile
end CrabMate
