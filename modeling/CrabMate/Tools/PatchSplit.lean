import CrabMate.Tools.Patch

/-! Splitting a patch of several files, and the diffs that it was put together from. -/
namespace CrabMate
open RustStr List Option

section Format

/-- A text on one line. -/
abbrev LineText := {s : Str // '\n' ∉ s}

/-- What stands behind `--- ` or `+++ `: a path and perhaps more. -/
abbrev HeaderText := {s : LineText // (splitWhitespace s.1).head?.isSome}

inductive HunkLine where
  | context (text : LineText)
  | removed (text : LineText)
  | added (text : LineText)
  | noNewline

def HunkLine.line : HunkLine → Str
  | .context text => ' ' :: text.1
  | .removed text => '-' :: text.1
  | .added text => '+' :: text.1
  | .noNewline => "\\ No newline at end of file".toList

def HunkLine.isOld : HunkLine → Bool
  | .context _ | .removed _ => true
  | _ => false

def HunkLine.isNew : HunkLine → Bool
  | .context _ | .added _ => true
  | _ => false

/-- A range of lines in a hunk header; a count of one may be left out. -/
structure HunkRange where
  start : ℕ
  count : ℕ
  short : Bool
  count_eq : short = true → count = 1

def HunkRange.text (r : HunkRange) : Str :=
  (toString r.start).toList ++ if r.short then [] else ',' :: (toString r.count).toList

structure Hunk where
  old : HunkRange
  new : HunkRange
  heading : LineText
  body : List HunkLine
  old_count : old.count = body.countP HunkLine.isOld
  new_count : new.count = body.countP HunkLine.isNew

def Hunk.header (h : Hunk) : Str :=
  "@@ -".toList ++ h.old.text ++ " +".toList ++ h.new.text ++ " @@".toList ++ h.heading.1

def Hunk.lines (h : Hunk) : List Str := h.header :: h.body.map HunkLine.line

/-- A unified diff of one file. -/
structure FileDiff where
  oldFile : HeaderText
  newFile : HeaderText
  hunks : List Hunk

/-- The lines behind the file header. -/
def FileDiff.hunkLines (d : FileDiff) : List Str := d.hunks.flatMap Hunk.lines

def FileDiff.lines (d : FileDiff) : List Str :=
  (oldHeader ++ d.oldFile.1.1) :: (newHeader ++ d.newFile.1.1) :: d.hunkLines

/-- Lines put together, each with its newline. -/
def withNewlines (ls : List Str) : Str := ls.flatMap fun line => line ++ ['\n']

def FileDiff.render (d : FileDiff) : Str := withNewlines d.lines

def HeaderText.path (h : HeaderText) : Str := (splitWhitespace h.1.1).head?.get h.2

/-- The paths in the headers of a diff. -/
def FileDiff.headerPaths (d : FileDiff) : List Str := [d.oldFile.path, d.newFile.path]

/-- The lines of the hunks that a reader of the counts takes for contents. -/
def FileDiff.bodyLines (d : FileDiff) : List Str :=
  d.hunks.flatMap fun h => h.body.map HunkLine.line

/-- No line of the contents looks like a file header, and no line ends in a carriage return. -/
def FileDiff.Plain (d : FileDiff) : Prop :=
  (∀ line ∈ d.bodyLines, startsWith oldHeader line = false ∧ parseHeaderPath line = none) ∧
    ∀ line ∈ d.lines, line.getLast? ≠ some '\r'

theorem newline_not_mem_number (n : ℕ) : '\n' ∉ (toString n).toList := by
  intro h
  rw [Nat.toString_eq_repr, Nat.repr, String.toList_ofList] at h
  exact absurd (Nat.isDigit_of_mem_toDigits (by decide) (by decide) h) (by decide)

theorem newline_not_mem_range (r : HunkRange) : '\n' ∉ r.text := by
  rw [HunkRange.text, mem_append, not_or]
  refine ⟨newline_not_mem_number r.start, ?_⟩
  split
  · exact not_mem_nil
  · rw [mem_cons, not_or]
    exact ⟨by decide, newline_not_mem_number r.count⟩

theorem newline_not_mem_header (h : Hunk) : '\n' ∉ h.header := by
  delta Hunk.header
  simp only [mem_append, not_or]
  exact ⟨⟨⟨⟨⟨by decide, newline_not_mem_range h.old⟩, by decide⟩, newline_not_mem_range h.new⟩,
    by decide⟩, h.heading.2⟩

theorem HunkLine.newline_not_mem (l : HunkLine) : '\n' ∉ l.line := by
  cases l with
  | context text => exact not_mem_cons_of_ne_of_not_mem (by decide) text.2
  | removed text => exact not_mem_cons_of_ne_of_not_mem (by decide) text.2
  | added text => exact not_mem_cons_of_ne_of_not_mem (by decide) text.2
  | noNewline => decide

theorem FileDiff.newline_not_mem (d : FileDiff) : ∀ line ∈ d.lines, '\n' ∉ line := by
  intro line hline
  rw [lines, hunkLines, mem_cons, mem_cons, mem_flatMap] at hline
  rcases hline with rfl | rfl | ⟨h, -, hline⟩
  · rw [mem_append, not_or]
    exact ⟨by decide, d.oldFile.1.2⟩
  · rw [mem_append, not_or]
    exact ⟨by decide, d.newFile.1.2⟩
  · rw [Hunk.lines, mem_cons, List.mem_map] at hline
    rcases hline with rfl | ⟨l, -, rfl⟩
    · exact newline_not_mem_header h
    · exact l.newline_not_mem

end Format

section Lines

theorem rawLines_withNewlines {ls : List Str} (h : ∀ line ∈ ls, '\n' ∉ line) :
    rawLines (withNewlines ls) = ls.map (· ++ ['\n']) := by
  induction ls with
  | nil => rfl
  | cons line ls ih =>
    rw [withNewlines, flatMap_cons, append_assoc, singleton_append,
      rawLines_line (h line mem_cons_self), ← withNewlines,
      ih fun l hl => h l (mem_cons_of_mem _ hl), map_cons]

theorem lines_withNewlines {ls : List Str} (h : ∀ line ∈ ls, '\n' ∉ line) :
    RustStr.lines (withNewlines ls) = ls.map stripCr := by
  rw [lines_eq_map_chomp, rawLines_withNewlines h, List.map_map]
  exact map_congr_left fun line _ => chomp_line line

theorem withNewlines_inj {ls ls' : List Str} (h : ∀ line ∈ ls, '\n' ∉ line)
    (h' : ∀ line ∈ ls', '\n' ∉ line) (heq : withNewlines ls = withNewlines ls') : ls = ls' := by
  have hraw := congrArg rawLines heq
  rw [rawLines_withNewlines h, rawLines_withNewlines h'] at hraw
  exact map_injective_iff.mpr (append_left_injective _) hraw

end Lines

section Split

theorem startsWith_append (p s : Str) : startsWith p (p ++ s) = true := by
  rw [startsWith, isPrefixOf_iff_prefix]
  exact prefix_append p s

/-- A header stays one without its carriage return. -/
theorem startsWith_stripCr_header (s : Str) :
    startsWith oldHeader (stripCr (oldHeader ++ s)) = true := by
  unfold stripCr
  split
  · next h =>
    have hne : s ≠ [] := by
      rintro rfl
      exact absurd h (by decide)
    rw [dropLast_append_of_ne_nil hne]
    exact startsWith_append _ _
  · exact startsWith_append _ _

theorem splitStep_header {line : Str} (h : startsWith oldHeader line = true) (chunks : List Str)
    {current : Str} (hne : current ≠ []) :
    splitStep (chunks, current, true) line = (chunks ++ [current], line ++ ['\n'], true) := by
  have hsome : current.isEmpty = false := by rwa [isEmpty_eq_false_iff]
  simp [splitStep, h, hsome]

theorem splitStep_other {line : Str} (h : startsWith oldHeader line = false) (chunks : List Str)
    (current : Str) :
    splitStep (chunks, current, true) line = (chunks, current ++ line ++ ['\n'], true) := by
  simp [splitStep, h]

theorem splitStep_first {line : Str} (h : startsWith oldHeader line = true) :
    splitStep ([], [], false) line = ([], line ++ ['\n'], true) := by
  simp [splitStep, h]

theorem foldl_splitStep (ls : List Str) (chunks : List Str) {current : Str} (hne : current ≠ []) :
    ∃ chunks' current', ls.foldl splitStep (chunks, current, true) = (chunks', current', true) ∧
      current' ≠ [] ∧ chunks'.flatten ++ current' = chunks.flatten ++ current ++ withNewlines ls ∧
      chunks'.length = chunks.length + ls.countP (startsWith oldHeader) := by
  induction ls generalizing chunks current with
  | nil => exact ⟨chunks, current, rfl, hne, (append_nil _).symm, rfl⟩
  | cons line ls ih =>
    rw [foldl_cons]
    cases h : startsWith oldHeader line with
    | true =>
      rw [splitStep_header h chunks hne]
      obtain ⟨chunks', current', hrun, hne', htext, hlength⟩ :=
        ih (chunks ++ [current]) (concat_ne_nil '\n' line)
      refine ⟨chunks', current', hrun, hne', ?_, ?_⟩
      · rw [htext]
        simp [withNewlines]
      · rw [hlength, countP_cons_of_pos h, length_append, length_singleton]
        omega
    | false =>
      rw [splitStep_other h]
      obtain ⟨chunks', current', hrun, hne', htext, hlength⟩ :=
        ih chunks (concat_ne_nil '\n' (current ++ line))
      refine ⟨chunks', current', hrun, hne', ?_, ?_⟩
      · rw [htext]
        simp [withNewlines]
      · rw [hlength, countP_cons_of_neg (by rw [h]; exact Bool.false_ne_true)]

theorem splitPatchByFile_spec {text line : Str} {ls : List Str} (hlines : lines text = line :: ls)
    (hline : startsWith oldHeader line = true) :
    (splitPatchByFile text).flatten = withNewlines (line :: ls) ∧
      (splitPatchByFile text).length = 1 + ls.countP (startsWith oldHeader) := by
  obtain ⟨chunks, current, hrun, hne, htext, hlength⟩ :=
    foldl_splitStep ls [] (concat_ne_nil '\n' line)
  have hsome : current.isEmpty = false := by rwa [isEmpty_eq_false_iff]
  have hsplit : splitPatchByFile text = chunks ++ [current] := by
    rw [splitPatchByFile, hlines, foldl_cons, splitStep_first hline, hrun]
    simp [hsome]
  rw [hsplit]
  refine ⟨?_, ?_⟩
  · rw [flatten_append, flatten_singleton, htext]
    simp [withNewlines]
  · rw [length_append, hlength, length_nil, length_singleton]
    omega

end Split

section Diffs

theorem startsWith_newHeader (s : Str) : startsWith oldHeader (newHeader ++ s) = false := rfl

theorem parseHeaderPath_old (h : HeaderText) :
    parseHeaderPath (oldHeader ++ h.1.1) = some h.path := by
  rw [parseHeaderPath, stripPrefix?_append, some_or, bind_some, HeaderText.path,
    some_get]

theorem parseHeaderPath_new (h : HeaderText) :
    parseHeaderPath (newHeader ++ h.1.1) = some h.path := by
  have hold : stripPrefix? oldHeader (newHeader ++ h.1.1) = none := rfl
  rw [parseHeaderPath, hold, none_or, stripPrefix?_append, bind_some, HeaderText.path,
    some_get]

/-- A line is plain that is neither taken for the start of a file nor for a header. -/
def PlainLine (line : Str) : Prop :=
  startsWith oldHeader line = false ∧ parseHeaderPath line = none

theorem plainLine_header (h : Hunk) : PlainLine h.header := ⟨rfl, rfl⟩

theorem forall_hunkLines_iff (d : FileDiff) :
    (∀ line ∈ d.hunkLines, PlainLine line) ↔ ∀ line ∈ d.bodyLines, PlainLine line := by
  simp only [FileDiff.hunkLines, FileDiff.bodyLines, Hunk.lines, mem_flatMap, mem_cons]
  constructor
  · rintro h line ⟨hunk, hhunk, hline⟩
    exact h line ⟨hunk, hhunk, Or.inr hline⟩
  · rintro h line ⟨hunk, hhunk, rfl | hline⟩
    · exact plainLine_header hunk
    · exact h line ⟨hunk, hhunk, hline⟩

theorem countP_lines (ds : List FileDiff) :
    (ds.flatMap FileDiff.lines).countP (startsWith oldHeader) =
      ds.length + (ds.flatMap FileDiff.hunkLines).countP (startsWith oldHeader) := by
  induction ds with
  | nil => rfl
  | cons d ds ih =>
    rw [flatMap_cons, flatMap_cons, countP_append, countP_append, ih,
      FileDiff.lines, countP_cons_of_pos (startsWith_append _ _),
      countP_cons_of_neg (by rw [startsWith_newHeader]; exact Bool.false_ne_true),
      length_cons]
    omega

theorem filterMap_lines (d : FileDiff) :
    d.lines.filterMap parseHeaderPath =
      d.headerPaths ++ d.hunkLines.filterMap parseHeaderPath := by
  rw [FileDiff.lines, filterMap_cons_some (parseHeaderPath_old _),
    filterMap_cons_some (parseHeaderPath_new _), FileDiff.headerPaths]
  rfl

theorem length_filterMap_lines (ds : List FileDiff) :
    ((ds.flatMap FileDiff.lines).filterMap parseHeaderPath).length =
      (ds.flatMap FileDiff.headerPaths).length +
        ((ds.flatMap FileDiff.hunkLines).filterMap parseHeaderPath).length := by
  induction ds with
  | nil => rfl
  | cons d ds ih =>
    simp only [flatMap_cons, filterMap_append, length_append, ih, filterMap_lines]
    omega

variable {ds : List FileDiff}

theorem render_flatMap (ds : List FileDiff) :
    ds.flatMap FileDiff.render = withNewlines (ds.flatMap FileDiff.lines) := by
  rw [withNewlines, flatMap_assoc]
  rfl

theorem newline_not_mem_lines (ds : List FileDiff) :
    ∀ line ∈ ds.flatMap FileDiff.lines, '\n' ∉ line := by
  intro line hline
  obtain ⟨d, -, hd⟩ := mem_flatMap.mp hline
  exact d.newline_not_mem line hd

theorem lines_render (ds : List FileDiff) :
    RustStr.lines (ds.flatMap FileDiff.render) = (ds.flatMap FileDiff.lines).map stripCr := by
  rw [render_flatMap, lines_withNewlines (newline_not_mem_lines ds)]

theorem map_stripCr_eq_self_iff {ls : List Str} :
    ls.map stripCr = ls ↔ ∀ line ∈ ls, line.getLast? ≠ some '\r' := by
  induction ls with
  | nil => exact iff_of_true rfl fun line hline => nomatch hline
  | cons line ls ih =>
    rw [map_cons, List.cons.injEq, ih, stripCr_eq_self_iff, forall_mem_cons]

theorem foldl_plain {ls : List Str} (h : ∀ line ∈ ls, startsWith oldHeader line = false)
    (chunks : List Str) (current : Str) :
    ls.foldl splitStep (chunks, current, true) = (chunks, current ++ withNewlines ls, true) := by
  induction ls generalizing current with
  | nil => exact congrArg (fun c => (chunks, c, true)) (append_nil current).symm
  | cons line ls ih =>
    rw [foldl_cons, splitStep_other (h line mem_cons_self),
      ih fun l hl => h l (mem_cons_of_mem _ hl)]
    simp [withNewlines]

theorem foldl_rest {d : FileDiff} (h : ∀ line ∈ d.hunkLines, PlainLine line) (chunks : List Str) :
    ((newHeader ++ d.newFile.1.1) :: d.hunkLines).foldl splitStep
        (chunks, oldHeader ++ d.oldFile.1.1 ++ ['\n'], true) = (chunks, d.render, true) := by
  rw [foldl_plain]
  · simp [FileDiff.render, FileDiff.lines, withNewlines]
  · intro line hline
    rcases mem_cons.mp hline with rfl | hline
    · exact startsWith_newHeader _
    · exact (h line hline).1

theorem render_ne_nil (d : FileDiff) : d.render ≠ [] := by
  rw [FileDiff.render, FileDiff.lines, withNewlines, flatMap_cons, append_assoc]
  exact append_ne_nil_of_left_ne_nil (cons_ne_nil _ _) _

/-- Diff after diff closes the chunk before. -/
theorem foldl_diffs (h : ∀ d ∈ ds, ∀ line ∈ d.hunkLines, PlainLine line) (chunks : List Str)
    {current : Str} (hne : current ≠ []) :
    ∃ chunks' current', (ds.flatMap FileDiff.lines).foldl splitStep (chunks, current, true) =
        (chunks', current', true) ∧
      current' ≠ [] ∧ chunks' ++ [current'] = chunks ++ [current] ++ ds.map FileDiff.render := by
  induction ds generalizing chunks current with
  | nil => exact ⟨chunks, current, rfl, hne, (append_nil _).symm⟩
  | cons d ds ih =>
    have hd := h d mem_cons_self
    obtain ⟨chunks', current', hrun, hne', hsame⟩ :=
      ih (fun d' hd' => h d' (mem_cons_of_mem _ hd')) (chunks ++ [current]) (render_ne_nil d)
    refine ⟨chunks', current', ?_, hne', ?_⟩
    · rw [flatMap_cons, foldl_append, FileDiff.lines, foldl_cons,
        splitStep_header (startsWith_append _ _) chunks hne, foldl_rest hd, hrun]
    · rw [hsame, map_cons, append_assoc _ [d.render], singleton_append]

theorem splitPatchByFile_of_plain (hne : ds ≠ [])
    (hplain : ∀ d ∈ ds, ∀ line ∈ d.hunkLines, PlainLine line)
    (hcr : (ds.flatMap FileDiff.lines).map stripCr = ds.flatMap FileDiff.lines) :
    splitPatchByFile (ds.flatMap FileDiff.render) = ds.map FileDiff.render := by
  cases ds with
  | nil => exact absurd rfl hne
  | cons d ds =>
    obtain ⟨chunks, current, hrun, hcurrent, hsame⟩ := foldl_diffs
      (fun d' hd' => hplain d' (mem_cons_of_mem _ hd')) [] (render_ne_nil d)
    have hsome : current.isEmpty = false := by rwa [isEmpty_eq_false_iff]
    rw [splitPatchByFile, lines_render, hcr, flatMap_cons, foldl_append, FileDiff.lines,
      foldl_cons, splitStep_first (startsWith_append _ _),
      foldl_rest (hplain d mem_cons_self), hrun]
    simp [hsome, hsame]

/-- The paths that `validatePatchPaths` validates. -/
def validatedPaths (patchText : Str) : List Str :=
  (RustStr.lines patchText).filterMap parseHeaderPath

theorem validatePatchPaths_eq (absolutizeFrom : AbsolutizeFrom) (present : List Str → Bool)
    (patchText : Str) (root : List Str) (hne : validatedPaths patchText ≠ []) :
    validatePatchPaths absolutizeFrom present patchText root =
      validateHeaders absolutizeFrom present root (validatedPaths patchText) := by
  have hsome : (validatedPaths patchText).isEmpty = false := by rwa [isEmpty_eq_false_iff]
  rw [validatePatchPaths, ← validatedPaths, hsome]
  cases validateHeaders absolutizeFrom present root (validatedPaths patchText) <;> rfl

theorem forall_plain_iff :
    (∀ d ∈ ds, d.Plain) ↔ (∀ d ∈ ds, ∀ line ∈ d.hunkLines, PlainLine line) ∧
      (ds.flatMap FileDiff.lines).map stripCr = ds.flatMap FileDiff.lines := by
  simp only [map_stripCr_eq_self_iff, mem_flatMap]
  constructor
  · intro h
    refine ⟨fun d hd => (forall_hunkLines_iff d).mpr (h d hd).1, ?_⟩
    rintro line ⟨d, hd, hline⟩
    exact (h d hd).2 line hline
  · rintro ⟨hbody, hcr⟩ d hd
    exact ⟨(forall_hunkLines_iff d).mp (hbody d hd), fun line hline => hcr line ⟨d, hd, hline⟩⟩

/-- What the split gives back has no carriage returns, and one `--- ` line for each diff. -/
theorem of_splitPatchByFile (hne : ds ≠ [])
    (h : splitPatchByFile (ds.flatMap FileDiff.render) = ds.map FileDiff.render) :
    (ds.flatMap FileDiff.lines).map stripCr = ds.flatMap FileDiff.lines ∧
      (ds.flatMap FileDiff.hunkLines).countP (startsWith oldHeader) = 0 := by
  obtain ⟨d, ds, rfl⟩ := exists_cons_of_ne_nil hne
  obtain ⟨tail, htail⟩ : ∃ tail, (d :: ds).flatMap FileDiff.lines =
      (oldHeader ++ d.oldFile.1.1) :: tail := ⟨_, rfl⟩
  have hlines := lines_render (d :: ds)
  rw [htail, map_cons] at hlines
  obtain ⟨hflatten, hlength⟩ := splitPatchByFile_spec hlines (startsWith_stripCr_header _)
  rw [h] at hflatten hlength
  rw [← map_cons, ← htail, ← flatMap_def, render_flatMap] at hflatten
  have hcr : ((d :: ds).flatMap FileDiff.lines).map stripCr = (d :: ds).flatMap FileDiff.lines := by
    refine (withNewlines_inj (newline_not_mem_lines _) ?_ hflatten).symm
    intro line hline hmem
    obtain ⟨l, hl, rfl⟩ := List.mem_map.mp hline
    exact newline_not_mem_lines _ l hl (mem_of_mem_stripCr hmem)
  refine ⟨hcr, ?_⟩
  have hcount := countP_lines (d :: ds)
  rw [← hcr, htail, map_cons, countP_cons_of_pos (startsWith_stripCr_header _)] at hcount
  rw [List.length_map] at hlength
  omega

/-- The split gives back the diffs, and their header paths are the ones validated, exactly when no
content line begins like a file header and no line ends in a carriage return. -/
theorem split_and_validate_iff (hne : ds ≠ []) :
    (splitPatchByFile (ds.flatMap FileDiff.render) = ds.map FileDiff.render ∧
      validatedPaths (ds.flatMap FileDiff.render) = ds.flatMap FileDiff.headerPaths) ↔
    ∀ d ∈ ds, d.Plain := by
  rw [forall_plain_iff]
  constructor
  · rintro ⟨hsplit, hpaths⟩
    obtain ⟨hcr, hcount⟩ := of_splitPatchByFile hne hsplit
    have hlength := length_filterMap_lines ds
    rw [validatedPaths, lines_render, hcr] at hpaths
    rw [hpaths] at hlength
    have hnone : (ds.flatMap FileDiff.hunkLines).filterMap parseHeaderPath = [] :=
      eq_nil_of_length_eq_zero (by omega)
    rw [countP_eq_zero] at hcount
    rw [filterMap_eq_nil_iff] at hnone
    refine ⟨fun d hd line hline => ?_, hcr⟩
    have hmem : line ∈ ds.flatMap FileDiff.hunkLines := mem_flatMap.mpr ⟨d, hd, hline⟩
    exact ⟨Bool.eq_false_iff.mpr (hcount line hmem), hnone line hmem⟩
  · rintro ⟨hplain, hcr⟩
    refine ⟨splitPatchByFile_of_plain hne hplain hcr, ?_⟩
    rw [validatedPaths, lines_render, hcr, filterMap_flatMap]
    refine flatMap_congr fun d hd => ?_
    have hnone : d.hunkLines.filterMap parseHeaderPath = [] := by
      rw [filterMap_eq_nil_iff]
      exact fun line hline => (hplain d hd line hline).2
    rw [filterMap_lines, hnone, append_nil]

/-- A diff of one hunk that removes one line of the file `a`. -/
def removing (text : LineText) : FileDiff where
  oldFile := ⟨⟨"a/a".toList, by decide⟩, by decide⟩
  newFile := ⟨⟨"b/a".toList, by decide⟩, by decide⟩
  hunks := [⟨⟨1, 1, true, fun _ => rfl⟩, ⟨0, 0, false, nofun⟩, ⟨[], not_mem_nil⟩,
    [.removed text], rfl, rfl⟩]

theorem split_and_validate_oneLine :
    splitPatchByFile (removing ⟨"x".toList, by decide⟩).render =
        [(removing ⟨"x".toList, by decide⟩).render] ∧
      validatedPaths (removing ⟨"x".toList, by decide⟩).render = ["a/a".toList, "b/a".toList] := by
  have hplain : ∀ d ∈ [removing ⟨"x".toList, by decide⟩], d.Plain := by
    intro d hd
    rw [mem_singleton.mp hd]
    constructor <;> decide
  have h := (split_and_validate_iff (cons_ne_nil _ _)).mpr hplain
  rwa [flatMap_singleton] at h

/-- Removing the line `-- x` is taken for the start of another file, with the path `x`. -/
theorem not_split_and_validate :
    ¬ ∀ ds : List FileDiff, ds ≠ [] →
      splitPatchByFile (ds.flatMap FileDiff.render) = ds.map FileDiff.render ∧
        validatedPaths (ds.flatMap FileDiff.render) = ds.flatMap FileDiff.headerPaths := by
  intro h
  have hsplit := (h [removing ⟨"-- x".toList, by decide⟩] (cons_ne_nil _ _)).1
  have hlength := congrArg List.length hsplit
  rw [flatMap_singleton] at hlength
  revert hlength
  decide

end Diffs

end CrabMate
