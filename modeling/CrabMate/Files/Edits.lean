import CrabMate.Lib.Except
import CrabMate.Files.Guards
import Mathlib.Data.List.Sort

/-! The local edits of `modify_file`: the two streaming edits, which copy the file line by line,
and the batch, which works on the split lines of one snapshot. -/
namespace CrabMate
open RustStr List

section Stream

/-- `write_insert_body`: what is written for a body. -/
def writeInsertBody (newBody : Str) : Str :=
  if newBody.isEmpty then []
  else if newBody.getLast? = some '\n' then newBody
  else newBody ++ ['\n']

structure StreamState where
  out : Str
  lineNo : ℕ
  replaced : Bool

def streamReplaceStep (startLine endLine : ℕ) (newBody : Str) (s : StreamState) (buf : Str) :
    StreamState :=
  let s := { s with lineNo := s.lineNo + 1 }
  let s := if s.lineNo = startLine then
    { s with out := s.out ++ writeInsertBody newBody, replaced := true } else s
  if startLine ≤ s.lineNo ∧ s.lineNo ≤ endLine then s else { s with out := s.out ++ buf }

def streamReplaceLines (text : Str) (startLine endLine : ℕ) (newBody : Str) : StreamState :=
  (rawLines text).foldl (streamReplaceStep startLine endLine newBody) ⟨[], 0, false⟩

def validateReplaceCoverage (lineNo startLine endLine : ℕ) (replaced : Bool) : Except Str Unit :=
  if lineNo < startLine then
    .error ("错误：start_line=".toList ++ numeral startLine ++ " 超出文件行数（文件共 ".toList ++
      numeral lineNo ++ " 行）（".toList ++ notWrittenHint ++ "）".toList)
  else if lineNo < endLine then
    .error ("错误：end_line=".toList ++ numeral endLine ++ " 超出文件行数（文件共 ".toList ++
      numeral lineNo ++ " 行）（".toList ++ notWrittenHint ++ "）".toList)
  else if !replaced then
    .error ("错误：未执行替换（内部状态异常）（".toList ++ notWrittenHint ++ "）".toList)
  else .ok ()

/-- What `replace_lines` writes. -/
def replaceLines (text : Str) (startLine endLine : ℕ) (newBody : Str) : Except Str Str := do
  let s := streamReplaceLines text startLine endLine newBody
  validateReplaceCoverage s.lineNo startLine endLine s.replaced
  return s.out

def streamInsertStep (afterLine : ℕ) (newBody : Str) (s : Str × ℕ) (buf : Str) : Str × ℕ :=
  let lineNo := s.2 + 1
  let out := s.1 ++ buf
  (if lineNo = afterLine then out ++ writeInsertBody newBody else out, lineNo)

/-- What `insert_after_line` writes. -/
def insertAfterLine (text : Str) (afterLine : ℕ) (newBody : Str) : Except Str Str :=
  let head := if afterLine = 0 then writeInsertBody newBody else []
  let (out, lineNo) := (rawLines text).foldl (streamInsertStep afterLine newBody) (head, 0)
  if afterLine > lineNo then
    .error ("错误：after_line=".toList ++ numeral afterLine ++ " 超出文件行数（文件共 ".toList ++
      numeral lineNo ++ " 行）（".toList ++ notWrittenHint ++ "）".toList)
  else .ok out

end Stream

section Batch

inductive EditKind where
  | replace
  | insert
  deriving DecidableEq

/-- What `parse_edit_range` lets through. -/
def EditKind.RangeOk : EditKind → ℕ → ℕ → Prop
  | .replace, startLine, endLine => 1 ≤ startLine ∧ startLine ≤ endLine
  | .insert, startLine, endLine => startLine = endLine

structure BatchEdit where
  kind : EditKind
  startLine : ℕ
  endLine : ℕ
  body : Str
  expectContent : Option Str
  expectLineContent : Option Str
  expectFirstLine : Option Str
  expectLastLine : Option Str
  desc : Str
  range : kind.RangeOk startLine endLine

def conflict (a b : BatchEdit) : Bool :=
  match a.kind, b.kind with
  | .replace, .replace => a.startLine ≤ b.endLine && b.startLine ≤ a.endLine
  | .insert, .replace => b.startLine ≤ a.startLine && a.startLine < b.endLine
  | .replace, .insert => a.startLine ≤ b.startLine && b.startLine < a.endLine
  | .insert, .insert => false

def checkEditsConflicts : List BatchEdit → Except Str Unit
  | [] => .ok ()
  | a :: rest =>
    match rest.find? (conflict a) with
    | some b => .error ("错误：".toList ++ a.desc ++ " 与 ".toList ++ b.desc ++
        " 的行区间/锚点在原文件中重叠冲突；请合并为一条编辑或拆分调用（".toList ++ notWrittenHint ++
        "）".toList)
    | none => checkEditsConflicts rest

def outOfBounds (total : ℕ) (e : BatchEdit) : Bool :=
  match e.kind with
  | .replace => e.startLine > total || e.endLine > total
  | .insert => e.startLine > total

def checkEditsBounds (edits : List BatchEdit) (total : ℕ) : Except Str Unit :=
  match edits.find? (outOfBounds total) with
  | some e => .error ("错误：".toList ++ e.desc ++ "：行号超出文件行数（文件共 ".toList ++
      numeral total ++ " 行）（".toList ++ notWrittenHint ++ "）".toList)
  | none => .ok ()

/-- The guard of `insert_after_line`. -/
def verifyExpectLineContent (lines : List Str) (afterLine : ℕ) (expect : Str) : Except Str Unit :=
  if afterLine = 0 then
    .error (("错误：guard.anchor_line 校验失败：after_line=0 表示插入到文件开头，无锚点行可校验；" ++
      "请去掉 guard.anchor_line 或改用 after_line>=1（").toList ++ notWrittenHint ++ "）。".toList)
  else
    match lines[afterLine - 1]? with
    | none => .error ("错误：guard.anchor_line 校验失败，锚点行 ".toList ++ numeral afterLine ++
        " 超出文件行数（文件共 ".toList ++ numeral lines.length ++ " 行）（".toList ++
        notWrittenHint ++ "）".toList)
    | some actual =>
      let expectBody := trimEndNewlines expect
      if actual = expectBody then .ok ()
      else
        let err := "错误：guard.anchor_line 校验失败。锚点行 ".toList ++ numeral afterLine ++
          " 当前内容与期望不符（".toList ++ notWrittenHint ++ "）：\n  行 ".toList ++
          numeral afterLine ++ "|实际: ".toList ++ actual ++ "\n        期望: ".toList ++
          expectBody
        .error (if expectBody.isEmpty then err
          else err ++ relocateHint lines expectBody "guard.anchor_line".toList)

def verifyEditExpectation (view : List Str) (e : BatchEdit) : Except Str Unit :=
  match e.kind with
  | .replace =>
    match e.expectContent with
    | some expect => verifyExpectContent view e.startLine e.endLine expect
    | none =>
      verifyExpectEdgeLines view e.startLine e.endLine e.expectFirstLine e.expectLastLine
  | .insert =>
    match e.expectLineContent with
    | some expect => verifyExpectLineContent view e.startLine expect
    | none => .ok ()

def verifyEditExpectations (view : List Str) : List BatchEdit → Except Str Unit
  | [] => .ok ()
  | e :: rest =>
    match verifyEditExpectation view e with
    | .error err => .error (e.desc ++ "：".toList ++ err)
    | .ok () => verifyEditExpectations view rest

/-- The sorting key: from the bottom up, insertions in front of replacements. -/
def AppliedFirst (a b : BatchEdit) : Prop :=
  b.startLine < a.startLine ∨
    a.startLine = b.startLine ∧ (a.kind = .replace → b.kind = .replace)

instance (a b : BatchEdit) : Decidable (AppliedFirst a b) :=
  inferInstanceAs (Decidable (_ ∨ _))

def applyEdit (lines : List Str) (e : BatchEdit) : List Str :=
  match e.kind with
  | .replace =>
    let newLines := if e.body.isEmpty then [] else RustStr.lines e.body
    lines.take (e.startLine - 1) ++ newLines ++ lines.drop e.endLine
  | .insert =>
    if e.body.isEmpty then lines
    else
      (RustStr.lines e.body).zipIdx.foldl
        (fun lines line => lines.insertIdx (e.startLine + line.2) line.1) lines

def applyEdits (lines : List Str) (edits : List BatchEdit) : List Str :=
  (edits.insertionSort AppliedFirst).foldl applyEdit lines

/-- The text a batch writes. -/
def runBatchEditsOnSnapshot (original : Str) (edits : List BatchEdit) : Except Str Str := do
  let lines := RustStr.lines original
  checkEditsConflicts edits
  checkEditsBounds edits lines.length
  verifyEditExpectations lines edits
  return unlines (applyEdits lines edits) (original.getLast? = some '\n' || original.isEmpty)

end Batch

section Streamed

variable {text body : Str} {startLine endLine afterLine : ℕ}

theorem writeInsertBody_complete (body : Str) : Complete (writeInsertBody body) := by
  unfold writeInsertBody
  split
  · exact Or.inl rfl
  · split
    · next h => exact Or.inr h
    · exact Or.inr getLast?_concat

theorem writeInsertBody_eq_nil_iff : writeInsertBody body = [] ↔ body = [] := by
  unfold writeInsertBody
  split
  · next h => simpa using h
  · next h =>
    split
    · rfl
    · simpa using h

/-- The lines that are copied. -/
theorem foldl_streamReplace_keep {k : ℕ} {raws : List Str}
    (hout : ∀ i, k < i → i ≤ k + raws.length → i < startLine ∨ endLine < i)
    (hrange : startLine ≤ endLine) (out : Str) (replaced : Bool) :
    raws.foldl (streamReplaceStep startLine endLine body) ⟨out, k, replaced⟩ =
      ⟨out ++ raws.flatten, k + raws.length, replaced⟩ := by
  induction raws generalizing out k with
  | nil => simp
  | cons raw raws ih =>
    have hk := hout (k + 1) (by omega) (by rw [length_cons]; omega)
    have hstep : streamReplaceStep startLine endLine body ⟨out, k, replaced⟩ raw =
        ⟨out ++ raw, k + 1, replaced⟩ := by
      have hne : k + 1 ≠ startLine := by omega
      simp only [streamReplaceStep, hne, if_false]
      rw [if_neg (by omega)]
    rw [foldl_cons, hstep, ih fun i hi hle => hout i (by omega) (by
      rw [length_cons]; omega)]
    simp only [flatten_cons, append_assoc, length_cons, Nat.add_assoc,
      Nat.add_comm 1]

theorem foldl_streamReplace_skip {k : ℕ} {raws : List Str} (hstart : startLine ≤ k)
    (hend : k + raws.length ≤ endLine) (out : Str) (replaced : Bool) :
    raws.foldl (streamReplaceStep startLine endLine body) ⟨out, k, replaced⟩ =
      ⟨out, k + raws.length, replaced⟩ := by
  induction raws generalizing k with
  | nil => rfl
  | cons raw raws ih =>
    rw [length_cons] at hend
    have hstep : streamReplaceStep startLine endLine body ⟨out, k, replaced⟩ raw =
        ⟨out, k + 1, replaced⟩ := by
      have hne : k + 1 ≠ startLine := by omega
      simp only [streamReplaceStep, hne, if_false]
      rw [if_pos (by omega)]
    rw [foldl_cons, hstep, ih (by omega) (by omega), length_cons]
    simp only [Nat.add_assoc, Nat.add_comm 1]

theorem foldl_streamReplace {front rest back : List Str} {first : Str}
    (hstart : front.length + 1 = startLine) (hend : startLine + rest.length = endLine)
    (body : Str) :
    (front ++ first :: rest ++ back).foldl (streamReplaceStep startLine endLine body)
        ⟨[], 0, false⟩ =
      ⟨front.flatten ++ writeInsertBody body ++ back.flatten, endLine + back.length, true⟩ := by
  have hfront := @foldl_streamReplace_keep body startLine endLine 0 front
    (fun i _ hle => by omega) (by omega) [] false
  have hfirst : streamReplaceStep startLine endLine body
      ⟨[] ++ front.flatten, 0 + front.length, false⟩ first =
        ⟨front.flatten ++ writeInsertBody body, startLine, true⟩ := by
    simp only [streamReplaceStep, nil_append, Nat.zero_add, hstart, if_true]
    rw [if_pos (by omega)]
  rw [foldl_append, foldl_append, hfront, foldl_cons, hfirst,
    foldl_streamReplace_skip (Nat.le_refl _) (Nat.le_of_eq hend),
    foldl_streamReplace_keep (fun i hi _ => by omega) (by omega), hend]

/-- The body stands in for the range. -/
theorem replaceLines_eq (hstart : 1 ≤ startLine) (hrange : startLine ≤ endLine)
    (hend : endLine ≤ (RustStr.lines text).length) (body : Str) :
    replaceLines text startLine endLine body =
      .ok (((rawLines text).take (startLine - 1)).flatten ++ writeInsertBody body ++
        ((rawLines text).drop endLine).flatten) := by
  rw [← length_rawLines] at hend
  have hfront : ((rawLines text).take (startLine - 1)).length = startLine - 1 := by
    rw [length_take]
    omega
  have hmid : (((rawLines text).drop (startLine - 1)).take (endLine - startLine + 1)).length =
      endLine - startLine + 1 := by
    rw [length_take, length_drop]
    omega
  obtain ⟨first, rest, hfirst⟩ :=
    exists_cons_of_length_pos (Nat.lt_of_lt_of_eq (Nat.succ_pos _) hmid.symm)
  rw [hfirst, length_cons] at hmid
  have hsplit : (rawLines text).take (startLine - 1) ++ first :: rest ++
      (rawLines text).drop endLine = rawLines text := by
    have hdrop : (rawLines text).drop endLine =
        ((rawLines text).drop (startLine - 1)).drop (endLine - startLine + 1) := by
      rw [drop_drop, show startLine - 1 + (endLine - startLine + 1) = endLine by omega]
    rw [← hfirst, append_assoc, hdrop, take_append_drop, take_append_drop]
  have hnext : ((rawLines text).take (startLine - 1)).length + 1 = startLine := by omega
  have hlast : startLine + rest.length = endLine := by omega
  have hfold := @foldl_streamReplace _ _ _ rest ((rawLines text).drop endLine) first hnext hlast
    body
  rw [hsplit, length_drop] at hfold
  rw [replaceLines, streamReplaceLines, hfold]
  simp only [validateReplaceCoverage]
  rw [if_neg (by omega), if_neg (by omega)]
  rfl

theorem foldl_streamInsert_keep {k : ℕ} {raws : List Str}
    (hout : ∀ i, k < i → i ≤ k + raws.length → i ≠ afterLine) (out : Str) :
    raws.foldl (streamInsertStep afterLine body) (out, k) =
      (out ++ raws.flatten, k + raws.length) := by
  induction raws generalizing out k with
  | nil => simp
  | cons raw raws ih =>
    have hk := hout (k + 1) (by omega) (by rw [length_cons]; omega)
    have hstep : streamInsertStep afterLine body (out, k) raw = (out ++ raw, k + 1) := by
      simp only [streamInsertStep, hk, if_false]
    rw [foldl_cons, hstep, ih fun i hi hle => hout i (by omega) (by
      rw [length_cons]; omega)]
    simp only [flatten_cons, append_assoc, length_cons, Nat.add_assoc,
      Nat.add_comm 1]

theorem insertAfterLine_eq (hafter : afterLine ≤ (RustStr.lines text).length) (body : Str) :
    insertAfterLine text afterLine body =
      .ok (((rawLines text).take afterLine).flatten ++ writeInsertBody body ++
        ((rawLines text).drop afterLine).flatten) := by
  rw [← length_rawLines] at hafter
  have hsplit := take_append_drop afterLine (rawLines text)
  have hfront : ((rawLines text).take afterLine).length = afterLine := by
    rw [length_take]
    omega
  generalize (rawLines text).take afterLine = front at hsplit hfront ⊢
  generalize (rawLines text).drop afterLine = back at hsplit ⊢
  rw [insertAfterLine, ← hsplit]
  rcases eq_nil_or_concat' front with rfl | ⟨front, anchor, rfl⟩
  · obtain rfl : afterLine = 0 := hfront.symm
    have hback := @foldl_streamInsert_keep body 0 0 back (fun i hi _ => by omega)
      (writeInsertBody body)
    simp [hback]
  · rw [length_append, length_singleton] at hfront
    have hkeep := @foldl_streamInsert_keep body afterLine 0 front (fun i _ hle => by omega) []
    have hanchor : streamInsertStep afterLine body ([] ++ front.flatten, 0 + front.length) anchor =
        (front.flatten ++ anchor ++ writeInsertBody body, afterLine) := by
      simp only [streamInsertStep, nil_append, Nat.zero_add, hfront, if_true]
    rw [if_neg (show afterLine ≠ 0 by omega), foldl_append, foldl_append, hkeep,
      foldl_cons, foldl_nil, hanchor,
      foldl_streamInsert_keep (fun i hi _ => by omega)]
    simp only
    rw [if_neg (by omega), flatten_append, flatten_singleton]

end Streamed

section Single

variable {text body : Str} {startLine endLine afterLine : ℕ}

theorem insertIdx_length (front back : List Str) (line : Str) :
    (front ++ back).insertIdx front.length line = front ++ line :: back := by
  induction front with
  | nil => rfl
  | cons x front ih => rw [cons_append, length_cons, insertIdx_succ_cons, ih]; rfl

theorem foldl_insertIdx (new front back : List Str) {anchor j : ℕ}
    (h : front.length = anchor + j) :
    (new.zipIdx j).foldl (fun lines line => lines.insertIdx (anchor + line.2) line.1)
      (front ++ back) = front ++ new ++ back := by
  induction new generalizing front j with
  | nil => simp
  | cons line new ih =>
    rw [zipIdx_cons, foldl_cons]
    simp only
    rw [← h, insertIdx_length, append_cons,
      ih (front ++ [line]) (by rw [length_append, length_singleton]; omega)]
    simp

theorem applyEdit_replace {e : BatchEdit} (h : e.kind = .replace) (lines : List Str) :
    applyEdit lines e =
      lines.take (e.startLine - 1) ++ RustStr.lines e.body ++ lines.drop e.endLine := by
  rw [applyEdit, h]
  simp only
  split
  · next hnil => rw [List.isEmpty_iff.mp hnil, lines_nil]
  · rfl

theorem applyEdit_insert {e : BatchEdit} (h : e.kind = .insert) {lines : List Str}
    (hin : e.startLine ≤ lines.length) :
    applyEdit lines e =
      lines.take e.startLine ++ RustStr.lines e.body ++ lines.drop e.startLine := by
  rw [applyEdit, h]
  simp only
  split
  · next hnil =>
    rw [List.isEmpty_iff.mp hnil, lines_nil, append_nil, take_append_drop]
  · have hlen : (lines.take e.startLine).length = e.startLine + 0 := by
      rw [length_take]
      omega
    have hfold := foldl_insertIdx (RustStr.lines e.body) _ (lines.drop e.startLine) hlen
    rwa [take_append_drop] at hfold

/-- The text ends in a newline, or is to. -/
def finalNewline (text : Str) : Bool := text.getLast? = some '\n' || text.isEmpty

theorem runBatchEditsOnSnapshot_eq_ok_iff {edits : List BatchEdit} {out : Str} :
    runBatchEditsOnSnapshot text edits = .ok out ↔
      checkEditsConflicts edits = .ok () ∧
      checkEditsBounds edits (RustStr.lines text).length = .ok () ∧
      verifyEditExpectations (RustStr.lines text) edits = .ok () ∧
      unlines (applyEdits (RustStr.lines text) edits) (finalNewline text) = out := by
  simp only [runBatchEditsOnSnapshot, Except.bind_eq_ok]
  constructor
  · rintro ⟨⟨⟩, hconflicts, ⟨⟩, hbounds, ⟨⟩, hexpect, hout⟩
    exact ⟨hconflicts, hbounds, hexpect, Except.ok.inj hout⟩
  · rintro ⟨hconflicts, hbounds, hexpect, rfl⟩
    exact ⟨(), hconflicts, (), hbounds, (), hexpect, rfl⟩

/-- The batch that holds one edit without a guard. -/
def singleEdit (kind : EditKind) (startLine endLine : ℕ) (body : Str)
    (range : kind.RangeOk startLine endLine) : List BatchEdit :=
  [⟨kind, startLine, endLine, body, none, none, none, none, "edits[0]".toList, range⟩]

theorem runBatch_single_replace (range : EditKind.RangeOk .replace startLine endLine)
    (hend : endLine ≤ (RustStr.lines text).length) :
    runBatchEditsOnSnapshot text (singleEdit .replace startLine endLine body range) =
      .ok (unlines ((RustStr.lines text).take (startLine - 1) ++ RustStr.lines body ++
        (RustStr.lines text).drop endLine) (finalNewline text)) := by
  have hin : startLine ≤ (RustStr.lines text).length := range.2.trans hend
  refine runBatchEditsOnSnapshot_eq_ok_iff.mpr ⟨rfl, ?_, rfl, ?_⟩
  · simp [checkEditsBounds, singleEdit, outOfBounds, hin, hend]
  · simp [applyEdits, singleEdit, applyEdit_replace]

theorem runBatch_single_insert (hafter : afterLine ≤ (RustStr.lines text).length) :
    runBatchEditsOnSnapshot text (singleEdit .insert afterLine afterLine body rfl) =
      .ok (unlines ((RustStr.lines text).take afterLine ++ RustStr.lines body ++
        (RustStr.lines text).drop afterLine) (finalNewline text)) := by
  refine runBatchEditsOnSnapshot_eq_ok_iff.mpr ⟨rfl, ?_, rfl, ?_⟩
  · simp [checkEditsBounds, singleEdit, outOfBounds, hafter]
  · simp [applyEdits, singleEdit, applyEdit_insert, hafter]

/-- The streaming insertion writes the lines it should, and what the batch of one writes. -/
def InsertAgrees (text : Str) (afterLine : ℕ) (body : Str) : Prop :=
  ∃ out, insertAfterLine text afterLine body = .ok out ∧
    RustStr.lines out = (RustStr.lines text).take afterLine ++ RustStr.lines body ++
      (RustStr.lines text).drop afterLine ∧
    runBatchEditsOnSnapshot text (singleEdit .insert afterLine afterLine body rfl) = .ok out

/-- The same for the streaming replacement. -/
def ReplaceAgrees (text : Str) (startLine endLine : ℕ) (body : Str)
    (range : EditKind.RangeOk .replace startLine endLine) : Prop :=
  ∃ out, replaceLines text startLine endLine body = .ok out ∧
    RustStr.lines out = (RustStr.lines text).take (startLine - 1) ++ RustStr.lines body ++
      (RustStr.lines text).drop endLine ∧
    runBatchEditsOnSnapshot text (singleEdit .replace startLine endLine body range) = .ok out

theorem lines_writeInsertBody_eq_iff (body : Str) :
    RustStr.lines (writeInsertBody body) = RustStr.lines body ↔ body.getLast? ≠ some '\r' := by
  unfold writeInsertBody
  split
  · next hnil => simp [List.isEmpty_iff.mp hnil]
  · next hne =>
    split
    · next hlast => simp [hlast]
    · next hlast =>
      have hne' : body ≠ [] := by simpa using hne
      obtain ⟨front, line, hlines, hcomplete, hline⟩ := lines_complete hne' hlast
      rw [hcomplete, hlines, append_cancel_left_eq, List.cons.injEq, and_iff_left rfl,
        stripCr_eq_self_iff, hline]

theorem noCrlf_writeInsertBody (h : body.getLast? ≠ some '\r') :
    NoCrlf (writeInsertBody body) ↔ NoCrlf body := by
  unfold writeInsertBody
  split
  · next hnil => rw [List.isEmpty_iff.mp hnil]
  · split
    · rfl
    · next hlast => rw [noCrlf_concat hlast, and_iff_left h]

theorem complete_iff_finalNewline (s : Str) : Complete s ↔ finalNewline s = true := by
  simp [Complete, finalNewline, or_comm]

/-- A body between a complete front and the rest: when the lines are right, the batch of one
agrees just where nothing is normalised and the end is as it was. -/
theorem spliced_agrees_iff {front : Str} (hfront : Complete front) (back : Str) (final : Bool)
    (hlines : body.getLast? ≠ some '\r') :
    unlines (RustStr.lines front ++ RustStr.lines body ++ RustStr.lines back) final =
        front ++ writeInsertBody body ++ back ↔
      NoCrlf front ∧ NoCrlf body ∧ NoCrlf back ∧
        (front ++ writeInsertBody body ++ back ≠ [] → (Complete back ↔ final = true)) := by
  have hbody := complete_append (writeInsertBody_complete body) hfront
  have hwhole : RustStr.lines (front ++ writeInsertBody body ++ back) =
      RustStr.lines front ++ RustStr.lines body ++ RustStr.lines back := by
    rw [lines_append hbody, lines_append hfront, (lines_writeInsertBody_eq_iff body).mpr hlines]
  have hlast (hne : front ++ writeInsertBody body ++ back ≠ []) :
      (front ++ writeInsertBody body ++ back).getLast? = some '\n' ↔ Complete back := by
    constructor
    · intro h
      by_cases hnil : back = []
      · exact Or.inl hnil
      · exact (complete_append_iff _ hnil).mp (Or.inr h)
    · intro h
      exact (complete_append h hbody).resolve_left hne
  rw [← hwhole, eq_comm, eq_unlines_lines_iff, noCrlf_append hbody, noCrlf_append hfront,
    noCrlf_writeInsertBody hlines, and_assoc, and_assoc]
  refine and_congr_right fun _ => and_congr_right fun _ => and_congr_right fun _ => ?_
  exact forall_congr' fun hne => by rw [hlast hne]

/-- The line end that is added to the body adds no line. -/
theorem length_lines_writeInsertBody (hbody : body ≠ []) :
    (RustStr.lines (writeInsertBody body)).length = (RustStr.lines body).length := by
  unfold writeInsertBody
  split
  next hnil => rw [List.isEmpty_iff.mp hnil]
  next =>
    split
    next => rfl
    next hend =>
      obtain ⟨head, line, hlines, hdone, -⟩ := lines_complete hbody hend
      rw [hdone, hlines, length_append, length_append]
      rfl

/-- Behind a last line without an end the body goes on in that line, so one line is missing. -/
theorem lines_glued_ne (hbody : body ≠ []) (hopen : ¬ Complete text) :
    RustStr.lines (text ++ writeInsertBody body ++ []) ≠
      RustStr.lines text ++ RustStr.lines body ++ RustStr.lines [] := by
  intro h
  have hlen := congrArg List.length h
  have hcomplete := writeInsertBody_complete body
  have hne : writeInsertBody body ≠ [] := mt writeInsertBody_eq_nil_iff.mp hbody
  rw [append_nil, lines_nil, append_nil, length_append,
    ← length_lines_writeInsertBody hbody, length_lines, length_lines, length_lines,
    if_pos ((complete_append_iff _ hne).mpr hcomplete), if_neg hopen, if_pos hcomplete,
    count_append] at hlen
  omega

/-- Between complete lines the body makes the lines it should, unless a CR ends it. -/
theorem lines_spliced_iff {front : Str} (hdone : Complete front) (back : Str) :
    RustStr.lines (front ++ writeInsertBody body ++ back) =
        RustStr.lines front ++ RustStr.lines body ++ RustStr.lines back ↔
      body.getLast? ≠ some '\r' := by
  rw [lines_append (complete_append (writeInsertBody_complete body) hdone), lines_append hdone,
    append_left_inj, append_right_inj, lines_writeInsertBody_eq_iff]

theorem insertAgrees_iff (hafter : afterLine ≤ (RustStr.lines text).length) (body : Str) :
    InsertAgrees text afterLine body ↔
      NoCrlf text ∧ (body = [] ∨ NoCrlf body ∧ body.getLast? ≠ some '\r' ∧
        (afterLine = (RustStr.lines text).length → Complete text)) := by
  have htext : ((rawLines text).take afterLine).flatten ++
      ((rawLines text).drop afterLine).flatten = text := by
    rw [← flatten_append, take_append_drop, flatten_rawLines]
  simp only [InsertAgrees, insertAfterLine_eq hafter, Except.ok.injEq, exists_eq_left',
    runBatch_single_insert hafter]
  rw [← lines_take_flatten, ← lines_drop_flatten]
  have hraw := areRaw_rawLines text
  have hfront : afterLine < (rawLines text).length →
      Complete ((rawLines text).take afterLine).flatten := complete_take_flatten hraw
  rw [length_rawLines] at hfront
  have hall : afterLine = (RustStr.lines text).length →
      ((rawLines text).take afterLine).flatten = text ∧
        ((rawLines text).drop afterLine).flatten = [] := by
    rintro rfl
    rw [← length_rawLines, take_length, drop_length, flatten_rawLines]
    exact ⟨rfl, rfl⟩
  generalize ((rawLines text).take afterLine).flatten = front at *
  generalize ((rawLines text).drop afterLine).flatten = back at *
  by_cases hbody : body = []
  · subst hbody
    have hlines : RustStr.lines front ++ RustStr.lines back = RustStr.lines text := by
      rcases Nat.lt_or_eq_of_le hafter with hlt | heq
      · rw [← lines_append (hfront hlt), htext]
      · obtain ⟨rfl, rfl⟩ := hall heq
        rw [lines_nil, append_nil]
    have hwhole : front ++ writeInsertBody [] ++ back = text := by
      rw [show writeInsertBody [] = [] from rfl, append_nil, htext]
    rw [hwhole, lines_nil, append_nil, hlines, and_iff_right rfl, eq_comm,
      eq_unlines_lines_iff, ← complete_iff_finalNewline]
    simp +contextual [Complete]
  · simp only [hbody, false_or]
    by_cases hglued : afterLine = (RustStr.lines text).length ∧ ¬ Complete text
    · obtain ⟨hlast, hopen⟩ := hglued
      obtain ⟨rfl, rfl⟩ := hall hlast
      exact iff_of_false (fun h => lines_glued_ne hbody hopen h.1) fun h => hopen (h.2.2.2 hlast)
    · have hdone : Complete front := by
        rcases Nat.lt_or_eq_of_le hafter with hlt | heq
        · exact hfront hlt
        · rw [(hall heq).1]
          exact not_not.mp fun h => hglued ⟨heq, h⟩
      have hend : Complete back ↔ Complete text := by
        rw [← htext]
        by_cases hnil : back = []
        · rw [hnil, append_nil]
          exact iff_of_true (Or.inl rfl) hdone
        · rw [complete_append_iff _ hnil]
      rw [lines_spliced_iff hdone back, ← htext, noCrlf_append hdone, htext]
      constructor
      · rintro ⟨hcr, hbatch⟩
        obtain ⟨h₁, h₂, h₃, -⟩ := (spliced_agrees_iff hdone back _ hcr).mp hbatch
        exact ⟨⟨h₁, h₃⟩, h₂, hcr, fun heq => not_not.mp fun h => hglued ⟨heq, h⟩⟩
      · rintro ⟨⟨h₁, h₃⟩, h₂, hcr, -⟩
        refine ⟨hcr, (spliced_agrees_iff hdone back _ hcr).mpr ⟨h₁, h₂, h₃, fun _ => ?_⟩⟩
        rw [hend, complete_iff_finalNewline]

theorem replaceAgrees_iff (range : EditKind.RangeOk .replace startLine endLine)
    (hend : endLine ≤ (RustStr.lines text).length) (body : Str) :
    ReplaceAgrees text startLine endLine body range ↔
      NoCrlf ((rawLines text).take (startLine - 1)).flatten ∧
        NoCrlf ((rawLines text).drop endLine).flatten ∧ NoCrlf body ∧
        body.getLast? ≠ some '\r' ∧ (endLine = (RustStr.lines text).length →
          Complete text ∨ startLine = 1 ∧ body = []) := by
  obtain ⟨hstart, hrange⟩ := range
  simp only [ReplaceAgrees, replaceLines_eq hstart hrange hend, Except.ok.injEq, exists_eq_left',
    runBatch_single_replace ⟨hstart, hrange⟩ hend]
  rw [← lines_take_flatten, ← lines_drop_flatten]
  have hraw := areRaw_rawLines text
  rw [← length_rawLines] at hend ⊢
  have hdone : Complete ((rawLines text).take (startLine - 1)).flatten :=
    complete_take_flatten hraw (by omega)
  have hfront : ((rawLines text).take (startLine - 1)).flatten = [] ↔ startLine = 1 := by
    rw [flatten_eq_nil_iff (hraw.take _), take_eq_nil_iff, ← length_eq_zero_iff]
    omega
  have hback : ((rawLines text).drop endLine).flatten = [] ↔
      endLine = (rawLines text).length := by
    rw [flatten_eq_nil_iff (hraw.drop _), drop_eq_nil_iff]
    omega
  have hend' : ((rawLines text).drop endLine).flatten ≠ [] →
      (Complete ((rawLines text).drop endLine).flatten ↔ Complete text) := by
    intro hne
    nth_rewrite 2 [← flatten_rawLines text]
    nth_rewrite 2 [← take_append_drop endLine (rawLines text)]
    rw [flatten_append, complete_append_iff _ hne]
  generalize ((rawLines text).take (startLine - 1)).flatten = front at *
  generalize ((rawLines text).drop endLine).flatten = back at *
  have hspec : RustStr.lines (front ++ writeInsertBody body ++ back) =
      RustStr.lines front ++ RustStr.lines body ++ RustStr.lines back ↔
        body.getLast? ≠ some '\r' := by
    rw [lines_append (complete_append (writeInsertBody_complete body) hdone),
      lines_append hdone, append_left_inj, append_right_inj,
      lines_writeInsertBody_eq_iff]
  rw [hspec]
  by_cases hlast : endLine = (rawLines text).length
  · obtain rfl := hback.mpr hlast
    constructor
    · rintro ⟨hcr, hbatch⟩
      obtain ⟨h₁, h₂, h₃, hfinal⟩ := (spliced_agrees_iff hdone [] _ hcr).mp hbatch
      refine ⟨h₁, h₃, h₂, hcr, fun _ => ?_⟩
      by_cases hempty : startLine = 1 ∧ body = []
      · exact Or.inr hempty
      · refine Or.inl (complete_iff_finalNewline text |>.mpr ((hfinal fun h => hempty ?_).mp
          (Or.inl rfl)))
        rw [append_nil, append_eq_nil_iff, hfront, writeInsertBody_eq_nil_iff] at h
        exact h
    · rintro ⟨h₁, h₃, h₂, hcr, hfinal⟩
      refine ⟨hcr, (spliced_agrees_iff hdone [] _ hcr).mpr ⟨h₁, h₂, h₃, fun hne => ?_⟩⟩
      refine iff_of_true (Or.inl rfl) ((complete_iff_finalNewline text).mp ?_)
      refine (hfinal hlast).resolve_right fun hempty => hne ?_
      rw [append_nil, append_eq_nil_iff, hfront, writeInsertBody_eq_nil_iff]
      exact hempty
  · have hne : back ≠ [] := mt hback.mp hlast
    constructor
    · rintro ⟨hcr, hbatch⟩
      obtain ⟨h₁, h₂, h₃, -⟩ := (spliced_agrees_iff hdone back _ hcr).mp hbatch
      exact ⟨h₁, h₃, h₂, hcr, fun h => absurd h hlast⟩
    · rintro ⟨h₁, h₃, h₂, hcr, -⟩
      refine ⟨hcr, (spliced_agrees_iff hdone back _ hcr).mpr ⟨h₁, h₂, h₃, fun _ => ?_⟩⟩
      rw [hend' hne, complete_iff_finalNewline]

/-- When the streaming edits have the lines they should and write what the batch of one does. -/
theorem streamed_edits_agree_iff (text body : Str) :
    (∀ afterLine, afterLine ≤ (RustStr.lines text).length →
      (InsertAgrees text afterLine body ↔
        NoCrlf text ∧ (body = [] ∨ NoCrlf body ∧ body.getLast? ≠ some '\r' ∧
          (afterLine = (RustStr.lines text).length → Complete text)))) ∧
      ∀ startLine endLine (range : EditKind.RangeOk .replace startLine endLine),
        endLine ≤ (RustStr.lines text).length →
        (ReplaceAgrees text startLine endLine body range ↔
          NoCrlf ((rawLines text).take (startLine - 1)).flatten ∧
            NoCrlf ((rawLines text).drop endLine).flatten ∧ NoCrlf body ∧
            body.getLast? ≠ some '\r' ∧ (endLine = (RustStr.lines text).length →
              Complete text ∨ startLine = 1 ∧ body = [])) :=
  ⟨fun _ hafter => insertAgrees_iff hafter body,
    fun _ _ range hend => replaceAgrees_iff range hend body⟩

/-- A line behind an unterminated last line is glued to it. -/
theorem not_streamed_insert_agrees :
    ¬ (∀ text afterLine body, afterLine ≤ (RustStr.lines text).length →
        InsertAgrees text afterLine body) ∧
      insertAfterLine "a".toList 1 "b".toList = .ok "ab\n".toList := by
  have hglued : insertAfterLine "a".toList 1 "b".toList = .ok "ab\n".toList := by decide
  refine ⟨fun h => ?_, hglued⟩
  obtain ⟨out, hout, hlines, -⟩ := h "a".toList 1 "b".toList (by decide)
  cases hglued.symm.trans hout
  revert hlines
  decide

end Single

end CrabMate
