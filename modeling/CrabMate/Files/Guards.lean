import CrabMate.Lib.Json
import CrabMate.Lib.Lines

/-! The content guards of the local edits: what the caller expects to find at the lines it is
about to change. -/
namespace CrabMate
open RustStr List

def notWrittenHint : Str := "未写盘，文件保持原样".toList

def numeral (n : ℕ) : Str := (toString n).toList

section Arguments

structure GuardView where
  content : Option Str
  firstLine : Option Str
  lastLine : Option Str
  anchorLine : Option Str
  deriving DecidableEq

def GuardView.any (guard : GuardView) : Bool :=
  guard.content.isSome || guard.firstLine.isSome || guard.lastLine.isSome ||
    guard.anchorLine.isSome

def GuardView.edgeAny (guard : GuardView) : Bool :=
  guard.firstLine.isSome || guard.lastLine.isSome

/-- A key of the `guard` object, or else the flat key of older calls. -/
def pick (v : JsonValue) (key legacy : String) : Option Str :=
  ((((v.get? "guard").bind (·.get? key)).bind (·.asStr?)).or
    ((v.get? legacy).bind (·.asStr?))).map String.toList

def guardView (v : JsonValue) : GuardView where
  content := pick v "content" "expect_content"
  firstLine := pick v "first_line" "expect_first_line"
  lastLine := pick v "last_line" "expect_last_line"
  anchorLine := pick v "anchor_line" "expect_line_content"

end Arguments

section Checks

/-- The numbers of the lines that are equal to `needle`. -/
def findExactLineHits (lines : List Str) (needle : Str) : List ℕ :=
  (lines.zipIdx.filter fun l => l.1 = needle).map fun l => l.2 + 1

def relocateHint (lines : List Str) (needle argName : Str) : Str :=
  match findExactLineHits lines needle with
  | [hit] =>
    "\n提示：期望内容实际位于行 ".toList ++ numeral hit ++
      "（与传入行号不一致）；行号可能已因早前编辑偏移，请按当前行号重算后重试。".toList
  | hit :: next :: rest =>
    "\n提示：期望内容在文件中出现 ".toList ++ numeral (hit :: next :: rest).length ++
      " 处（首次位于行 ".toList ++ numeral hit ++
      "）；请先 read_file 确认当前行号再编辑。".toList
  | [] =>
    "\n提示：期望内容未在文件中找到；请先 read_file 获取当前内容后再设置 ".toList ++ argName ++
      "。".toList

/-- The lines from `startLine` on that are not the expected ones. -/
def mismatches (lines : List Str) (startLine : ℕ) (expectLines : List Str) : List Str :=
  expectLines.zipIdx.filterMap fun (expectLine, offset) =>
    let idx := startLine - 1 + offset
    let actual := lines.getD idx []
    if actual ≠ expectLine then
      some ("  行 ".toList ++ numeral (idx + 1) ++ "|实际: ".toList ++ actual ++
        "\n        期望: ".toList ++ expectLine)
    else none

/-- Line by line over `startLine..=endLine`. -/
def verifyExpectContent (lines : List Str) (startLine endLine : ℕ) (expect : Str) :
    Except Str Unit :=
  let expectLines := RustStr.lines (trimEndNewlines expect)
  let range := numeral startLine ++ "-".toList ++ numeral endLine
  if startLine > lines.length || endLine > lines.length then
    .error ("错误：guard.content 校验失败，行区间 ".toList ++ range ++
      " 超出文件行数（文件共 ".toList ++ numeral lines.length ++ " 行）（".toList ++
      notWrittenHint ++ "）".toList)
  else
    let span := endLine - startLine + 1
    if expectLines.length ≠ span then
      .error ("错误：guard.content 校验失败，期望内容共 ".toList ++
        numeral expectLines.length ++ " 行，与替换区间行 ".toList ++ range ++ "（共 ".toList ++
        numeral span ++ " 行）行数不一致（".toList ++ notWrittenHint ++ "）。".toList)
    else
      let mismatches := mismatches lines startLine expectLines
      if mismatches.isEmpty then .ok ()
      else
        let err := "错误：guard.content 校验失败。行 ".toList ++ range ++
          " 当前内容与期望不符（".toList ++ notWrittenHint ++ "）：\n".toList ++
          ['\n'].intercalate mismatches
        match expectLines.find? fun l => !(trim l).isEmpty with
        | some first => .error (err ++ relocateHint lines first "guard.content".toList)
        | none => .error err

def checkEdgeLine (lines : List Str) (lineNo : ℕ) (expect argName : Str) : Except Str Unit :=
  if lineNo = 0 then
    .error ("错误：".toList ++ argName ++ " 校验失败，行号 0 无效（行号 1-based）（".toList ++
      notWrittenHint ++ "）".toList)
  else
    match lines[lineNo - 1]? with
    | none => .error ("错误：".toList ++ argName ++ " 校验失败，行 ".toList ++ numeral lineNo ++
        " 超出文件行数（文件共 ".toList ++ numeral lines.length ++ " 行）（".toList ++
        notWrittenHint ++ "）".toList)
    | some actual =>
      let expectBody := trimEndNewlines expect
      if actual = expectBody then .ok ()
      else
        let err := "错误：".toList ++ argName ++ " 校验失败。行 ".toList ++ numeral lineNo ++
          " 当前内容与期望不符（".toList ++ notWrittenHint ++ "）：\n  行 ".toList ++
          numeral lineNo ++ "|实际: ".toList ++ actual ++ "\n        期望: ".toList ++ expectBody
        .error (if expectBody.isEmpty then err
          else err ++ relocateHint lines expectBody argName)

def verifyExpectEdgeLines (lines : List Str) (startLine endLine : ℕ) (first last : Option Str) :
    Except Str Unit := do
  if let some expect := first then
    checkEdgeLine lines startLine expect "guard.first_line".toList
  if let some expect := last then
    checkEdgeLine lines endLine expect "guard.last_line".toList

/-- The guards of `replace_lines`; `original` is none for a file that is not UTF-8. -/
def checkReplaceExpectGuards (v : JsonValue) (original : Option Str) (startLine endLine : ℕ) :
    Except Str Unit :=
  let guard := guardView v
  if guard.anchorLine.isSome then
    .error (("错误：guard.anchor_line 仅用于 insert_after_line 的锚点行校验；replace_lines " ++
      "请使用 guard.content 或 guard.first_line/guard.last_line（").toList ++ notWrittenHint ++
      "）。".toList)
  else if guard.content.isSome && guard.edgeAny then
    .error (("错误：guard.content 与 guard.first_line/guard.last_line 互斥（前者校验整段，" ++
      "后者只锚定首尾）；请二选一（").toList ++ notWrittenHint ++ "）。".toList)
  else if !guard.any then .ok ()
  else
    match original with
    | none =>
      .error ("错误：无法读取原文件内容进行 guard 校验（文件可能不是 UTF-8 文本）（".toList ++
        notWrittenHint ++ "）。".toList)
    | some text =>
      match guard.content with
      | some expect => verifyExpectContent (RustStr.lines text) startLine endLine expect
      | none =>
        verifyExpectEdgeLines (RustStr.lines text) startLine endLine guard.firstLine guard.lastLine

end Checks

section Exactness

variable {lines : List Str} {startLine endLine : ℕ} {expect : Str}

/-- The lines of a range. -/
def lineRange (lines : List Str) (startLine endLine : ℕ) : List Str :=
  (lines.drop (startLine - 1)).take (endLine - startLine + 1)

theorem length_lineRange (hstart : 1 ≤ startLine) (hrange : startLine ≤ endLine)
    (hend : endLine ≤ lines.length) :
    (lineRange lines startLine endLine).length = endLine - startLine + 1 := by
  rw [lineRange, length_take, length_drop]
  omega

theorem mismatches_eq_nil_iff {expectLines : List Str} (hstart : 1 ≤ startLine)
    (hrange : startLine ≤ endLine) (hend : endLine ≤ lines.length)
    (hspan : expectLines.length = endLine - startLine + 1) :
    mismatches lines startLine expectLines = [] ↔
      expectLines = lineRange lines startLine endLine := by
  have hlen := length_lineRange hstart hrange hend
  rw [mismatches, filterMap_eq_nil_iff]
  constructor
  · intro h
    refine ext_getElem (hspan.trans hlen.symm) fun i hi hi' => ?_
    have hline := h (expectLines[i], i)
      (mem_zipIdx_iff_getElem?.mpr (getElem?_eq_getElem hi))
    simp only [ne_eq, ite_eq_right_iff, reduceCtorEq, imp_false, not_not] at hline
    have hin : startLine - 1 + i < lines.length := by omega
    simpa [lineRange, hin] using hline.symm
  · intro h line hmem
    obtain ⟨expectLine, offset⟩ := line
    obtain ⟨hlt, hget⟩ := List.getElem?_eq_some_iff.mp (mem_zipIdx_iff_getElem?.mp hmem)
    simp only at hlt hget
    have hin : startLine - 1 + offset < lines.length := by omega
    have hline : lines.getD (startLine - 1 + offset) [] = expectLine := by
      rw [← hget]
      simp [h, lineRange, hin]
    simp only [hline, ne_eq, not_true_eq_false, if_false]

theorem verifyExpectContent_eq_ok_iff (hstart : 1 ≤ startLine) (hrange : startLine ≤ endLine) :
    verifyExpectContent lines startLine endLine expect = .ok () ↔
      endLine ≤ lines.length ∧
        RustStr.lines (trimEndNewlines expect) = lineRange lines startLine endLine := by
  unfold verifyExpectContent
  generalize RustStr.lines (trimEndNewlines expect) = expectLines
  by_cases hend : endLine ≤ lines.length
  · rw [if_neg (by simp only [Bool.or_eq_true, decide_eq_true_eq]; omega)]
    by_cases hspan : expectLines.length = endLine - startLine + 1
    · have hnil := mismatches_eq_nil_iff hstart hrange hend hspan
      simp only [ne_eq, hspan, not_true_eq_false, if_false, hend, true_and, List.isEmpty_iff,
        hnil]
      split
      · next h => exact iff_of_true rfl h
      · next h =>
        refine iff_of_false ?_ h
        split <;> exact fun hbad => nomatch hbad
    · simp only [ne_eq, hspan, not_false_eq_true, if_true, hend, true_and]
      refine iff_of_false (fun hbad => nomatch hbad) fun h => hspan ?_
      rw [h, length_lineRange hstart hrange hend]
  · rw [if_pos (by simp only [Bool.or_eq_true, decide_eq_true_eq]; omega)]
    exact iff_of_false (fun hbad => nomatch hbad) fun h => hend h.1

/-- The call asks for the content guard only. -/
def ContentGuard (v : JsonValue) (expect : Str) : Prop :=
  guardView v = ⟨some expect, none, none, none⟩

theorem ContentGuard.check {v : JsonValue} (h : ContentGuard v expect) (text : Str) :
    checkReplaceExpectGuards v (some text) startLine endLine =
      verifyExpectContent (RustStr.lines text) startLine endLine expect := by
  rw [checkReplaceExpectGuards, h]
  rfl

/-- The trailing newlines can be ignored: there is at most one, and it ends a line that is
neither blank nor ends in a carriage return. -/
def Harmless (expect : Str) : Prop :=
  expect.getLast? ≠ some '\n' ∨
    ∃ body c, expect = body ++ [c] ++ ['\n'] ∧ c ≠ '\n' ∧ c ≠ '\r'

theorem lines_trimEndNewlines_eq_iff (expect : Str) :
    RustStr.lines (trimEndNewlines expect) = RustStr.lines expect ↔ Harmless expect := by
  by_cases hlast : expect.getLast? = some '\n'
  · obtain ⟨t, rfl⟩ := getLast?_eq_some_iff.mp hlast
    rw [trimEndNewlines_concat]
    by_cases hblank : t = [] ∨ t.getLast? = some '\n'
    · refine iff_of_false (fun h => ?_) fun h => ?_
      · have hlen := length_lines_trimEndNewlines_le t
        rw [h, lines_blank hblank, length_append, length_singleton] at hlen
        omega
      · rcases h with h | ⟨body, c, heq, hc, -⟩
        · exact h hlast
        · obtain ⟨rfl, -⟩ := append_inj' heq rfl
          rw [getLast?_concat, Option.some.injEq] at hblank
          rcases hblank with hblank | hblank
          · simp at hblank
          · exact hc hblank
    · rw [not_or] at hblank
      obtain ⟨front, line, hlines, hcomplete, hline⟩ := lines_complete hblank.1 hblank.2
      rw [trimEndNewlines_eq_self hblank.2, hlines, hcomplete, append_cancel_left_eq,
        List.cons.injEq, and_iff_left rfl, eq_comm, stripCr_eq_self_iff, hline]
      constructor
      · intro hcr
        obtain ⟨body, c, rfl⟩ := (eq_nil_or_concat' t).resolve_left hblank.1
        simp only [getLast?_concat, ne_eq, Option.some.injEq] at hcr hblank
        exact Or.inr ⟨body, c, rfl, hblank.2, hcr⟩
      · rintro (h | ⟨body, c, heq, -, hc⟩)
        · exact absurd hlast h
        · obtain ⟨rfl, -⟩ := append_inj' heq rfl
          simpa using hc
  · rw [trimEndNewlines_eq_self hlast]
    exact iff_of_true rfl (Or.inl hlast)

/-- The text of a range, as it is in the file. -/
def rangeText (text : Str) (startLine endLine : ℕ) : Str :=
  (((rawLines text).drop (startLine - 1)).take (endLine - startLine + 1)).flatten

theorem lines_rangeText (text : Str) (startLine endLine : ℕ) :
    RustStr.lines (rangeText text startLine endLine) =
      lineRange (RustStr.lines text) startLine endLine := by
  have hraw := ((areRaw_rawLines text).drop (startLine - 1)).take (endLine - startLine + 1)
  rw [rangeText, lines_eq_map_chomp, rawLines_flatten hraw, lineRange, lines_eq_map_chomp,
    map_take, map_drop]

/-- The lines of the expected text are those of the range. -/
def RangeIs (text : Str) (startLine endLine : ℕ) (expect : Str) : Prop :=
  endLine ≤ (RustStr.lines text).length ∧
    RustStr.lines expect = lineRange (RustStr.lines text) startLine endLine

instance (text : Str) (startLine endLine : ℕ) (expect : Str) :
    Decidable (RangeIs text startLine endLine expect) :=
  inferInstanceAs (Decidable (_ ∧ _))

/-- The call that asks for the content guard and nothing else. -/
def contentCall (expect : Str) : JsonValue :=
  .obj [("guard", .obj [("content", .str (String.ofList expect))])]

theorem contentCall_guard (expect : Str) : ContentGuard (contentCall expect) expect := by
  simp [ContentGuard, contentCall, guardView, pick, JsonValue.get?, JsonValue.asStr?]

theorem rangeIs_self {expect : Str} (h : RustStr.lines expect ≠ []) :
    RangeIs expect 1 (RustStr.lines expect).length expect := by
  have hpos : 0 < (RustStr.lines expect).length := length_pos_iff.mpr h
  refine ⟨Nat.le_refl _, ?_⟩
  rw [lineRange, Nat.sub_self, drop_zero,
    show (RustStr.lines expect).length - 1 + 1 = (RustStr.lines expect).length by omega,
    take_length]

/-- The content guard is exact for the harmless texts and for no others, and a range of a file
is accepted as it is when its own text is harmless. -/
theorem content_guard_exact_iff (expect : Str) :
    ((∀ v text startLine endLine, ContentGuard v expect → 1 ≤ startLine → startLine ≤ endLine →
        (checkReplaceExpectGuards v (some text) startLine endLine = .ok () ↔
          RangeIs text startLine endLine expect)) ↔ Harmless expect) ∧
      ∀ v text startLine endLine, 1 ≤ startLine → startLine ≤ endLine →
        endLine ≤ (RustStr.lines text).length →
        ContentGuard v (rangeText text startLine endLine) →
        (checkReplaceExpectGuards v (some text) startLine endLine = .ok () ↔
          Harmless (rangeText text startLine endLine)) := by
  constructor
  · constructor
    · intro h
      rw [← lines_trimEndNewlines_eq_iff]
      by_cases hnil : RustStr.lines expect = []
      · have hlen := length_lines_trimEndNewlines_le expect
        rw [hnil, length_nil, Nat.le_zero, length_eq_zero_iff] at hlen
        rw [hlen, hnil]
      · have hpos : 1 ≤ (RustStr.lines expect).length := length_pos_iff.mpr hnil
        have hself := rangeIs_self hnil
        have hok := (h _ expect 1 _ (contentCall_guard expect) (Nat.le_refl 1) hpos).mpr hself
        rw [(contentCall_guard expect).check, verifyExpectContent_eq_ok_iff (Nat.le_refl 1) hpos]
          at hok
        exact hok.2.trans hself.2.symm
    · intro h v text startLine endLine hv hstart hrange
      rw [hv.check, verifyExpectContent_eq_ok_iff hstart hrange,
        (lines_trimEndNewlines_eq_iff expect).mpr h, RangeIs]
  · intro v text startLine endLine hstart hrange hend hv
    rw [hv.check, verifyExpectContent_eq_ok_iff hstart hrange, ← lines_rangeText,
      lines_trimEndNewlines_eq_iff, and_iff_right hend]

/-- Two blank lines in front of `b`: their own text is refused. -/
theorem not_content_guard_exact :
    (¬ ∀ expect v text startLine endLine, ContentGuard v expect → 1 ≤ startLine →
      startLine ≤ endLine → (checkReplaceExpectGuards v (some text) startLine endLine = .ok () ↔
        RangeIs text startLine endLine expect)) ∧
      rangeText "\n\nb\n".toList 1 2 = "\n\n".toList ∧
      checkReplaceExpectGuards (contentCall "\n\n".toList) (some "\n\nb\n".toList) 1 2 ≠
        .ok () := by
  have hrefused : checkReplaceExpectGuards (contentCall "\n\n".toList)
      (some "\n\nb\n".toList) 1 2 ≠ .ok () := by
    decide +kernel
  refine ⟨fun h => ?_, by decide +kernel, hrefused⟩
  have hexact := h "\n\n".toList _ "\n\nb\n".toList 1 2 (contentCall_guard _) (by omega) (by omega)
  exact hrefused (hexact.mpr (by decide +kernel))

end Exactness

end CrabMate
