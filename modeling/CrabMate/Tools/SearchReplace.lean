import CrabMate.Lib.Occurrences
import CrabMate.Tools.ChangelistTruth

/-! `search_replace`: which occurrences of the search text it replaces, what it reports and what it
leaves alone. Positions count characters. -/
namespace CrabMate
open RustStr LexPath Occurrences Except

inductive ReplaceScope where
  | unique
  | first (n : ℕ)
  | all
  deriving DecidableEq

def ambiguousSitesShown : ℕ := 10

structure SearchReplaceArgs where
  path : Str
  search : Str
  replace : Str
  isRegex : Bool := false
  maxReplacements : Option ℕ := none
  replaceAll : Bool := false
  dryRun : Bool := true
  skipPrecheck : Bool := false

/-- A limit of 0 is an old way to ask for all of them. -/
def resolveReplaceScope (args : SearchReplaceArgs) : Except Str ReplaceScope :=
  match args.maxReplacements, args.replaceAll with
  | none, false => .ok .unique
  | none, true => .ok .all
  | some 0, _ => .ok .all
  | some n, false => .ok (.first n)
  | some n, true => .error ("max_replacements=".toList ++ numeral n ++
      ("（限量）与 replace_all=true（全部）冲突，请只保留一个：" ++
        "要限量传 max_replacements=N，要全部传 replace_all=true 或 max_replacements=0").toList)

/-- The compiled patterns of the regular expression library. -/
structure RegexEngine (R : Type) where
  build : Str → Except Str R
  findIter : R → Str → List (ℕ × ℕ)
  replaceAll : R → Str → Str → Str
  replacen : R → Str → ℕ → Str → Str

/-- `str::replace` and `str::replacen`. -/
def strReplace (search replace content : Str) : Str :=
  splice search replace content (scan search content)

def strReplacen (search replace content : Str) (n : ℕ) : Str :=
  splice search replace content ((scan search content).take n)

section Texts

variable {R : Type} (rx : RegexEngine R)

def searchReplaceSpans (content search : Str) (isRegex : Bool) :
    Except Str (List (ℕ × ℕ) × Option R) :=
  if !isRegex then
    .ok ((scan search content).map fun start => (start, start + search.length), none)
  else
    match rx.build search with
    | .error e => .error ("正则表达式无效：".toList ++ e)
    | .ok re => .ok (rx.findIter re content, some re)

/-- The new text, and how many places the limit leaves of those that were counted. -/
def applySearchReplaceInner (content search replace : Str) (re : Option R) (total : ℕ)
    (limit : Option ℕ) : Str × ℕ :=
  (match re, limit with
    | some re, none => rx.replaceAll re content replace
    | some re, some n => rx.replacen re content n replace
    | none, none => strReplace search replace content
    | none, some n => strReplacen search replace content n,
   match limit with
    | none => total
    | some n => min total n)

def spanLineNumbers (content : Str) (spans : List (ℕ × ℕ)) (atMost : ℕ) : List ℕ :=
  (spans.take atMost).map fun s => (content.take s.1).count '\n' + 1

def hitLines (content : Str) (spans : List (ℕ × ℕ)) : Str :=
  let shown := min spans.length ambiguousSitesShown
  let out := ", ".toList.intercalate
    ((spanLineNumbers content spans shown).map fun n => 'L' :: numeral n)
  if shown < spans.length then
    out ++ " …（共 ".toList ++ numeral spans.length ++ " 处）".toList
  else out

def linePreview (line : Str) (maxChars : ℕ) : Str :=
  if (trim line).length ≤ maxChars then trim line else (trim line).take maxChars ++ ['…']

def ambiguousMatchMessage (display content : Str) (spans : List (ℕ × ℕ)) : Str :=
  let total := spans.length
  let shown := min total ambiguousSitesShown
  "错误：search 在 ".toList ++ display ++ " 匹配 ".toList ++ numeral total ++
    " 处，无法唯一确定要替换哪一处，本次未写入任何内容（".toList ++ notWrittenHint ++
    "）。\n命中位置：".toList ++
    (spanLineNumbers content spans shown).flatMap (fun lineNo =>
      "\n  L".toList ++ numeral lineNo ++ ": ".toList ++
        linePreview ((lines content).getD (lineNo - 1) []) 80) ++
    (if shown < total then
      "\n  …（共 ".toList ++ numeral total ++ " 处，仅列前 ".toList ++ numeral shown ++
        " 处）".toList
    else []) ++
    ("\n改法（二选一）：\n" ++
      "1) 补足上下文让 search 唯一——把锚点连同上下 1~2 行一起写进 search（推荐）；\n" ++
      "2) 显式声明替换范围：max_replacements=N 只改前 N 处，" ++
      "或 replace_all=true / max_replacements=0 全部替换。").toList

structure SearchReplaceOutcome where
  display : Str
  relPath : Str
  content : Str
  spans : List (ℕ × ℕ)
  replaced : ℕ
  search : Str
  replace : Str

def SearchReplaceOutcome.total (o : SearchReplaceOutcome) : ℕ := o.spans.length

def searchReplaceSuccessBody (o : SearchReplaceOutcome) : Str :=
  let head := "已替换 ".toList ++ numeral o.replaced ++ " 处匹配（\"".toList ++ o.search ++
    "\" → \"".toList ++ o.replace ++ "\"）：".toList ++ o.display
  if o.replaced ≤ 1 then head
  else "⚠ 多处替换：search 共命中 ".toList ++ numeral o.total ++ " 处，本次改了 ".toList ++
    numeral o.replaced ++ " 处\n".toList ++ head ++ "\n  命中行：".toList ++
    hitLines o.content (o.spans.take o.replaced)

def searchReplaceDryRunBody (o : SearchReplaceOutcome) : Str :=
  "预览（dry-run）：在 ".toList ++ o.display ++ " 找到 ".toList ++ numeral o.total ++
    " 处匹配，本次将替换 ".toList ++ numeral o.replaced ++ " 处".toList ++
    (if 1 < o.total then
      "\n⚠ 多处匹配：命中行 ".toList ++ hitLines o.content (o.spans.take o.replaced)
    else []) ++
    "\n设置 dry_run=false 以实际写入；下方为本次替换的 unified diff".toList

end Texts

structure SearchReplacePlan where
  path : Str
  search : Str
  replace : Str
  isRegex : Bool
  dryRun : Bool
  skipPrecheck : Bool
  scope : ReplaceScope

/-- The search text is taken as it is; only the empty one is refused. -/
def prepareSearchReplace (args : SearchReplaceArgs) : Except WriteError SearchReplacePlan := do
  let path ← pathArg "缺少 path 参数" args.path
  refuseIf args.search.isEmpty (.invalidArgs "缺少 search 参数".toList)
  let scope ← (resolveReplaceScope args).mapError .invalidArgs
  return { path, search := args.search, replace := args.replace, isRegex := args.isRegex,
           dryRun := args.dryRun, skipPrecheck := args.skipPrecheck, scope }

/-- How many of the occurrences may be replaced, where `none` means all. -/
def resolveReplaceLimit (plan : SearchReplacePlan) (content : Str) (spans : List (ℕ × ℕ))
    (display : Str) : Except WriteError (Option ℕ) :=
  if spans.isEmpty then
    .error (.invalidArgs ("未找到匹配：\"".toList ++ plan.search ++ "\" 在 ".toList ++ plan.path))
  else
    match plan.scope with
    | .unique =>
      if 1 < spans.length then
        .error (.invalidArgs (ambiguousMatchMessage display content spans))
      else .ok (some 1)
    | .first n => .ok (some n)
    | .all => .ok none

/-- What a call meets besides the disk. The first check of the revision compares with what the turn
has read, the second one stands right before the file is replaced; both can only refuse. -/
structure SearchReplaceEnv (σ R : Type) where
  regex : RegexEngine R
  display : FsPath → Str → Str
  verifyBound : σ → FsPath → Except Str Unit
  verifyBase : σ → FsPath → Except Str Unit

structure SearchReplaceReply where
  body : Str
  outcome : SearchReplaceOutcome
  after : Str

section Call

variable {σ K R : Type} [DecidableEq K] (w : Workspace σ K) (env : SearchReplaceEnv σ R)

def loadSearchReplaceFileBytes (disk : σ) (path : Str) : Except WriteError (FsPath × Str) := do
  let target ← (w.forRead disk path).mapError .pathResolveFailed
  refuseIf (!w.isFile disk target)
    (.invalidArgs ("错误：".toList ++ path ++ " 不是文件".toList))
  let content ← (w.readToString disk target).mapError fun e =>
    .external "search_replace_failed".toList ("读取文件失败：".toList ++ e)
  refuseIf (4 * 1024 * 1024 < utf8Len content)
    (.invalidArgs ("错误：文件过大（".toList ++ numeral (utf8Len content) ++
      " 字节，上限 4MiB）".toList))
  return (target, content)

def searchReplaceTypedError (body : Str) : WriteError := .output "search_replace".toList body

/-- What the call would write, and what it would say about it. -/
def plannedReplace (disk : σ) (plan : SearchReplacePlan) :
    Except WriteError (FsPath × Str × SearchReplaceOutcome) := do
  let (target, content) ← loadSearchReplaceFileBytes w disk plan.path
  let (spans, re) ← (searchReplaceSpans env.regex content plan.search plan.isRegex).mapError
    .invalidArgs
  let display := env.display target plan.path
  let limit ← resolveReplaceLimit plan content spans display
  let (newContent, replaced) := applySearchReplaceInner env.regex content plan.search plan.replace
    re spans.length limit
  (env.verifyBound disk target).mapError searchReplaceTypedError
  return (target, newContent,
    { display, relPath := plan.path, content, spans, replaced, search := plan.search,
      replace := plan.replace })

/-- The text goes to a temporary file, which replaces the target once the revision is checked. A
replacement that fails is taken to leave the target. -/
def searchReplaceCommit (disk : σ) (target : FsPath) (newContent : Str) : Except WriteError Unit × σ :=
  let failed (e : Str) : WriteError :=
    if startsWith "错误[".toList e then searchReplaceTypedError e
    else .external "search_replace_failed".toList ("写入文件失败：".toList ++ e)
  match w.createTmp disk target newContent with
  | .error e => (.error (failed e), disk)
  | .ok staged =>
    match env.verifyBase staged target with
    | .error e => (.error (failed e), staged)
    | .ok () =>
      match w.commitTmp staged target with
      | .error e => (.error (failed e), staged)
      | .ok done => (.ok (), done)

def searchReplacePersist (s : WriteSession σ) (plan : SearchReplacePlan) (target : FsPath)
    (newContent : Str) (o : SearchReplaceOutcome) :
    Except WriteError SearchReplaceReply × WriteSession σ :=
  match w.precheckBeforeWrite plan.path newContent plan.skipPrecheck with
  | .error e => (.error (.writePrecheckFailed "search_replace".toList e), s)
  | .ok () =>
    match searchReplaceCommit w env s.disk target newContent with
    | (.error e, disk) => (.error e, { s with disk })
    | (.ok (), disk) =>
      (.ok ⟨searchReplaceSuccessBody o, o, newContent⟩,
        recordFileStateAfterWrite w { s with disk } plan.path (some o.content))

/-- The reply of a call and the session it leaves. -/
def searchReplaceTry (s : WriteSession σ) (args : SearchReplaceArgs) :
    Except WriteError SearchReplaceReply × WriteSession σ :=
  match prepareSearchReplace args with
  | .error e => (.error e, s)
  | .ok plan =>
    match plannedReplace w env s.disk plan with
    | .error e => (.error e, s)
    | .ok (target, newContent, o) =>
      if plan.dryRun then (.ok ⟨searchReplaceDryRunBody o, o, newContent⟩, s)
      else searchReplacePersist w env s plan target newContent o

end Call

/-! What a call does. -/

/-- The text `new` is `content` with the `k` occurrences replaced that the scope asks for; without
a declared scope there is exactly one. -/
def Intended (search replace content new : Str) (k : ℕ) : ReplaceScope → Prop
  | .unique => k = 1 ∧ ∃ before after, Cuts search content [before] after ∧
      new = before ++ replace ++ after
  | .first n => ∃ pieces last, Cuts search content pieces last ∧ k = min pieces.length n ∧
      new = rebuilt search replace last n pieces
  | .all => ∃ pieces last, Cuts search content pieces last ∧ k = pieces.length ∧
      new = rebuilt search replace last k pieces

/-- No file has another content, and the changelist is the same. -/
structure Untouched {σ K : Type} [DecidableEq K] (w : Workspace σ K) (s s' : WriteSession σ) :
    Prop where
  content : w.content s'.disk = w.content s.disk
  changelist : s'.changelist = s.changelist

section Literal

variable {σ K R : Type} [DecidableEq K] {w : Workspace σ K} {env : SearchReplaceEnv σ R}
variable {s : WriteSession σ} {args : SearchReplaceArgs} {plan : SearchReplacePlan}

theorem prepareSearchReplace_ok (h : prepareSearchReplace args = .ok plan) :
    plan.path = trim args.path ∧ plan.search = args.search ∧ plan.search ≠ [] ∧
      plan.replace = args.replace ∧ plan.isRegex = args.isRegex ∧ plan.dryRun = args.dryRun ∧
      resolveReplaceScope args = .ok plan.scope := by
  obtain ⟨path, hpath, h⟩ := bind_eq_ok.mp h
  obtain ⟨-, rfl⟩ := pathArg_eq_ok hpath
  obtain ⟨_, hsearch, h⟩ := bind_eq_ok.mp h
  obtain ⟨scope, hscope, h⟩ := bind_eq_ok.mp h
  obtain rfl := Except.ok.inj h
  have hne : args.search ≠ [] := by simpa using refuseIf_eq_ok.mp hsearch
  exact ⟨rfl, rfl, hne, rfl, rfl, rfl, mapError_eq_ok.mp hscope⟩

theorem loadSearchReplaceFileBytes_ok {disk : σ} {path : Str} {target : FsPath} {content : Str}
    (h : loadSearchReplaceFileBytes w disk path = .ok (target, content)) :
    w.forRead disk path = .ok target ∧ w.readToString disk target = .ok content := by
  obtain ⟨t, htarget, h⟩ := bind_eq_ok.mp h
  obtain ⟨-, -, h⟩ := bind_eq_ok.mp h
  obtain ⟨c, hcontent, h⟩ := bind_eq_ok.mp h
  obtain ⟨-, -, h⟩ := bind_eq_ok.mp h
  obtain ⟨rfl, rfl⟩ := Prod.mk.inj (Except.ok.inj h)
  exact ⟨mapError_eq_ok.mp htarget, mapError_eq_ok.mp hcontent⟩

/-- The text and the number that counting, deciding and rewriting agree on. -/
theorem intended_of_limit {content display : Str} {spans : List (ℕ × ℕ)} {limit : Option ℕ}
    (hsearch : plan.search ≠ []) (hspans : spans.length = (scan plan.search content).length)
    (hlimit : resolveReplaceLimit plan content spans display = .ok limit) :
    Intended plan.search plan.replace content
      (applySearchReplaceInner env.regex content plan.search plan.replace none spans.length limit).1
      (applySearchReplaceInner env.regex content plan.search plan.replace none spans.length limit).2
      plan.scope := by
  obtain ⟨pieces, last, hcuts⟩ := exists_cuts hsearch content
  rw [hcuts.length_scan hsearch] at hspans
  unfold resolveReplaceLimit at hlimit
  split at hlimit
  · cases hlimit
  · next hsome =>
    have hpos : 0 < pieces.length := by
      rw [← hspans]
      exact List.length_pos_iff.mpr (by simpa using hsome)
    cases hscope : plan.scope with
    | unique =>
      rw [hscope] at hlimit
      dsimp only at hlimit
      split at hlimit
      · cases hlimit
      · next hle =>
        obtain rfl := Except.ok.inj hlimit
        obtain ⟨before, rfl⟩ := List.length_eq_one_iff.mp (show pieces.length = 1 by omega)
        refine ⟨by simp only [applySearchReplaceInner]; omega, before, last, hcuts, ?_⟩
        exact hcuts.splice_eq hsearch plan.replace 1
    | first n =>
      rw [hscope] at hlimit
      obtain rfl := Except.ok.inj hlimit
      refine ⟨pieces, last, hcuts, ?_, hcuts.splice_eq hsearch plan.replace n⟩
      simp only [applySearchReplaceInner, hspans]
    | all =>
      rw [hscope] at hlimit
      obtain rfl := Except.ok.inj hlimit
      refine ⟨pieces, last, hcuts, hspans, ?_⟩
      have hall := hcuts.splice_eq hsearch plan.replace pieces.length
      rw [← hcuts.length_scan hsearch, List.take_length, hcuts.length_scan hsearch] at hall
      simpa only [applySearchReplaceInner, strReplace, hspans] using hall

/-- What a planned replacement of a literal text consists of. -/
theorem plannedReplace_ok {disk : σ} {target : FsPath} {newContent : Str}
    {o : SearchReplaceOutcome} (hliteral : plan.isRegex = false) (hsearch : plan.search ≠ [])
    (h : plannedReplace w env disk plan = .ok (target, newContent, o)) :
    w.forRead disk plan.path = .ok target ∧ w.readToString disk target = .ok o.content ∧
      Intended plan.search plan.replace o.content newContent o.replaced plan.scope := by
  obtain ⟨⟨t, content⟩, hload, h⟩ := bind_eq_ok.mp h
  obtain ⟨htarget, hcontent⟩ := loadSearchReplaceFileBytes_ok hload
  obtain ⟨⟨spans, re⟩, hspans, h⟩ := bind_eq_ok.mp h
  rw [mapError_eq_ok, searchReplaceSpans, hliteral] at hspans
  obtain ⟨hcounted, rfl⟩ := Prod.mk.inj (Except.ok.inj hspans)
  obtain ⟨limit, hlimit, h⟩ := bind_eq_ok.mp h
  obtain ⟨-, -, h⟩ := bind_eq_ok.mp h
  obtain ⟨rfl, hnew, ho⟩ : t = target ∧ _ = newContent ∧ _ = o := by
    simpa only [Prod.mk.injEq] using Except.ok.inj h
  subst hnew ho
  refine ⟨htarget, hcontent, intended_of_limit hsearch ?_ hlimit⟩
  rw [← hcounted, List.length_map]

theorem searchReplaceCommit_spec (disk : σ) (target : FsPath) (newContent : Str) :
    match searchReplaceCommit w env disk target newContent with
    | (.error _, disk') => w.content disk' = w.content disk
    | (.ok (), disk') => w.content disk' =
        Function.update (w.content disk) (w.fileAt target) (some (.text newContent)) := by
  unfold searchReplaceCommit
  cases hstaged : w.createTmp disk target newContent with
  | error e => rfl
  | ok staged =>
    have hsame := w.createTmp_ok hstaged
    dsimp only
    cases env.verifyBase staged target with
    | error e => exact hsame
    | ok =>
      dsimp only
      cases hdone : w.commitTmp staged target with
      | error e => exact hsame
      | ok done => exact w.commitTmp_ok hstaged hdone

theorem disk_recordFileStateAfterWrite (s : WriteSession σ) (rel : Str) (before : Option Str) :
    (recordFileStateAfterWrite w s rel before).disk = s.disk := by
  simp only [recordFileStateAfterWrite]
  split_ifs <;> rfl

/-- What `search_replace` did with a literal text. -/
def Accepted (w : Workspace σ K) (s s' : WriteSession σ) (args : SearchReplaceArgs)
    (reply : SearchReplaceReply) : Prop :=
  ∃ scope target content, resolveReplaceScope args = .ok scope ∧
    w.forRead s.disk (trim args.path) = .ok target ∧
    w.readToString s.disk target = .ok content ∧
    Intended args.search args.replace content reply.after reply.outcome.replaced scope ∧
    if args.dryRun then reply.body = searchReplaceDryRunBody reply.outcome ∧ Untouched w s s'
    else reply.body = searchReplaceSuccessBody reply.outcome ∧
      w.content s'.disk = Function.update (w.content s.disk) (w.fileAt target)
        (some (.text reply.after)) ∧
      s' = recordFileStateAfterWrite w { s with disk := s'.disk } (trim args.path) (some content)

/-- A refused call and a preview touch nothing. -/
def OnlyIntended (w : Workspace σ K) (s : WriteSession σ) (args : SearchReplaceArgs) :
    Except WriteError SearchReplaceReply × WriteSession σ → Prop
  | (.error _, s') => Untouched w s s'
  | (.ok reply, s') => Accepted w s s' args reply

/-- `search_replace` replaces exactly the intended left-to-right occurrences and reports how
many. -/
theorem search_replace_intended (s : WriteSession σ) (args : SearchReplaceArgs)
    (hliteral : args.isRegex = false) : OnlyIntended w s args (searchReplaceTry w env s args) := by
  unfold searchReplaceTry
  cases hprepare : prepareSearchReplace args with
  | error e => exact ⟨rfl, rfl⟩
  | ok plan =>
    obtain ⟨hpath, hsearch, hne, hreplace, hregex, hdry, hscope⟩ := prepareSearchReplace_ok hprepare
    dsimp only
    cases hplanned : plannedReplace w env s.disk plan with
    | error e => exact ⟨rfl, rfl⟩
    | ok planned =>
      obtain ⟨target, newContent, o⟩ := planned
      obtain ⟨htarget, hcontent, hintended⟩ :=
        plannedReplace_ok (hregex.trans hliteral) hne hplanned
      rw [hpath] at htarget
      rw [hsearch, hreplace] at hintended
      dsimp only
      cases hdryRun : plan.dryRun with
      | true =>
        refine ⟨plan.scope, target, o.content, hscope, htarget, hcontent, hintended, ?_⟩
        rw [if_pos (hdry.symm.trans hdryRun)]
        exact ⟨rfl, rfl, rfl⟩
      | false =>
        rw [if_neg Bool.false_ne_true, searchReplacePersist]
        cases w.precheckBeforeWrite plan.path newContent plan.skipPrecheck with
        | error e => exact ⟨rfl, rfl⟩
        | ok =>
          have hcommit : match searchReplaceCommit w env s.disk target newContent with
              | (.error _, disk') => w.content disk' = w.content s.disk
              | (.ok (), disk') => w.content disk' =
                Function.update (w.content s.disk) (w.fileAt target) (some (.text newContent)) :=
            searchReplaceCommit_spec s.disk target newContent
          dsimp only
          generalize searchReplaceCommit w env s.disk target newContent = committed at hcommit ⊢
          obtain ⟨result, disk⟩ := committed
          cases result with
          | error e => exact ⟨hcommit, rfl⟩
          | ok =>
            refine ⟨plan.scope, target, o.content, hscope, htarget, hcontent, hintended, ?_⟩
            rw [if_neg (by rw [← hdry, hdryRun]; exact Bool.false_ne_true), hpath,
              disk_recordFileStateAfterWrite]
            exact ⟨rfl, hcommit, rfl⟩

end Literal

section Overlap

def literalOnly : SearchReplaceEnv ((FsPath → Option FileContent) × Option Str) Unit where
  regex := ⟨fun _ => .error [], fun _ _ => [], fun _ s _ => s, fun _ s _ _ => s⟩
  display _ path := path
  verifyBound _ _ := .ok ()
  verifyBase _ _ := .ok ()

def tripleA : (FsPath → Option FileContent) × Option Str :=
  (fun p => if p = twoChunkRoot.path ['a'] then some (.text "aaa".toList) else none, none)

def replaceTwo (maxReplacements : Option ℕ) (search : String) : SearchReplaceArgs where
  path := ['a']
  search := search.toList
  replace := ['b']
  maxReplacements := maxReplacements
  dryRun := false

def replyOf (args : SearchReplaceArgs) : Option (Str × ℕ) :=
  (searchReplaceTry plainWorkspace literalOnly (.start tripleA) args).1.toOption.map
    fun reply => (reply.after, reply.outcome.replaced)

theorem search_replace_intended_tripleA :
    replyOf (replaceTwo (some 2) "a") = some ("bba".toList, 2) ∧
    OnlyIntended plainWorkspace (.start tripleA) (replaceTwo (some 2) "a")
      (searchReplaceTry plainWorkspace literalOnly (.start tripleA) (replaceTwo (some 2) "a")) :=
  ⟨by decide +kernel, search_replace_intended _ _ rfl⟩

/-- `aa` stands at two places of `aaa`, and a limit of 0 replaces everything. -/
theorem overlapping_search_is_replaced :
    ("aa".toList <+: "aaa".toList.drop 0 ∧ "aa".toList <+: "aaa".toList.drop 1 ∧
      replyOf (replaceTwo none "aa") = some ("ba".toList, 1)) ∧
    replyOf (replaceTwo (some 0) "a") = some ("bbb".toList, 3) := by
  decide +kernel

end Overlap

end CrabMate
