import CrabMate.Lib.LexPath
import CrabMate.Tools.ShellScript

/-! Preparing the argument vector of `run_command`: splitting command lines written into the
command, and the `cd <dir> && …` prefixes as the execution and as the approval policy peel
them. -/
namespace CrabMate
open RustStr LexPath List

section SplitCommandLine

inductive Phase where
  | outside
  | single
  | double
  | escapeOutside
  | escapeDouble
  deriving DecidableEq

structure SplitState where
  words : List Str
  buf : Str
  wordNonempty : Bool
  phase : Phase
  doubleInnerChar : Bool
  singleInnerChar : Bool

namespace SplitState

def new : SplitState := ⟨[], [], false, .outside, false, false⟩

def flushWord (s : SplitState) : SplitState :=
  if !s.buf.isEmpty || s.wordNonempty then
    { s with words := s.words ++ [s.buf], buf := [], wordNonempty := false }
  else s

def pushLiteral (s : SplitState) (ch : Char) : SplitState :=
  { s with buf := s.buf ++ [ch], wordNonempty := true }

def feedOutside (s : SplitState) (ch : Char) : SplitState :=
  if isWhitespace ch then s.flushWord
  else if ch = '\'' then { s with phase := .single, singleInnerChar := false }
  else if ch = '"' then { s with phase := .double, doubleInnerChar := false }
  else if ch = '\\' then { s with phase := .escapeOutside }
  else s.pushLiteral ch

def feedSingle (s : SplitState) (ch : Char) : SplitState :=
  if ch = '\'' then
    { s with wordNonempty := s.wordNonempty || !s.singleInnerChar, phase := .outside }
  else { s.pushLiteral ch with singleInnerChar := true }

def feedDouble (s : SplitState) (ch : Char) : SplitState :=
  if ch = '"' then
    { s with wordNonempty := s.wordNonempty || !s.doubleInnerChar, phase := .outside }
  else if ch = '\\' then { s with phase := .escapeDouble }
  else { s.pushLiteral ch with doubleInnerChar := true }

/-- Only a newline vanishes; every other character is kept. -/
def feedEscapeDouble (s : SplitState) (ch : Char) : SplitState :=
  if ch = '\n' then { s with phase := .double }
  else { s.pushLiteral ch with doubleInnerChar := true, phase := .double }

def feed (s : SplitState) (ch : Char) : SplitState :=
  match s.phase with
  | .outside => s.feedOutside ch
  | .escapeOutside => { s.pushLiteral ch with phase := .outside }
  | .single => s.feedSingle ch
  | .double => s.feedDouble ch
  | .escapeDouble => s.feedEscapeDouble ch

def finish (s : SplitState) : List Str :=
  match s.phase with
  | .escapeOutside | .escapeDouble => (s.pushLiteral '\\').flushWord.words
  | _ => s.flushWord.words

end SplitState

def splitCommandLine (input : Str) : List Str := (input.foldl SplitState.feed .new).finish

/-- The visible characters of an argument list. -/
def weight : List Str → ℕ
  | [] => 0
  | a :: args => visible a + weight args

@[simp] theorem weight_nil : weight [] = 0 := rfl

@[simp] theorem weight_cons (a : Str) (args : List Str) :
    weight (a :: args) = visible a + weight args := rfl

@[simp] theorem weight_append (args more : List Str) :
    weight (args ++ more) = weight args + weight more := by
  induction args with
  | nil => simp
  | cons a args ih =>
    rw [cons_append, weight_cons, weight_cons, ih]
    omega

namespace SplitState

/-- What the state holds of the input; a pending backslash may still be written out. -/
def held (s : SplitState) : ℕ :=
  weight s.words + visible s.buf +
    match s.phase with
    | .escapeOutside | .escapeDouble => 1
    | _ => 0

theorem weight_flushWord (s : SplitState) :
    weight s.flushWord.words + visible s.flushWord.buf = weight s.words + visible s.buf := by
  unfold flushWord
  split
  · simp
  · rfl

theorem phase_flushWord (s : SplitState) : s.flushWord.phase = s.phase := by
  unfold flushWord
  split <;> rfl

theorem held_flushWord (s : SplitState) : s.flushWord.held = s.held := by
  unfold held
  rw [weight_flushWord, phase_flushWord]

theorem held_feed (s : SplitState) (ch : Char) : (s.feed ch).held ≤ s.held + visible [ch] := by
  have hback : visible ['\\'] = 1 := by decide
  obtain ⟨words, buf, wordNonempty, phase, doubleInner, singleInner⟩ := s
  cases phase with
  | outside =>
    show (feedOutside _ ch).held ≤ _
    unfold feedOutside
    split
    · rw [held_flushWord]
      omega
    · split
      · simp [held]
      · split
        · simp [held]
        · split
          · next hch => simp [held, hch, hback]
          · simp [held, pushLiteral]
            omega
  | escapeOutside => simp [feed, held, pushLiteral]; omega
  | single =>
    show (feedSingle _ ch).held ≤ _
    unfold feedSingle
    split
    · simp [held]
    · simp [held, pushLiteral]
      omega
  | double =>
    show (feedDouble _ ch).held ≤ _
    unfold feedDouble
    split
    · simp [held]
    · split
      · next hch => simp [held, hch, hback]
      · simp [held, pushLiteral]
        omega
  | escapeDouble =>
    show (feedEscapeDouble _ ch).held ≤ _
    unfold feedEscapeDouble
    split
    · simp [held]
      omega
    · simp [held, pushLiteral]
      omega

theorem held_run (s : SplitState) (input : Str) :
    (input.foldl feed s).held ≤ s.held + visible input := by
  induction input generalizing s with
  | nil => simp
  | cons ch rest ih =>
    have hsplit : visible (ch :: rest) = visible [ch] + visible rest := visible_append [ch] rest
    have hstep := held_feed s ch
    have hrest := ih (s.feed ch)
    rw [foldl_cons]
    omega

theorem weight_finish (s : SplitState) : weight s.finish ≤ s.held := by
  have hback : visible ['\\'] = 1 := by decide
  have hflush := weight_flushWord s
  have hpending := weight_flushWord (s.pushLiteral '\\')
  unfold finish held
  split <;> simp [pushLiteral, hback] at * <;> omega

end SplitState

theorem weight_splitCommandLine (input : Str) : weight (splitCommandLine input) ≤ visible input := by
  have hfinish := (input.foldl SplitState.feed .new).weight_finish
  have hrun := SplitState.new.held_run input
  have hnew : SplitState.new.held = 0 := rfl
  exact (hfinish.trans hrun).trans (by omega)

end SplitCommandLine

section Embedded

def splitFirstToken (s : Str) : Option (Str × Str) :=
  let s := trimStart s
  if s.isEmpty then none
  else some (s.takeWhile fun c => !isWhitespace c, s.dropWhile fun c => !isWhitespace c)

/-- No unescaped double quote. -/
def noInnerDoubleQuote : Str → Bool
  | [] => true
  | ['\\'] => true
  | '\\' :: _ :: rest => noInnerDoubleQuote rest
  | '"' :: _ => false
  | _ :: rest => noInnerDoubleQuote rest

def stripOnePairOfOuterQuotes (s : Str) : Str :=
  match s with
  | [] => s
  | first :: _ =>
    if (first = '\'' ∨ first = '"') ∧ 2 ≤ s.length ∧ s.getLast? = some first then
      let inner := s.tail.dropLast
      if first = '\'' then if inner.contains '\'' then s else inner
      else if noInnerDoubleQuote inner then inner else s
    else s

theorem visible_stripOnePairOfOuterQuotes (s : Str) :
    visible (stripOnePairOfOuterQuotes s) ≤ visible s := by
  have hinner : visible s.tail.dropLast ≤ visible s :=
    ((dropLast_sublist _).trans (tail_sublist s)).countP_le
  cases s with
  | nil => exact le_rfl
  | cons first rest =>
    simp only [stripOnePairOfOuterQuotes]
    split_ifs
    all_goals first | exact le_rfl | exact hinner

theorem splitFirstToken_length {s tok tail : Str} (h : splitFirstToken s = some (tok, tail)) :
    tail.length < s.length := by
  unfold splitFirstToken at h
  have hlen : (trimStart s).length ≤ s.length := (dropWhile_sublist _).length_le
  cases ht : trimStart s with
  | nil => simp [ht] at h
  | cons c rest =>
    have hc := isWhitespace_of_trimStart_eq_cons ht
    simp only [ht, isEmpty_cons, Bool.false_eq_true, if_false, takeWhile_cons,
      dropWhile_cons, hc, Bool.not_false, if_true, Option.some.injEq, Prod.mk.injEq] at h
    have hdrop : tail.length ≤ rest.length := h.2 ▸ (dropWhile_sublist _).length_le
    rw [ht, length_cons] at hlen
    omega

theorem splitFirstToken_visible {s tok tail : Str} (h : splitFirstToken s = some (tok, tail)) :
    visible tok + visible tail = visible s := by
  unfold splitFirstToken at h
  simp only at h
  split at h
  · cases h
  · cases h
    rw [← visible_append, takeWhile_append_dropWhile, visible_trimStart]

/-- The options before the script of a `bash -c` line, then the script itself. -/
def shellScriptPrefix (rest : Str) : Option (List Str) :=
  match _h : splitFirstToken rest with
  | none => none
  | some (tok, tail) =>
    if tok = ['-', '-'] ∨ !startsWith ['-'] tok then none
    else if startsWith ['-', '-'] tok ∨ !tok.contains 'c' then
      (shellScriptPrefix tail).map fun argv => tok :: argv
    else
      let script := stripOnePairOfOuterQuotes (trim tail)
      if script.isEmpty then none else some [tok, script]
termination_by rest.length
decreasing_by exact splitFirstToken_length _h

theorem shellScriptPrefix_weight {rest : Str} {argv : List Str}
    (h : shellScriptPrefix rest = some argv) : argv ≠ [] ∧ weight argv ≤ visible rest := by
  fun_induction shellScriptPrefix rest generalizing argv with
  | case1 => cases h
  | case2 => cases h
  | case3 rest tok tail hsplit _ _ ih =>
    obtain ⟨argv', h', rfl⟩ := Option.map_eq_some_iff.mp h
    have htail := (ih h').2
    have hsum := splitFirstToken_visible hsplit
    refine ⟨by simp, ?_⟩
    rw [weight_cons]
    omega
  | case4 => cases h
  | case5 rest tok tail hsplit _ _ _ =>
    cases h
    have hsum := splitFirstToken_visible hsplit
    have hscript := visible_stripOnePairOfOuterQuotes (trim tail)
    rw [visible_trim] at hscript
    refine ⟨by simp, ?_⟩
    show weight [tok, stripOnePairOfOuterQuotes (trim tail)] ≤ _
    simp only [weight_cons, weight_nil]
    omega

def splitEmbeddedShellScript (cmdRaw : Str) : Option (Str × List Str) :=
  match splitFirstToken cmdRaw with
  | none => none
  | some (head, rest) =>
    if isPosixShellName head then (shellScriptPrefix rest).map fun argv => (head, argv) else none

/-- The words of a command line embedded in the command, if it is one. -/
def embeddedCommand (cmdRaw : Str) : Option (Str × List Str) :=
  match splitEmbeddedShellScript cmdRaw with
  | some split => some split
  | none =>
    if cmdRaw.contains '/' then none
    else
      match splitCommandLine cmdRaw with
      | head :: arg :: args => if head.isEmpty then none else some (head, arg :: args)
      | _ => none

theorem embeddedCommand_weight {cmdRaw head : Str} {argv : List Str}
    (h : embeddedCommand cmdRaw = some (head, argv)) :
    argv ≠ [] ∧ visible head + weight argv ≤ visible cmdRaw := by
  unfold embeddedCommand at h
  split at h
  · next split hscript =>
    cases h
    unfold splitEmbeddedShellScript at hscript
    split at hscript
    · cases hscript
    · next head' rest hfirst =>
      split at hscript
      · obtain ⟨argv', hprefix, heq⟩ := Option.map_eq_some_iff.mp hscript
        cases heq
        obtain ⟨hne, hle⟩ := shellScriptPrefix_weight hprefix
        have hsum := splitFirstToken_visible hfirst
        exact ⟨hne, by omega⟩
      · cases hscript
  · split at h
    · cases h
    · have hwords := weight_splitCommandLine cmdRaw
      split at h
      · next hsplit =>
        split at h
        · cases h
        · cases h
          rw [hsplit, weight_cons] at hwords
          exact ⟨by simp, hwords⟩
      · cases h

def splitCommandPrefixIfEmbedded (cmdRaw : Str) (cmdArgs : List Str) : Str × List Str :=
  match embeddedCommand cmdRaw with
  | some (head, argv) => (head, argv ++ cmdArgs)
  | none => (cmdRaw, cmdArgs)

theorem splitCommandPrefixIfEmbedded_weight (cmdRaw : Str) (cmdArgs : List Str) :
    visible (splitCommandPrefixIfEmbedded cmdRaw cmdArgs).1 +
      weight (splitCommandPrefixIfEmbedded cmdRaw cmdArgs).2 ≤ visible cmdRaw + weight cmdArgs := by
  unfold splitCommandPrefixIfEmbedded
  split
  · next head argv h =>
    have hle := (embeddedCommand_weight h).2
    show visible head + weight (argv ++ cmdArgs) ≤ _
    rw [weight_append]
    omega
  · exact le_rfl

end Embedded

section CdPrefix

inductive CdPeelError where
  | cdPrefixInvalid (detail workDir : Str)
  | unsafeArg
  | spawnOther (cmd source : Str)
  deriving DecidableEq

/-- A path segment `..`, also behind an option's `=`. -/
def argHasParentDirRef (arg : Str) : Bool :=
  let a := trim arg
  if a.isEmpty then false
  else if a = "..".toList then true
  else if startsWith "../".toList a || "/..".toList.isSuffixOf a || contains "/../".toList a then
    true
  else if contains "=../".toList a || "=..".toList.isSuffixOf a then true
  else (a.splitOn '/').any fun c => c = "..".toList

def isArgSafe (cmdName arg : Str) : Bool :=
  let a := trim arg
  if cmdName = "cd".toList then !argHasParentDirRef a && !startsWith ['/'] a
  else if cmdName = "cmake".toList then !startsWith ['/'] a
  else !argHasParentDirRef a && !startsWith ['/'] a

/-- One `cd <dir> && …`, given as `[dir, "&&", cmd, …]`. -/
def parseCdPrefix : List Str → Option (Str × List Str)
  | dir :: op :: cmd :: rest => if op = "&&".toList then some (trim dir, cmd :: rest) else none
  | _ => none

/-- What the file system answers; paths are their text. -/
structure DirDisk where
  isDir : Str → Bool
  canonicalize : Str → Except Str Str

/-- `Path::join` on texts. -/
def joinText (base path : Str) : Str :=
  if startsWith ['/'] path then path
  else if base.isEmpty || base.getLast? = some '/' then base ++ path
  else base ++ '/' :: path

variable (disk : DirDisk)

def resolveCdPrefixDir (effectiveWorkingDir dir anchor : Str) (allowExternalPaths : Bool) :
    Except CdPeelError Str :=
  if !allowExternalPaths && !isArgSafe "cd".toList dir then .error .unsafeArg
  else
    let candidate := joinText effectiveWorkingDir dir
    if !disk.isDir candidate then
      .error (.cdPrefixInvalid ("路径 `".toList ++ dir ++ "` 不是已存在目录".toList)
        effectiveWorkingDir)
    else
      match disk.canonicalize candidate with
      | .error e => .error (.spawnOther ("canonicalize(".toList ++ candidate ++ ")".toList) e)
      | .ok canonCand =>
        if !allowExternalPaths && !(components anchor).isPrefixOf (components canonCand) then
          .error .unsafeArg
        else .ok canonCand

def isCd (cmd : Str) : Bool := eqIgnoreAsciiCase cmd "cd".toList

theorem parseCdPrefix_weight {args rest : List Str} {dir cmd : Str}
    (h : parseCdPrefix args = some (dir, cmd :: rest)) :
    visible cmd + weight rest < weight args := by
  have hop : visible "&&".toList = 2 := by decide
  unfold parseCdPrefix at h
  split at h
  · split at h
    · next hand =>
      cases h
      rw [hand, weight_cons, weight_cons, weight_cons, hop]
      omega
    · cases h
  · cases h

theorem parseCdPrefix_length {args rest : List Str} {dir cmd : Str}
    (h : parseCdPrefix args = some (dir, cmd :: rest)) : rest.length < args.length := by
  unfold parseCdPrefix at h
  split at h
  · split at h
    · cases h
      simp only [length_cons]
      omega
    · cases h
  · cases h

structure Invocation where
  cmd : Str
  args : List Str
  deriving DecidableEq

def cdUsage : Str :=
  ("run_command 不经过 shell；`cd` 仅支持参数形式 [相对目录, \"&&\", 命令, …]，" ++
    "例如 [\"frontend\", \"&&\", \"cargo\", \"check\", …]").toList

/-- The loop of `peel_workspace_cd_prefix`; the directory moves with each prefix. -/
def peelCdPrefixes (anchor : Str) (allowExternalPaths : Bool) (workingDir cmd : Str)
    (args : List Str) : Except CdPeelError (Str × Invocation) :=
  if !isCd cmd then .ok (workingDir, ⟨cmd, args⟩)
  else
    match _h : parseCdPrefix args with
    | some (dir, next :: rest) =>
      match resolveCdPrefixDir disk workingDir dir anchor allowExternalPaths with
      | .error e => .error e
      | .ok workingDir =>
        peelCdPrefixes anchor allowExternalPaths workingDir
          (splitCommandPrefixIfEmbedded next rest).1 (splitCommandPrefixIfEmbedded next rest).2
    | _ => .error (.cdPrefixInvalid cdUsage workingDir)
termination_by visible cmd + weight args
decreasing_by
  have hsplit := splitCommandPrefixIfEmbedded_weight next rest
  have hpeel := parseCdPrefix_weight _h
  omega

def peelWorkspaceCdPrefix (workspaceRoot workingDir cmd : Str) (args : List Str)
    (allowExternalPaths : Bool) : Except CdPeelError (Str × Invocation) :=
  match disk.canonicalize workspaceRoot with
  | .error e => .error (.spawnOther "canonicalize(workspace)".toList e)
  | .ok anchor => peelCdPrefixes disk anchor allowExternalPaths workingDir cmd args

/-- The loop of `peel_cd_prefix_argv_for_shell_policy`. -/
def peelForPolicy (cmd : Str) (args : List Str) : Invocation :=
  if !isCd cmd then ⟨cmd, args⟩
  else
    match _h : parseCdPrefix args with
    | some (_, next :: rest) => peelForPolicy next rest
    | _ => ⟨cmd, args⟩
termination_by args.length
decreasing_by exact parseCdPrefix_length _h

def peelCdPrefixArgvForShellPolicy (cmd : Str) (args : List Str) : Invocation :=
  peelForPolicy (trim cmd) args

end CdPrefix
end CrabMate
