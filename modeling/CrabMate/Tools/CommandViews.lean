import CrabMate.Tools.CommandLine

/-! What is left of `cd … && …` for execution and for the approval policy. Execution splits the
command behind a prefix once more when it is a command line of its own, the policy does not; the
policy trims the first command, execution does not. -/
namespace CrabMate
open RustStr List

section Cd

theorem eq_or_eq_of_toLower {c lower : Char} (h : c.toLower = lower) (upper : Char)
    (hcase : lower.val = upper.val + ('a'.val - 'A'.val)) : c = lower ∨ c = upper := by
  unfold Char.toLower at h
  split at h
  · have hval : c.val + ('a'.val - 'A'.val) = upper.val + ('a'.val - 'A'.val) := by
      rw [← hcase, ← h]
    exact .inr (Char.ext ((UInt32.add_left_inj _).mp hval))
  · exact .inl h

theorem mem_of_isCd {cmd : Str} (h : isCd cmd) :
    cmd ∈ ["cd", "cD", "Cd", "CD"].map String.toList := by
  have hmap : cmd.map Char.toLower = ['c', 'd'] := by
    simpa [isCd, eqIgnoreAsciiCase, toAsciiLowercase] using h
  obtain ⟨c, _, rfl, hc, htail⟩ := map_eq_cons_iff.mp hmap
  obtain ⟨d, _, rfl, hd, hnil⟩ := map_eq_cons_iff.mp htail
  obtain rfl := map_eq_nil_iff.mp hnil
  obtain rfl | rfl := eq_or_eq_of_toLower hc 'C' (by decide) <;>
    obtain rfl | rfl := eq_or_eq_of_toLower hd 'D' (by decide) <;> decide

theorem plain_of_isCd {cmd : Str} (h : isCd cmd) : trim cmd = cmd ∧ embeddedCommand cmd = none := by
  have hall : ∀ c ∈ ["cd", "cD", "Cd", "CD"].map String.toList,
      trim c = c ∧ embeddedCommand c = none := by decide +kernel
  exact hall cmd (mem_of_isCd h)

end Cd

namespace Invocation

def weight (inv : Invocation) : ℕ := visible inv.cmd + CrabMate.weight inv.args

/-- Equal up to trimming of the command. -/
def SameUpToTrim (a b : Invocation) : Prop := trim a.cmd = trim b.cmd ∧ a.args = b.args

instance (a b : Invocation) : Decidable (a.SameUpToTrim b) := by
  unfold SameUpToTrim
  infer_instance

theorem SameUpToTrim.weight_eq {a b : Invocation} (h : a.SameUpToTrim b) : a.weight = b.weight := by
  have hcmd : visible a.cmd = visible b.cmd := by rw [← visible_trim a.cmd, h.1, visible_trim]
  rw [weight, weight, hcmd, h.2]

/-- Both views are asked the same questions about the shell. -/
structure SameView (a b : Invocation) : Prop where
  argv : a.SameUpToTrim b
  operators : argvHasShellOperators a.cmd a.args = argvHasShellOperators b.cmd b.args
  wrap : argvNeedsPosixShellWrap a.cmd a.args = argvNeedsPosixShellWrap b.cmd b.args

theorem SameUpToTrim.shell_eq {a b : Invocation} (h : a.SameUpToTrim b) :
    argvHasShellOperators a.cmd a.args = argvHasShellOperators b.cmd b.args ∧
      argvNeedsShellExpansion a.cmd a.args = argvNeedsShellExpansion b.cmd b.args := by
  obtain ⟨hcmd, hargs⟩ := h
  have hshell : isShellDashCInvocation a.cmd a.args = isShellDashCInvocation b.cmd b.args := by
    rw [isShellDashCInvocation, isShellDashCInvocation, isPosixShellName, isPosixShellName, hcmd,
      hargs]
  have hop : tokenIsShellOperator a.cmd = tokenIsShellOperator b.cmd := by
    rw [tokenIsShellOperator, tokenIsShellOperator, hcmd]
  have hexp : tokenNeedsShellExpansion a.cmd = tokenNeedsShellExpansion b.cmd := by
    simp only [tokenNeedsShellExpansion, hcmd]
  constructor
  · rw [argvHasShellOperators, argvHasShellOperators, any_cons, any_cons, hshell, hop,
      hargs]
  · rw [argvNeedsShellExpansion, argvNeedsShellExpansion, any_cons, any_cons, hshell, hexp,
      hargs]

theorem sameView_iff {a b : Invocation} : a.SameView b ↔ a.SameUpToTrim b := by
  refine ⟨fun h => h.argv, fun h => ⟨h, h.shell_eq.1, ?_⟩⟩
  rw [argvNeedsPosixShellWrap, argvNeedsPosixShellWrap, h.shell_eq.1, h.shell_eq.2]

end Invocation

section Loops

variable {disk : DirDisk} {anchor : Str} {allowExternalPaths : Bool}

theorem peelForPolicy_of_not_isCd {cmd : Str} (h : isCd cmd = false) (args : List Str) :
    peelForPolicy cmd args = ⟨cmd, args⟩ := by
  rw [peelForPolicy, h]
  rfl

theorem peelForPolicy_of_parse {cmd dir next : Str} {args rest : List Str} (hcd : isCd cmd)
    (h : parseCdPrefix args = some (dir, next :: rest)) :
    peelForPolicy cmd args = peelForPolicy next rest := by
  rw [peelForPolicy, hcd]
  simp only [Bool.not_true, Bool.false_eq_true, if_false]
  split
  · next h' =>
    rw [h] at h'
    cases h'
    rfl
  · next h' => exact absurd h (h' dir next rest)

theorem peelForPolicy_weight (cmd : Str) (args : List Str) :
    (peelForPolicy cmd args).weight ≤ visible cmd + weight args := by
  fun_induction peelForPolicy cmd args with
  | case1 => exact le_rfl
  | case2 cmd args _ dir next rest h ih =>
    have hpeel := parseCdPrefix_weight h
    omega
  | case3 => exact le_rfl

theorem peelForPolicy_weight_lt {cmd dir next : Str} {args rest : List Str} (hcd : isCd cmd)
    (h : parseCdPrefix args = some (dir, next :: rest)) :
    (peelForPolicy cmd args).weight < visible cmd + weight args := by
  have hpeel := parseCdPrefix_weight h
  have hrest := peelForPolicy_weight next rest
  rw [peelForPolicy_of_parse hcd h]
  omega

theorem peelCdPrefixes_weight {workingDir cmd : Str} {args : List Str} {out : Str × Invocation}
    (h : peelCdPrefixes disk anchor allowExternalPaths workingDir cmd args = .ok out) :
    out.2.weight ≤ visible cmd + weight args ∧
      (isCd cmd → out.2.weight < visible cmd + weight args) := by
  fun_induction peelCdPrefixes disk anchor allowExternalPaths workingDir cmd args with
  | case1 workingDir cmd args hcd =>
    cases h
    exact ⟨le_rfl, fun hcd' => absurd hcd' (by simpa using hcd)⟩
  | case2 => cases h
  | case3 _ cmd args _ dir next rest hparse workingDir _ ih =>
    have hpeel := parseCdPrefix_weight hparse
    have hsplit := splitCommandPrefixIfEmbedded_weight next rest
    have hrest := (ih h).1
    exact ⟨by omega, fun _ => by omega⟩
  | case4 => cases h

/-- No command behind a prefix is a command line of its own. -/
def noneEmbedded (cmd : Str) (args : List Str) : Bool :=
  if !isCd cmd then true
  else
    match _h : parseCdPrefix args with
    | some (_, next :: rest) => (embeddedCommand next).isNone && noneEmbedded next rest
    | _ => true
termination_by args.length
decreasing_by exact parseCdPrefix_length _h

theorem noneEmbedded_of_parse {cmd dir next : Str} {args rest : List Str} (hcd : isCd cmd)
    (h : parseCdPrefix args = some (dir, next :: rest)) :
    noneEmbedded cmd args = ((embeddedCommand next).isNone && noneEmbedded next rest) := by
  rw [noneEmbedded, hcd]
  simp only [Bool.not_true, Bool.false_eq_true, if_false]
  split
  · next h' =>
    rw [h] at h'
    cases h'
    rfl
  · next h' => exact absurd h (h' dir next rest)

/-- From an unpadded command, execution and policy agree exactly if no command behind a prefix
is split again. -/
theorem peelCdPrefixes_same_iff {workingDir cmd : Str} {args : List Str} {out : Str × Invocation}
    (h : peelCdPrefixes disk anchor allowExternalPaths workingDir cmd args = .ok out) :
    out.2.SameUpToTrim (peelForPolicy cmd args) ↔ noneEmbedded cmd args := by
  fun_induction peelCdPrefixes disk anchor allowExternalPaths workingDir cmd args with
  | case1 workingDir cmd args hcd =>
    cases h
    have hstop : isCd cmd = false := by simpa using hcd
    rw [peelForPolicy_of_not_isCd hstop, noneEmbedded, hstop]
    exact iff_of_true ⟨rfl, rfl⟩ rfl
  | case2 => cases h
  | case3 _ cmd args hcd dir next rest hparse workingDir _ ih =>
    have hpeels : isCd cmd := by simpa using hcd
    rw [peelForPolicy_of_parse hpeels hparse, noneEmbedded_of_parse hpeels hparse]
    cases hemb : embeddedCommand next with
    | none =>
      have hsplit : splitCommandPrefixIfEmbedded next rest = (next, rest) := by
        rw [splitCommandPrefixIfEmbedded, hemb]
      rw [hsplit] at ih h
      simpa using ih h
    | some split =>
      obtain ⟨head, argv⟩ := split
      -- the policy stops here, execution goes on with more arguments or fewer characters
      have hstop : isCd next = false := by
        by_contra hnext
        rw [(plain_of_isCd (by simpa using hnext)).2] at hemb
        cases hemb
      obtain ⟨hargv, hle⟩ := embeddedCommand_weight hemb
      have hsplit : splitCommandPrefixIfEmbedded next rest = (head, argv ++ rest) := by
        rw [splitCommandPrefixIfEmbedded, hemb]
      rw [hsplit] at h
      rw [peelForPolicy_of_not_isCd hstop]
      refine iff_of_false ?_ (by simp)
      intro hsame
      by_cases hhead : isCd head
      · have hlt := (peelCdPrefixes_weight h).2 hhead
        have heq := hsame.weight_eq
        simp only [Invocation.weight, weight_append] at hlt heq
        omega
      · rw [peelCdPrefixes, if_pos (by simpa using hhead)] at h
        cases h
        exact hargv (append_left_eq_self.mp hsame.2)
  | case4 => cases h

end Loops

section Views

theorem peelForPolicy_of_parse_none {args : List Str} (h : parseCdPrefix args = none) (cmd : Str) :
    peelForPolicy cmd args = ⟨cmd, args⟩ := by
  rw [peelForPolicy]
  split
  · rfl
  · split
    · next h' => rw [h] at h'; cases h'
    · rfl

theorem exists_of_parseCdPrefix_isSome {args : List Str} (h : (parseCdPrefix args).isSome) :
    ∃ dir next rest, parseCdPrefix args = some (dir, next :: rest) := by
  unfold parseCdPrefix at h ⊢
  split at h
  · split at h
    · next dir _ next rest hop => exact ⟨trim dir, next, rest, if_pos hop⟩
    · cases h
  · cases h

/-- A padded `cd` in front of a complete prefix. -/
def paddedCd (cmd : Str) (args : List Str) : Bool :=
  !isCd cmd && isCd (trim cmd) && (parseCdPrefix args).isSome

/-- Execution leaves a command that is not `cd` as it is; the policy still peels a padded one. -/
theorem unpeeled_same_iff {cmd : Str} (hcd : isCd cmd = false) (args : List Str) :
    Invocation.SameUpToTrim ⟨cmd, args⟩ (peelForPolicy (trim cmd) args) ↔ ¬ paddedCd cmd args := by
  have htrim : Invocation.SameUpToTrim ⟨cmd, args⟩ ⟨trim cmd, args⟩ := ⟨(trim_trim cmd).symm, rfl⟩
  by_cases hpad : paddedCd cmd args
  · refine iff_of_false ?_ (not_not_intro hpad)
    intro hsame
    simp only [paddedCd, Bool.and_eq_true] at hpad
    obtain ⟨dir, next, rest, hparse⟩ := exists_of_parseCdPrefix_isSome hpad.2
    have hlt := peelForPolicy_weight_lt hpad.1.2 hparse
    have heq := hsame.weight_eq
    simp only [Invocation.weight, visible_trim] at hlt heq
    omega
  · refine iff_of_true ?_ hpad
    by_cases hpolicy : isCd (trim cmd)
    · have hparse : parseCdPrefix args = none := by simpa [paddedCd, hcd, hpolicy] using hpad
      rw [peelForPolicy_of_parse_none hparse]
      exact htrim
    · rw [peelForPolicy_of_not_isCd (by simpa using hpolicy)]
      exact htrim

/-- Execution and policy see the same invocation exactly if no command behind a prefix is a
command line of its own and the first `cd` is not padded. -/
theorem peel_views_agree_iff (disk : DirDisk) (workspaceRoot workingDir cmd : Str)
    (args : List Str) (allowExternalPaths : Bool) (out : Str × Invocation)
    (h : peelWorkspaceCdPrefix disk workspaceRoot workingDir cmd args allowExternalPaths =
      .ok out) :
    out.2.SameView (peelCdPrefixArgvForShellPolicy cmd args) ↔
      noneEmbedded cmd args ∧ ¬ paddedCd cmd args := by
  rw [Invocation.sameView_iff, peelCdPrefixArgvForShellPolicy]
  unfold peelWorkspaceCdPrefix at h
  split at h
  · cases h
  · by_cases hcd : isCd cmd
    · rw [(plain_of_isCd hcd).1, peelCdPrefixes_same_iff h]
      simp [paddedCd, hcd]
    · have hstop : isCd cmd = false := by simpa using hcd
      have hnone : noneEmbedded cmd args := by rw [noneEmbedded, hstop]; rfl
      rw [peelCdPrefixes, if_pos (by simpa using hcd)] at h
      cases h
      rw [unpeeled_same_iff hstop, hnone]
      simp

/-- Every path is a directory and its own canonical form. -/
def plainDisk : DirDisk := ⟨fun _ => true, .ok⟩

/-- Two prefixes before a plain command. -/
theorem peel_views_agree_nested :
    noneEmbedded "cd".toList (["a", "&&", "CD", "b", "&&", "cargo", "check"].map String.toList) ∧
      Invocation.SameView ⟨"cargo".toList, ["check".toList]⟩ (peelCdPrefixArgvForShellPolicy
        "cd".toList (["a", "&&", "CD", "b", "&&", "cargo", "check"].map String.toList)) :=
  ⟨by decide +kernel,
    (peel_views_agree_iff plainDisk "/ws".toList "/ws".toList "cd".toList
      (["a", "&&", "CD", "b", "&&", "cargo", "check"].map String.toList) false
      ("/ws/a/b".toList, ⟨"cargo".toList, ["check".toList]⟩) (by decide +kernel)).mpr
      (by decide +kernel)⟩

/-- A command line behind the prefix runs an operator chain of which the policy saw one word. -/
theorem embedded_line_hides_operators :
    ¬ ∀ (disk : DirDisk) (workspaceRoot workingDir cmd : Str) (args : List Str)
      (allowExternalPaths : Bool) (out : Str × Invocation),
      peelWorkspaceCdPrefix disk workspaceRoot workingDir cmd args allowExternalPaths = .ok out →
      out.2.SameView (peelCdPrefixArgvForShellPolicy cmd args) := by
  intro h
  have hsame := h plainDisk "/ws".toList "/ws".toList "cd".toList
    (["sub", "&&", "ls && rm -rf x"].map String.toList) false
    ("/ws/sub".toList, ⟨"ls".toList, ["&&", "rm", "-rf", "x"].map String.toList⟩)
    (by decide +kernel)
  have hops := hsame.operators
  revert hops
  decide +kernel

end Views
end CrabMate
