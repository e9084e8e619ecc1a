import CrabMate.Lib.Search
import CrabMate.Tools.CommandLine

/-! What `is_arg_safe` keeps out: absolute paths and steps to the parent directory, in an argument
and in the value of an option. -/
namespace CrabMate
open RustStr List

/-- The value of an option `--name=value`: what follows the first `=`. -/
def optionValue (arg : Str) : Option Str := (splitOnce? ['='] arg).map Prod.snd

def isAbsolutePath (path : Str) : Bool := startsWith ['/'] path

def hasParentComponent (path : Str) : Prop := "..".toList ∈ path.splitOn '/'

section Components

variable {s t u w m arg k v : Str} {c : Char}

theorem mem_splitOn_of_cons (hc : c ≠ '.') (h : hasParentComponent (c :: s)) :
    hasParentComponent s := by
  rw [hasParentComponent, splitOn_cons_eq_if_modifyHead] at h
  split at h
  · obtain h | h := mem_cons.mp h
    · cases h
    · exact h
  · rw [hasParentComponent]
    cases hs : s.splitOn '/' with
    | nil => exact absurd hs (splitOn_ne_nil '/' s)
    | cons first rest =>
      rw [hs, modifyHead_cons] at h
      obtain h | h := mem_cons.mp h
      · exact absurd (List.cons.inj h).1.symm hc
      · exact mem_cons_of_mem _ h

theorem splitOn_concat (hc : c ≠ '/') (s : Str) :
    (s ++ [c]).splitOn '/' =
      (s.splitOn '/').dropLast ++ [(s.splitOn '/').getLastD [] ++ [c]] := by
  induction s with
  | nil => simp [splitOn_cons_eq_if_modifyHead, hc]
  | cons d s ih =>
    rw [cons_append, splitOn_cons_eq_if_modifyHead, ih,
      splitOn_cons_eq_if_modifyHead]
    cases hs : s.splitOn '/' with
    | nil => exact absurd hs (splitOn_ne_nil '/' s)
    | cons first rest =>
      split
      · simp
      · cases rest <;> simp

theorem mem_splitOn_of_concat (hc : c ≠ '.') (hslash : c ≠ '/')
    (h : hasParentComponent (s ++ [c])) : hasParentComponent s := by
  rw [hasParentComponent, splitOn_concat hslash] at h
  obtain h | h := mem_append.mp h
  · exact (dropLast_sublist _).subset h
  · have hlast := congrArg List.getLast? (mem_singleton.mp h)
    rw [getLast?_concat] at hlast
    exact absurd (Option.some.inj hlast).symm hc

theorem parentComponent_trimStart (h : hasParentComponent s) :
    hasParentComponent (trimStart s) := by
  induction s with
  | nil => exact h
  | cons c s ih =>
    rw [trimStart, dropWhile_cons]
    split
    · rename_i hws
      refine ih (mem_splitOn_of_cons ?_ h)
      rintro rfl
      cases hws
    · exact h

theorem parentComponent_trimEnd (h : hasParentComponent s) : hasParentComponent (trimEnd s) := by
  induction s using List.reverseRecOn with
  | nil => exact h
  | append_singleton s c ih =>
    rw [trimEnd, rdropWhile_concat]
    split
    · rename_i hws
      refine ih (mem_splitOn_of_concat ?_ ?_ h)
      · rintro rfl
        cases hws
      · rintro rfl
        cases hws
    · exact h

theorem parentComponent_trim (h : hasParentComponent s) : hasParentComponent (trim s) :=
  parentComponent_trimEnd (parentComponent_trimStart h)

theorem mem_tail_splitOn_append (k : Str) (h : t ∈ (s.splitOn '/').tail) :
    t ∈ ((k ++ s).splitOn '/').tail := by
  induction k with
  | nil => exact h
  | cons d k ih =>
    rw [cons_append, splitOn_cons_eq_if_modifyHead]
    split
    · rw [tail_cons]
      exact mem_of_mem_tail ih
    · cases hs : (k ++ s).splitOn '/' with
      | nil => exact absurd hs (splitOn_ne_nil '/' _)
      | cons first rest =>
        rw [hs] at ih
        exact ih

theorem eq_of_splitOn_cons {first : Str} {rest : List Str} (h : s.splitOn '/' = first :: rest) :
    s = first ∨ ∃ s', s = first ++ '/' :: s' := by
  induction s generalizing first rest with
  | nil =>
    obtain ⟨rfl, -⟩ := List.cons.inj h
    exact .inl rfl
  | cons d s ih =>
    rw [splitOn_cons_eq_if_modifyHead] at h
    split at h
    · rename_i hd
      obtain ⟨rfl, -⟩ := List.cons.inj h
      exact .inr ⟨s, by rw [nil_append, beq_iff_eq.mp hd]⟩
    · cases hs : s.splitOn '/' with
      | nil => exact absurd hs (splitOn_ne_nil '/' s)
      | cons first' rest' =>
        rw [hs, modifyHead_cons] at h
        obtain ⟨rfl, -⟩ := List.cons.inj h
        obtain heq | ⟨s', heq⟩ := ih hs
        · exact .inl (congrArg _ heq)
        · exact .inr ⟨s', by rw [heq]; rfl⟩

end Components

section Trimming

variable {p s u w : Str} {c d : Char}

theorem trimStart_append (hc : isWhitespace c = false) (u w : Str) :
    ∃ u', trimStart (u ++ c :: w) = u' ++ c :: w := by
  induction u with
  | nil => exact ⟨[], by rw [nil_append, trimStart, dropWhile_cons_of_neg (by simp [hc])]⟩
  | cons d u ih =>
    rw [cons_append, trimStart, dropWhile_cons]
    split
    · exact ih
    · exact ⟨d :: u, rfl⟩

theorem trimEnd_append (hc : isWhitespace c = false) (u w : Str) :
    ∃ w', trimEnd (u ++ c :: w) = u ++ c :: w' ∧ (w = [] → w' = []) := by
  induction w using List.reverseRecOn with
  | nil =>
    refine ⟨[], ?_, fun _ => rfl⟩
    rw [trimEnd, rdropWhile_concat_neg _ _ _ (by simp [hc])]
  | append_singleton w d ih =>
    obtain ⟨w', hw', -⟩ := ih
    have hassoc : u ++ c :: (w ++ [d]) = (u ++ c :: w) ++ [d] := by simp
    rw [hassoc, trimEnd, rdropWhile_concat]
    split
    · exact ⟨w', hw', fun h => absurd h (by simp)⟩
    · exact ⟨w ++ [d], by simp, fun h => absurd h (by simp)⟩

end Trimming

section Gate

variable {cmd arg v : Str}

theorem splitOnce?_single {c : Char} {s x y : Str} (h : splitOnce? [c] s = some (x, y)) :
    s = x ++ c :: y := eq_of_splitOnce? h

theorem startsWith_slash_trim (h : isAbsolutePath arg = true) :
    isAbsolutePath (trim arg) = true := by
  obtain ⟨rest, rfl⟩ := isPrefixOf_iff_prefix.mp h
  have hstart : trimStart (['/'] ++ rest) = [] ++ '/' :: rest := by
    rw [trimStart, singleton_append, dropWhile_cons_of_neg (by decide)]
    rfl
  obtain ⟨w, hw, -⟩ := trimEnd_append (c := '/') (by decide) [] rest
  rw [trim, hstart, hw]
  rfl

theorem argHasParentDirRef_false (h : argHasParentDirRef arg = false) :
    ¬ hasParentComponent (trim arg) ∧ ¬ "=../".toList <:+: trim arg ∧
      ¬ "=..".toList <:+ trim arg := by
  unfold argHasParentDirRef at h
  by_cases hempty : (trim arg).isEmpty = true
  · rw [List.isEmpty_iff.mp hempty]
    refine ⟨?_, ?_, ?_⟩
    · rw [hasParentComponent]
      decide
    · rw [← contains_iff]
      decide
    · intro hsuffix
      exact absurd (eq_nil_of_suffix_nil hsuffix) (by decide)
  · simp only [hempty, Bool.false_eq_true, if_false] at h
    split at h
    · cases h
    · split at h
      · cases h
      · split at h
        · cases h
        · rename_i hvalue
          rw [Bool.or_eq_true, not_or, contains_iff, isSuffixOf_iff_suffix] at hvalue
          refine ⟨fun hmem => ?_, hvalue⟩
          rw [any_eq_false] at h
          exact h _ hmem (by simp)

/-- A parent component in the value of an option is seen in the argument. -/
theorem parentComponent_optionValue (h : optionValue arg = some v) (hv : hasParentComponent v) :
    hasParentComponent (trim arg) ∨ "=../".toList <:+: trim arg ∨ "=..".toList <:+ trim arg := by
  obtain ⟨⟨k, v'⟩, hsplit, rfl⟩ := Option.map_eq_some_iff.mp h
  obtain rfl := splitOnce?_single hsplit
  cases hparts : v'.splitOn '/' with
  | nil => exact absurd hparts (splitOn_ne_nil '/' v')
  | cons first rest =>
    simp only [hasParentComponent, hparts, mem_cons] at hv
    obtain rfl | hv := hv
    · -- the value begins with `..`
      right
      obtain ⟨u, hu⟩ := trimStart_append (c := '=') (by decide) k v'
      obtain rfl | ⟨rest', rfl⟩ := eq_of_splitOn_cons hparts
      · right
        obtain ⟨w, hw, hnil⟩ := trimEnd_append (c := '.') (by decide) (u ++ ['=', '.']) []
        rw [hnil rfl] at hw
        refine ⟨u, ?_⟩
        rw [trim, hu]
        simpa using hw.symm
      · left
        obtain ⟨w, hw, -⟩ := trimEnd_append (c := '/') (by decide) (u ++ ['=', '.', '.']) rest'
        refine ⟨u, w, ?_⟩
        rw [trim, hu]
        simpa using hw.symm
    · left
      apply parentComponent_trim
      have htail : "..".toList ∈ (v'.splitOn '/').tail := by rwa [hparts]
      have hmem := mem_tail_splitOn_append (k ++ ['=']) htail
      rw [append_assoc] at hmem
      exact mem_of_mem_tail hmem

/-- Neither absolute nor through a parent directory. -/
def StaysBelow (path : Str) : Prop := isAbsolutePath path = false ∧ ¬ hasParentComponent path

theorem isArgSafe_checks (hcmd : cmd ≠ "cmake".toList) (h : isArgSafe cmd arg = true) :
    argHasParentDirRef (trim arg) = false ∧ isAbsolutePath (trim arg) = false := by
  simp only [isArgSafe, if_neg hcmd] at h
  rw [isAbsolutePath]
  split at h <;> simpa using h

/-- An accepted argument stays below the directory, and so does the value of an option, exactly
when that value is not an absolute path. -/
theorem isArgSafe_staysBelow_iff (cmd arg : Str) (hcmd : cmd ≠ "cmake".toList)
    (h : isArgSafe cmd arg = true) :
    (StaysBelow arg ∧ ∀ v, optionValue arg = some v → StaysBelow v) ↔
      ∀ v, optionValue arg = some v → isAbsolutePath v = false := by
  obtain ⟨hparent, habsolute⟩ := isArgSafe_checks hcmd h
  obtain ⟨hcomponent, hinfix, hsuffix⟩ := argHasParentDirRef_false hparent
  rw [trim_trim] at hcomponent hinfix hsuffix
  refine ⟨fun hstays v hv => (hstays.2 v hv).1, fun hvalues => ⟨⟨?_, ?_⟩, fun v hv => ?_⟩⟩
  · rw [Bool.eq_false_iff]
    intro harg
    rw [startsWith_slash_trim harg] at habsolute
    cases habsolute
  · exact fun harg => hcomponent (parentComponent_trim harg)
  · refine ⟨hvalues v hv, fun hparent => ?_⟩
    obtain hseen | hseen | hseen := parentComponent_optionValue hv hparent
    · exact hcomponent hseen
    · exact hinfix hseen
    · exact hsuffix hseen

theorem isArgSafe_staysBelow_iff_ls :
    (StaysBelow "--color=auto".toList ∧
      ∀ v, optionValue "--color=auto".toList = some v → StaysBelow v) ↔
        ∀ v, optionValue "--color=auto".toList = some v → isAbsolutePath v = false :=
  isArgSafe_staysBelow_iff "ls".toList "--color=auto".toList (by decide) (by decide)

theorem not_isArgSafe_staysBelow :
    ¬ ∀ cmd arg : Str, cmd ≠ "cmake".toList → isArgSafe cmd arg = true →
      StaysBelow arg ∧ ∀ v, optionValue arg = some v → StaysBelow v := by
  intro h
  have hvalue := (h "tar".toList "--file=/etc/passwd".toList (by decide) (by decide)).2
    "/etc/passwd".toList (by decide)
  exact absurd hvalue.1 (by decide)

end Gate

end CrabMate
