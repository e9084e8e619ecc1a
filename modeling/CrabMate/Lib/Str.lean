import Mathlib.Data.List.DropRight

/-! Character-list versions of the Rust `str` operations. A text is the list of its
`char`s; white space is the Unicode `White_Space` property, as in `char::is_whitespace`. -/
namespace RustStr
open List

abbrev Str := List Char

/-- The instance under a name, for definitions that test whether a text is in a list. -/
theorem lawfulBEq_str : LawfulBEq Str := inferInstanceAs (LawfulBEq (List Char))

def hexDigit (n : ℕ) : Char := if n < 10 then Char.ofNat (48 + n) else Char.ofNat (87 + n)

def isWhitespace (c : Char) : Bool :=
  let n := c.toNat
  (9 ≤ n && n ≤ 13) || n == 0x20 || n == 0x85 || n == 0xA0 || n == 0x1680 ||
    (0x2000 ≤ n && n ≤ 0x200A) || n == 0x2028 || n == 0x2029 || n == 0x202F ||
    n == 0x205F || n == 0x3000

def trimStart (s : Str) : Str := s.dropWhile isWhitespace

def trimEnd (s : Str) : Str := s.rdropWhile isWhitespace

def trim (s : Str) : Str := trimEnd (trimStart s)

def startsWith (p s : Str) : Bool := p.isPrefixOf s

def contains (p : Str) : Str → Bool
  | [] => p.isEmpty
  | c :: s => p.isPrefixOf (c :: s) || contains p s

def stripPrefix? (p s : Str) : Option Str := if p.isPrefixOf s then some (s.drop p.length) else none

/-- `str::split_once`: the text before and after the first occurrence. -/
def splitOnce? (p : Str) : Str → Option (Str × Str)
  | [] => if p.isEmpty then some ([], []) else none
  | c :: s =>
    if p.isPrefixOf (c :: s) then some ([], (c :: s).drop p.length)
    else (splitOnce? p s).map fun parts => (c :: parts.1, parts.2)

def splitWhitespace (s : Str) : List Str := (s.splitOnP isWhitespace).filter fun w => !w.isEmpty

/-- `str::lines`: a line ends with `\n` or `\r\n`; an empty last line does not count. -/
def lines (s : Str) : List Str :=
  let parts := s.splitOn '\n'
  (parts.dropLast.map fun l => if l.getLast? = some '\r' then l.dropLast else l) ++
    parts.getLast?.toList.filter fun l => !l.isEmpty

/-- `str::trim` on a Lean string. -/
def trimString (s : String) : String := String.ofList (trim s.toList)

theorem isWhitespace_of_trimStart_eq_cons {s rest : Str} {c : Char} (h : trimStart s = c :: rest) :
    isWhitespace c = false := by
  have hd : s.dropWhile isWhitespace = c :: rest := h
  have hnot := head_dropWhile_not isWhitespace (l := s) (by simp [hd])
  simpa [hd] using hnot

theorem trim_trim (s : Str) : trim (trim s) = trim s := by
  have hpre : trimEnd (trimStart s) <+: trimStart s := rdropWhile_prefix _ _
  have hstart : trimStart (trimEnd (trimStart s)) = trimEnd (trimStart s) := by
    cases hb : trimEnd (trimStart s) with
    | nil => rfl
    | cons c rest =>
      obtain ⟨tail, ht⟩ := hpre
      have hd : trimStart s = c :: (rest ++ tail) := by rw [← cons_append, ← hb, ht]
      simp [trimStart, isWhitespace_of_trimStart_eq_cons hd]
  rw [trim, trim, hstart]
  exact rdropWhile_idempotent _ _

theorem trim_eq_self_of_forall {s : Str} (h : ∀ c ∈ s, isWhitespace c = false) : trim s = s := by
  have hdrop : ∀ t : Str, (∀ c ∈ t, isWhitespace c = false) → t.dropWhile isWhitespace = t := by
    intro t ht
    cases t with
    | nil => rfl
    | cons c t => rw [dropWhile_cons_of_neg (by simp [ht c mem_cons_self])]
  rw [trim, trimStart, hdrop s h, trimEnd, List.rdropWhile,
    hdrop _ fun c hc => h c (mem_reverse.mp hc), reverse_reverse]

theorem trim_eq_self_of_ends {s : Str} (hfirst : ∀ c rest, s = c :: rest → isWhitespace c = false)
    (hlast : ∀ h : s ≠ [], isWhitespace (s.getLast h) = false) : trim s = s := by
  have hstart : trimStart s = s := by
    cases s with
    | nil => rfl
    | cons c rest => simp [trimStart, hfirst c rest rfl]
  rw [trim, hstart, trimEnd, rdropWhile_eq_self_iff]
  intro h
  simp [hlast h]

theorem isWhitespace_of_trim_eq_cons {s rest : Str} {c : Char} (h : trim s = c :: rest) :
    isWhitespace c = false := by
  cases hs : trimStart s with
  | nil => simp [trim, hs, trimEnd] at h
  | cons c' rest' =>
    have hsub : trim s <+: trimStart s := by
      rw [trim, trimEnd]
      exact rdropWhile_prefix _ _
    rw [h, hs] at hsub
    obtain ⟨t, ht⟩ := hsub
    obtain ⟨rfl, -⟩ := List.cons.inj ht
    exact isWhitespace_of_trimStart_eq_cons hs

theorem trimEnd_append_space {s w : Str} (hw : ∀ c ∈ w, isWhitespace c = true) :
    trimEnd (s ++ w) = trimEnd s := by
  induction w using List.reverseRecOn with
  | nil => rw [append_nil]
  | append_singleton w c ih =>
    rw [← append_assoc]
    show (s ++ w ++ [c]).rdropWhile isWhitespace = _
    rw [rdropWhile_concat_pos _ _ _ (hw c (by simp))]
    exact ih fun c hc => hw c (by simp [hc])

theorem trim_of_spaces {a b s : Str} (ha : ∀ c ∈ a, isWhitespace c = true)
    (hb : ∀ c ∈ b, isWhitespace c = true) : trim (a ++ (s ++ b)) = trim s := by
  have hstart : trimStart (a ++ (s ++ b)) = trimStart (s ++ b) := by
    induction a with
    | nil => rfl
    | cons c a ih =>
      show (c :: (a ++ (s ++ b))).dropWhile isWhitespace = _
      rw [dropWhile_cons_of_pos (ha c mem_cons_self)]
      exact ih fun c hc => ha c (mem_cons_of_mem _ hc)
  rw [trim, hstart]
  by_cases hs : ∀ c ∈ s, isWhitespace c = true
  · have hblank : ∀ t : Str, (∀ c ∈ t, isWhitespace c = true) → trimStart t = [] :=
      fun t ht => dropWhile_eq_nil_iff.mpr ht
    rw [trim, hblank s hs, hblank (s ++ b) fun c hc =>
      (mem_append.mp hc).elim (hs c) (hb c)]
  · have hdrop : trimStart (s ++ b) = trimStart s ++ b := by
      show (s ++ b).dropWhile isWhitespace = s.dropWhile isWhitespace ++ b
      rw [dropWhile_append, if_neg]
      rw [List.isEmpty_iff, dropWhile_eq_nil_iff]
      exact hs
    rw [hdrop, trim, trimEnd_append_space hb]

theorem eq_of_splitOnce? {p s x y : Str} (h : splitOnce? p s = some (x, y)) :
    s = x ++ (p ++ y) := by
  induction s generalizing x with
  | nil =>
    rw [splitOnce?] at h
    split at h
    · rename_i hp
      obtain ⟨rfl, rfl⟩ := Prod.mk.inj (Option.some.inj h)
      rw [List.isEmpty_iff.mp hp]
      rfl
    · cases h
  | cons c s ih =>
    rw [splitOnce?] at h
    split at h
    · rename_i hpre
      obtain ⟨t, ht⟩ := isPrefixOf_iff_prefix.mp hpre
      obtain ⟨rfl, rfl⟩ := Prod.mk.inj (Option.some.inj h)
      rw [← ht, drop_left]
      rfl
    · obtain ⟨⟨x', y'⟩, hparts, hxy⟩ := Option.map_eq_some_iff.mp h
      obtain ⟨rfl, rfl⟩ := Prod.mk.inj hxy
      rw [ih hparts]
      rfl

theorem stripPrefix?_append (p s : Str) : stripPrefix? p (p ++ s) = some s := by
  simp [stripPrefix?]

/-- The number of characters that are not white space. -/
def visible (s : Str) : ℕ := s.countP fun c => !isWhitespace c

@[simp] theorem visible_nil : visible [] = 0 := rfl

@[simp] theorem visible_append (s t : Str) : visible (s ++ t) = visible s + visible t :=
  countP_append

theorem visible_of_all_whitespace {s : Str} (h : ∀ c ∈ s, isWhitespace c) : visible s = 0 :=
  countP_eq_zero.mpr fun c hc => by simp [h c hc]

theorem visible_trimStart (s : Str) : visible (trimStart s) = visible s := by
  have hsplit : visible (s.takeWhile isWhitespace) + visible (trimStart s) = visible s := by
    rw [← visible_append, trimStart, takeWhile_append_dropWhile]
  have hdropped : visible (s.takeWhile isWhitespace) = 0 :=
    visible_of_all_whitespace fun c hc => mem_takeWhile_imp hc
  omega

theorem visible_trimEnd (s : Str) : visible (trimEnd s) = visible s := by
  have hrev : ∀ t : Str, visible t.reverse = visible t := fun t => countP_reverse
  rw [trimEnd, List.rdropWhile, hrev, ← trimStart, visible_trimStart, hrev]

@[simp] theorem visible_trim (s : Str) : visible (trim s) = visible s := by
  rw [trim, visible_trimEnd, visible_trimStart]

theorem trimString_trimString (s : String) : trimString (trimString s) = trimString s := by
  simp [trimString, trim_trim]

end RustStr
