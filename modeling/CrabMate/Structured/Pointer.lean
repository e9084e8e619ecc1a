import CrabMate.Structured.Query

/-! JSON Pointers written from places: keys are escaped, and reading the pointer arrives at the
place again. -/
namespace CrabMate.Structured
open List

open RustStr (Str)

open Workflow (parseUsize replaceFrom)

/-! Escaping. -/

def escapeChar (c : Char) : Str :=
  if c = '~' then ['~', '0'] else if c = '/' then ['~', '1'] else [c]

/-- Only `~` escaped. -/
def escapeTilde (c : Char) : Str := if c = '~' then ['~', '0'] else [c]

section Escape

variable {c : Char} {s item : Str}

theorem replaceFrom_single (d : Char) (item s : Str) :
    replaceAll s [d] item = s.flatMap fun c => if c = d then item else [c] := by
  induction s with
  | nil => rfl
  | cons c s ih =>
    rw [replaceAll, replaceFrom, flatMap_cons, ← ih]
    by_cases hc : c = d
    · subst hc
      rw [if_pos (by simp), if_pos rfl]
      rfl
    · rw [if_neg (by simp [Ne.symm hc]), if_neg hc]
      rfl

theorem jsonPointerEscape_eq (s : Str) : jsonPointerEscape s = s.flatMap escapeChar := by
  rw [jsonPointerEscape]
  rw [show "~".toList = ['~'] from rfl, show "/".toList = ['/'] from rfl, replaceFrom_single,
    replaceFrom_single, flatMap_assoc]
  refine flatMap_congr fun c _ => ?_
  by_cases hc : c = '~'
  · subst hc
    rfl
  · by_cases hs : c = '/' <;> simp [escapeChar, hc, hs]

theorem replaceFrom_cons_ne {d e : Char} (h : c ≠ d) (rest : Str) :
    replaceAll (c :: rest) [d, e] item = c :: replaceAll rest [d, e] item := by
  rw [replaceAll, replaceFrom, if_neg (by simp [Ne.symm h]), replaceAll]

theorem replaceFrom_cons_second {d e f : Char} (h : f ≠ e) (rest : Str) :
    replaceAll (d :: f :: rest) [d, e] item = d :: replaceAll (f :: rest) [d, e] item := by
  rw [replaceAll, replaceFrom, if_neg (by simp [Ne.symm h]), replaceAll]

theorem replaceFrom_cons_both (d e : Char) (item rest : Str) :
    replaceAll (d :: e :: rest) [d, e] item = item ++ replaceAll rest [d, e] item := by
  rw [replaceAll, replaceFrom, if_pos (by simp)]
  rfl

theorem replace_slash (s : Str) :
    replaceAll (s.flatMap escapeChar) ['~', '1'] ['/'] = s.flatMap escapeTilde := by
  induction s with
  | nil => rfl
  | cons c s ih =>
    rw [flatMap_cons, flatMap_cons, ← ih]
    by_cases hc : c = '~'
    · subst hc
      rw [show escapeChar '~' = ['~', '0'] from rfl, show escapeTilde '~' = ['~', '0'] from rfl]
      exact (replaceFrom_cons_second (by decide) _).trans
        (congrArg _ (replaceFrom_cons_ne (by decide) _))
    · by_cases hs : c = '/'
      · subst hs
        exact replaceFrom_cons_both _ _ _ _
      · simp only [escapeChar, escapeTilde, hc, hs, if_false]
        exact replaceFrom_cons_ne hc _

theorem replace_tilde (s : Str) :
    replaceAll (s.flatMap escapeTilde) ['~', '0'] ['~'] = s := by
  induction s with
  | nil => rfl
  | cons c s ih =>
    rw [flatMap_cons]
    by_cases hc : c = '~'
    · subst hc
      exact (replaceFrom_cons_both _ _ _ _).trans (congrArg ('~' :: ·) ih)
    · simp only [escapeTilde, hc, if_false]
      exact (replaceFrom_cons_ne hc _).trans (congrArg (c :: ·) ih)

theorem unescape_escape (s : Str) : jsonPointerUnescape (jsonPointerEscape s) = s := by
  rw [jsonPointerEscape_eq, jsonPointerUnescape]
  exact (congrArg (replaceAll · ['~', '0'] ['~']) (replace_slash s)).trans (replace_tilde s)

theorem slash_notMem_escape (s : Str) : '/' ∉ jsonPointerEscape s := by
  rw [jsonPointerEscape_eq]
  intro h
  obtain ⟨c, -, hc⟩ := mem_flatMap.mp h
  by_cases h1 : c = '~'
  · subst h1
    revert hc
    decide
  · by_cases h2 : c = '/'
    · subst h2
      revert hc
      decide
    · simp only [escapeChar, h1, h2, if_false, mem_singleton] at hc
      exact h2 hc.symm

theorem unescape_of_no_tilde (h : '~' ∉ s) : jsonPointerUnescape s = s := by
  have hplain : ∀ (s : Str) (e : Char) (item : Str), '~' ∉ s → replaceAll s ['~', e] item = s := by
    intro s e item hs
    induction s with
    | nil => rfl
    | cons c s ih =>
      have hc : c ≠ '~' := fun heq => hs (heq ▸ mem_cons_self)
      rw [replaceFrom_cons_ne hc, ih fun hmem => hs (mem_cons_of_mem c hmem)]
  rw [jsonPointerUnescape]
  exact (congrArg (replaceAll · ['~', '0'] ['~']) (hplain s '1' _ h)).trans (hplain s '0' _ h)

end Escape

/-! Numerals. -/

def indexText (i : ℕ) : Str := (toString i).toList

section Numeral

variable {i : ℕ}

theorem indexText_eq (i : ℕ) : indexText i = Nat.toDigits 10 i := by
  rw [indexText, Nat.toString_eq_repr, Nat.repr, String.toList_ofList]

theorem isDigit_of_mem_indexText {c : Char} (h : c ∈ indexText i) : c.isDigit = true := by
  rw [indexText_eq] at h
  exact Nat.isDigit_of_mem_toDigits (by decide) (by decide) h

theorem indexText_ne_nil (i : ℕ) : indexText i ≠ [] := by
  rw [indexText_eq]
  exact Nat.toDigits_ne_nil

theorem parseUsize_of_digits {s : Str} (hne : s ≠ []) (h : ∀ c ∈ s, c.isDigit = true) :
    parseUsize s =
      if s.foldl (fun n c => 10 * n + (c.toNat - 48)) 0 < UInt64.size then
        some (s.foldl (fun n c => 10 * n + (c.toNat - 48)) 0)
      else none := by
  cases s with
  | nil => exact absurd rfl hne
  | cons c s =>
    have hplus : c ≠ '+' := by
      rintro rfl
      exact absurd (h '+' mem_cons_self) (by decide)
    have hall : (c :: s).all Char.isDigit = true := all_eq_true.mpr h
    have hnot : ((c :: s).isEmpty || !(c :: s).all Char.isDigit) = false := by
      rw [hall]
      rfl
    rw [parseUsize]
    · rw [hnot]
      rfl
    · intro rest heq
      exact hplus (List.cons.inj heq).1

theorem parseUsize_indexText (h : i < 2 ^ 64) : parseUsize (indexText i) = some i := by
  have hvalue : (indexText i).foldl (fun n c => 10 * n + (c.toNat - 48)) 0 = i := by
    rw [indexText_eq]
    exact Nat.ofDigitChars_eq_foldl.symm.trans Nat.ofDigitChars_ten_toDigits
  rw [parseUsize_of_digits (indexText_ne_nil i) fun c hc => isDigit_of_mem_indexText hc, hvalue]
  exact if_pos h

theorem digitChar_ne_zero (h : 0 < i) (hlt : i < 10) : i.digitChar ≠ '0' := by
  have hall : ∀ d : Fin 10, 0 < d.val → d.val.digitChar ≠ '0' := by decide
  exact hall ⟨i, hlt⟩ h

theorem head_toDigits_ne_zero (h : 0 < i) : (Nat.toDigits 10 i).head? ≠ some '0' := by
  induction i using Nat.strong_induction_on with
  | h i ih =>
    rw [Nat.toDigits_eq_if (by decide)]
    split
    · rename_i hlt
      rw [head?_cons, ne_eq, Option.some.injEq]
      exact digitChar_ne_zero h hlt
    · have hrec := ih (i / 10) (by omega) (by omega)
      rwa [head?_append_of_ne_nil _ Nat.toDigits_ne_nil]

theorem parseIndex_indexText (h : i < 2 ^ 64) : parseIndex (indexText i) = some i := by
  have hplus : RustStr.startsWith ['+'] (indexText i) = false := by
    rw [Bool.eq_false_iff]
    intro hstart
    obtain ⟨rest, hrest⟩ := isPrefixOf_iff_prefix.mp hstart
    exact absurd (isDigit_of_mem_indexText (i := i) (c := '+') (hrest ▸ by simp)) (by decide)
  have hzero : (RustStr.startsWith ['0'] (indexText i) && (indexText i).length ≠ 1) = false := by
    rw [Bool.eq_false_iff]
    intro hboth
    obtain ⟨hstart, hlen⟩ := Bool.and_eq_true_iff.mp hboth
    obtain ⟨rest, hrest⟩ := isPrefixOf_iff_prefix.mp hstart
    obtain rfl | hpos := Nat.eq_zero_or_pos i
    · exact absurd hlen (by decide)
    · refine head_toDigits_ne_zero hpos ?_
      rw [← indexText_eq, ← hrest]
      rfl
  rw [parseIndex, hplus, hzero]
  exact parseUsize_indexText h

end Numeral

/-! Pointers. -/

def stepText : Step → Str
  | .key k => jsonPointerEscape k
  | .index i => indexText i

def pointerText (p : List Step) : Str := p.flatMap fun s => '/' :: stepText s

/-- The step is of the kind of the value it starts from. -/
def StepFits : Step → Value → Prop
  | .key _, .object _ => True
  | .index i, .array _ => i < 2 ^ 64
  | _, _ => False

def Fits : List Step → Value → Prop
  | [], _ => True
  | s :: p, v => StepFits s v ∧ ∀ c, v.child? s = some c → Fits p c

section Pointer

variable {s : Step} {p : List Step} {v : Value}

@[simp] theorem pointerText_nil : pointerText [] = [] := rfl

theorem pointerText_cons (s : Step) (p : List Step) :
    pointerText (s :: p) = '/' :: (stepText s ++ pointerText p) := rfl

theorem pointerText_concat (p : List Step) (s : Step) :
    pointerText (p ++ [s]) = pointerText p ++ '/' :: stepText s := by
  simp [pointerText, flatMap_append]

theorem slash_notMem_stepText (s : Step) : '/' ∉ stepText s := by
  cases s with
  | key k => exact slash_notMem_escape k
  | index i =>
    intro h
    exact absurd (isDigit_of_mem_indexText h) (by decide)

theorem splitOn_pointerText {t : Str} (ht : '/' ∉ t) (p : List Step) :
    (t ++ pointerText p).splitOn '/' = t :: p.map stepText := by
  induction p generalizing t with
  | nil => rw [pointerText_nil, append_nil, splitOn_eq_singleton ht, map_nil]
  | cons s p ih =>
    rw [pointerText_cons, splitOn_append_cons_self_of_not_mem ht,
      ih (slash_notMem_stepText s), map_cons]

theorem pointerStep_stepText (h : StepFits s v) :
    v.pointerStep (jsonPointerUnescape (stepText s)) = v.child? s := by
  cases s with
  | key k =>
    cases v with
    | object fields => rw [stepText, unescape_escape, Value.pointerStep, Value.child?_object_key]
    | _ => exact h.elim
  | index i =>
    cases v with
    | array xs =>
      have hplain : '~' ∉ indexText i := fun hmem =>
        absurd (isDigit_of_mem_indexText hmem) (by decide)
      rw [stepText, unescape_of_no_tilde hplain, Value.pointerStep, parseIndex_indexText h]
      rfl
    | _ => exact h.elim

theorem foldlM_stepText (h : Fits p v) :
    ((p.map stepText).map jsonPointerUnescape).foldlM Value.pointerStep v = v.at? p := by
  induction p generalizing v with
  | nil => rfl
  | cons s p ih =>
    obtain ⟨hs, hrest⟩ := h
    rw [map_cons, map_cons, foldlM_cons, pointerStep_stepText hs,
      Option.bind_eq_bind, Value.at?_cons]
    exact Option.bind_congr fun c hc => ih (hrest c hc)

theorem pointer_pointerText (h : Fits p v) : v.pointer (pointerText p) = v.at? p := by
  cases p with
  | nil => rfl
  | cons s p =>
    have hsplit := splitOn_pointerText (t := []) not_mem_nil (s :: p)
    rw [nil_append] at hsplit
    rw [← foldlM_stepText h, Value.pointer, hsplit, drop_one, tail_cons]
    rfl

end Pointer

end CrabMate.Structured
