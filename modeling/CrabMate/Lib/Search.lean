import CrabMate.Lib.Str
import Mathlib.Algebra.GroupWithZero.Nat

/-! Searching a text that arrives in pieces: only the end of what was seen and the beginning of
the next piece can hold an occurrence that lies across the seam. Lengths are in UTF-8 bytes. -/
namespace RustStr
open List

/-- `str::len`. -/
def utf8Len (s : Str) : ℕ := (s.map Char.utf8Size).sum

/-- The longest end of the text within `max` bytes. -/
def tailBytes : Str → ℕ → Str
  | [], _ => []
  | c :: s, max => if utf8Len (c :: s) ≤ max then c :: s else tailBytes s max

/-- The longest beginning of the text within `max` bytes. -/
def headBytes : Str → ℕ → Str
  | [], _ => []
  | c :: s, max => if c.utf8Size ≤ max then c :: headBytes s (max - c.utf8Size) else []

section Bytes

variable {s t u v p : Str} {max : ℕ}

@[simp] theorem utf8Len_nil : utf8Len [] = 0 := rfl

@[simp] theorem utf8Len_cons (c : Char) (s : Str) :
    utf8Len (c :: s) = c.utf8Size + utf8Len s := rfl

@[simp] theorem utf8Len_append (s t : Str) : utf8Len (s ++ t) = utf8Len s + utf8Len t := by
  rw [utf8Len, map_append, sum_append, ← utf8Len, ← utf8Len]

theorem utf8Len_pos (h : s ≠ []) : 0 < utf8Len s := by
  cases s with
  | nil => exact absurd rfl h
  | cons c s =>
    have hc := c.utf8Size_pos
    rw [utf8Len_cons]
    omega

theorem tailBytes_suffix (s : Str) (max : ℕ) : tailBytes s max <:+ s := by
  induction s with
  | nil => exact suffix_refl _
  | cons c s ih =>
    rw [tailBytes]
    split
    · exact suffix_refl _
    · exact ih.trans (suffix_cons c s)

theorem headBytes_isPrefix (s : Str) (max : ℕ) : headBytes s max <+: s := by
  induction s generalizing max with
  | nil => exact prefix_refl _
  | cons c s ih =>
    rw [headBytes]
    split
    · exact (prefix_cons_inj c).mpr (ih _)
    · exact nil_prefix

/-- An end that fits is an end of the longest one. -/
theorem suffix_tailBytes (h : u <:+ s) (hlen : utf8Len u ≤ max) : u <:+ tailBytes s max := by
  induction s with
  | nil => exact h
  | cons c s ih =>
    rw [tailBytes]
    split
    · exact h
    · next hbig =>
      rcases suffix_cons_iff.mp h with rfl | h
      · exact absurd hlen hbig
      · exact ih h

theorem prefix_headBytes (h : v <+: s) (hlen : utf8Len v ≤ max) : v <+: headBytes s max := by
  induction s generalizing v max with
  | nil => exact h
  | cons c s ih =>
    cases v with
    | nil => exact nil_prefix
    | cons d v =>
      obtain ⟨rfl, hrest⟩ := cons_prefix_cons.mp h
      rw [utf8Len_cons] at hlen
      rw [headBytes, if_pos (by omega)]
      exact (prefix_cons_inj d).mpr (ih hrest (by omega))

/-- The end of a text is the end of what is behind a seam, when that is long enough. -/
theorem tailBytes_append_of_le (h : max ≤ utf8Len t) (s : Str) :
    tailBytes (s ++ t) max = tailBytes t max := by
  induction s with
  | nil => rfl
  | cons c s ih =>
    have hc := c.utf8Size_pos
    rw [cons_append, tailBytes, if_neg, ih]
    rw [utf8Len_cons, utf8Len_append]
    omega

theorem tailBytes_tailBytes_append (s t : Str) (max : ℕ) :
    tailBytes (tailBytes s max ++ t) max = tailBytes (s ++ t) max := by
  induction s with
  | nil => rfl
  | cons c s ih =>
    rw [tailBytes]
    split
    · rfl
    · next hbig =>
      have hbig' : ¬ utf8Len (c :: (s ++ t)) ≤ max := by
        rw [utf8Len_cons] at hbig
        rw [utf8Len_cons, utf8Len_append]
        omega
      rw [ih, cons_append, tailBytes, if_neg hbig']

end Bytes

section Search

variable {p s t : Str}

theorem contains_iff (p s : Str) : contains p s = true ↔ p <:+: s := by
  induction s with
  | nil => simp [contains]
  | cons c s ih =>
    rw [contains, Bool.or_eq_true, ih, isPrefixOf_iff_prefix, infix_cons_iff]

theorem infix_append_iff_seam (p s t : Str) :
    p <:+: s ++ t ↔ p <:+: s ∨ p <:+: t ∨
      p <:+: tailBytes s (utf8Len p - 1) ++ headBytes t (utf8Len p - 1) := by
  constructor
  · intro h
    rcases infix_append_iff_ne_nil.mp h with h | h | ⟨u, v, hunil, hvnil, rfl, hu, hv⟩
    · exact Or.inl h
    · exact Or.inr (Or.inl h)
    · have hupos := utf8Len_pos hunil
      have hvpos := utf8Len_pos hvnil
      rw [utf8Len_append]
      obtain ⟨a, ha⟩ := @suffix_tailBytes s u (utf8Len u + utf8Len v - 1) hu (by omega)
      obtain ⟨b, hb⟩ := @prefix_headBytes t v (utf8Len u + utf8Len v - 1) hv (by omega)
      exact Or.inr (Or.inr ⟨a, b, by rw [← ha, ← hb]; simp⟩)
  · rintro (h | h | h)
    · exact h.trans (prefix_append s t).isInfix
    · exact h.trans (suffix_append s t).isInfix
    · obtain ⟨a, ha⟩ := tailBytes_suffix s (utf8Len p - 1)
      obtain ⟨b, hb⟩ := headBytes_isPrefix t (utf8Len p - 1)
      refine h.trans ⟨a, b, ?_⟩
      nth_rewrite 2 [← ha]
      nth_rewrite 2 [← hb]
      simp

end Search

end RustStr
