import Mathlib.Algebra.BigOperators.Group.List.Basic
import Mathlib.Algebra.GroupWithZero.Nat
import Mathlib.Data.List.Basic

/-! Lists cut at a separator. -/
namespace List
open List

variable {α : Type*} {a : α} {xs ys us vs : List α}

/-- The last separator of a list decides where it is cut. -/
theorem cut_last_inj (hus : a ∉ us) (hvs : a ∉ vs) (h : xs ++ a :: us = ys ++ a :: vs) :
    xs = ys ∧ us = vs := by
  rcases append_eq_append_iff.mp h with ⟨mid, rfl, hmid⟩ | ⟨mid, rfl, hmid⟩
  · cases mid with
    | nil => exact ⟨by simp, (List.cons.inj hmid).2⟩
    | cons b mid =>
      obtain ⟨rfl, rfl⟩ := List.cons.inj hmid
      exact absurd (mem_append_right _ mem_cons_self) hus
  · cases mid with
    | nil => exact ⟨by simp, (List.cons.inj hmid).2.symm⟩
    | cons b mid =>
      obtain ⟨rfl, rfl⟩ := List.cons.inj hmid
      exact absurd (mem_append_right _ mem_cons_self) hvs

theorem cut_first_inj (hxs : a ∉ xs) (hys : a ∉ ys) (h : xs ++ a :: us = ys ++ a :: vs) :
    xs = ys ∧ us = vs := by
  have hrev := congrArg List.reverse h
  simp only [reverse_append, reverse_cons, append_assoc, singleton_append]
    at hrev
  have hcut := cut_last_inj (fun hmem => hxs (mem_reverse.mp hmem))
    (fun hmem => hys (mem_reverse.mp hmem)) hrev
  exact ⟨reverse_inj.mp hcut.2, reverse_inj.mp hcut.1⟩

section Join

variable [DecidableEq α]

theorem length_splitOn (a : α) (xs : List α) : (xs.splitOn a).length = xs.count a + 1 := by
  induction xs with
  | nil => rfl
  | cons x xs ih =>
    rw [List.splitOn] at ih ⊢
    rw [splitOnP_cons_eq_if_modifyHead, count_cons]
    split_ifs with h
    · rw [length_cons, ih]
    · rw [length_modifyHead, ih]

theorem count_intercalate (a : α) (xs : List α) (rest : List (List α)) :
    ([a].intercalate (xs :: rest)).count a =
      xs.count a + (rest.map fun ys => ys.count a + 1).sum := by
  induction rest generalizing xs with
  | nil => simp
  | cons ys rest ih =>
    rw [intercalate_cons_cons, count_append, count_append, ih, map_cons,
      sum_cons, count_singleton_self]
    omega

/-- A list is cut into as many parts as it was joined from only if no part has a separator. -/
theorem length_splitOn_intercalate_iff {a : α} {xs : List α} {rest : List (List α)} :
    (([a].intercalate (xs :: rest)).splitOn a).length = (xs :: rest).length ↔
      ∀ ys ∈ xs :: rest, a ∉ ys := by
  have hsum : ∀ l : List (List α), (l.map fun ys => ys.count a + 1).sum = l.length ↔
      ∀ ys ∈ l, a ∉ ys := by
    intro l
    induction l with
    | nil => simp
    | cons ys l ih =>
      have hle : l.length ≤ (l.map fun ys => ys.count a + 1).sum := by simp
      rw [map_cons, sum_cons, length_cons, forall_mem_cons, ← ih,
        ← count_eq_zero]
      omega
  rw [length_splitOn, count_intercalate, ← hsum, map_cons, sum_cons]
  omega

end Join

end List
