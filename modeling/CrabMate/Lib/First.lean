import Mathlib.Algebra.BigOperators.Group.List.Basic
import Mathlib.Data.List.Induction
import Mathlib.Tactic.Abel

/-! The first element of a list with a given key: finding it, taking it out and writing to it.
Keeping the first occurrence of every element. -/
namespace First
open List

variable {α κ : Type*} [DecidableEq κ] {key : α → κ} {id : κ} {l : List α} {a : α}

theorem split (h : (l.find? fun x => key x == id) = some a) (f : α → α) :
    ∃ pre post, l = pre ++ a :: post ∧ key a = id ∧ (∀ x ∈ pre, key x ≠ id) ∧
      (l.eraseP fun x => key x == id) = pre ++ post ∧
      (l.replaceF fun x => if key x = id then some (f x) else none) = pre ++ f a :: post := by
  induction l with
  | nil => simp at h
  | cons x l ih =>
    by_cases hx : key x = id
    · have hxa : x = a := by simpa [hx] using h
      subst hxa
      exact ⟨[], l, rfl, hx, by simp, by simp [hx], by simp [hx]⟩
    · rw [find?_cons_of_neg (by simpa using hx)] at h
      obtain ⟨pre, post, rfl, ha, hpre, herase, hreplace⟩ := ih h
      refine ⟨x :: pre, post, rfl, ha, forall_mem_cons.mpr ⟨hx, hpre⟩, ?_, ?_⟩
      · rw [eraseP_cons_of_neg (by simpa using hx), herase, cons_append]
      · simp [hx, hreplace]

theorem replaceF_of_none (h : (l.find? fun x => key x == id) = none) (f : α → α) :
    (l.replaceF fun x => if key x = id then some (f x) else none) = l := by
  apply replaceF_of_forall_none
  intro x hx
  have hne : key x ≠ id := by simpa using find?_eq_none.mp h x hx
  exact if_neg hne

theorem find?_eraseP_of_ne {id' : κ} (hne : id' ≠ id) :
    ((l.eraseP fun x => key x == id).find? fun x => key x == id') =
      l.find? fun x => key x == id' := by
  induction l with
  | nil => rfl
  | cons x l ih =>
    by_cases hx : key x = id
    · rw [eraseP_cons_of_pos (by simpa using hx),
        find?_cons_of_neg (by simpa [hx] using Ne.symm hne)]
    · rw [eraseP_cons_of_neg (by simpa using hx), find?_cons, find?_cons, ih]

variable {M : Type*} [AddCommMonoid M] (g : α → M)

theorem sum_eraseP {p : α → Bool} (h : l.find? p = some a) :
    (l.map g).sum = g a + ((l.eraseP p).map g).sum := by
  induction l with
  | nil => simp at h
  | cons x l ih =>
    by_cases hx : p x = true
    · have hxa : x = a := by simpa [hx] using h
      rw [eraseP_cons_of_pos hx, map_cons, sum_cons, hxa]
    · rw [find?_cons_of_neg hx] at h
      rw [eraseP_cons_of_neg hx, map_cons, sum_cons, ih h, map_cons,
        sum_cons, add_left_comm]

theorem sum_filter_add_not (p : α → Bool) (l : List α) :
    ((l.filter p).map g).sum + ((l.filter fun x => !p x).map g).sum = (l.map g).sum := by
  induction l with
  | nil => simp
  | cons x l ih =>
    cases hx : p x with
    | true => simp [hx, ← ih, add_assoc]
    | false => simp [hx, ← ih, add_left_comm]

theorem sum_replaceF (h : (l.find? fun x => key x == id) = some a) (f : α → α) :
    ∃ rest, (l.map g).sum = rest + g a ∧
      ((l.replaceF fun x => if key x = id then some (f x) else none).map g).sum =
        rest + g (f a) := by
  obtain ⟨pre, post, rfl, -, -, -, hreplace⟩ := split h f
  refine ⟨(pre.map g).sum + (post.map g).sum, ?_, ?_⟩
  · simp only [map_append, map_cons, sum_append, sum_cons]
    abel
  · rw [hreplace]
    simp only [map_append, map_cons, sum_append, sum_cons]
    abel

section Occurrences

variable {α : Type*} [DecidableEq α]

theorem eraseDups_concat (xs : List α) (x : α) :
    (xs ++ [x]).eraseDups = if x ∈ xs then xs.eraseDups else xs.eraseDups ++ [x] := by
  rw [eraseDups_append]
  by_cases hx : x ∈ xs <;> simp [List.removeAll, eraseDups_cons, hx]

theorem nodup_eraseDups (xs : List α) : xs.eraseDups.Nodup := by
  induction xs using List.reverseRecOn with
  | nil => exact nodup_nil
  | append_singleton xs x ih =>
    rw [eraseDups_concat]
    split
    · exact ih
    · rename_i hx
      simpa [nodup_append] using ⟨ih, fun a ha hax => hx (hax ▸ ha)⟩

theorem filter_eraseDups (p : α → Bool) (xs : List α) :
    xs.eraseDups.filter p = (xs.filter p).eraseDups := by
  induction xs using List.reverseRecOn with
  | nil => rfl
  | append_singleton xs x ih =>
    rw [filter_append, eraseDups_concat, filter_singleton]
    cases hp : p x with
    | false =>
      rw [cond_false, append_nil]
      split
      · exact ih
      · rw [filter_append, ih, filter_singleton, hp, cond_false, append_nil]
    | true =>
      rw [cond_true, eraseDups_concat]
      by_cases hx : x ∈ xs
      · rw [if_pos hx, if_pos (mem_filter.mpr ⟨hx, hp⟩), ih]
      · rw [if_neg hx, if_neg fun h => hx (mem_filter.mp h).1, filter_append, ih,
          filter_singleton, hp, cond_true]

theorem pairwise_idxOf_eraseDups (xs : List α) :
    xs.eraseDups.Pairwise fun a b => xs.idxOf a < xs.idxOf b := by
  induction xs using List.reverseRecOn with
  | nil => exact List.Pairwise.nil
  | append_singleton xs x ih =>
    have hold : ∀ a ∈ xs, (xs ++ [x]).idxOf a = xs.idxOf a := by
      intro a ha
      rw [idxOf_append, if_pos ha]
    have hkept : xs.eraseDups.Pairwise fun a b => (xs ++ [x]).idxOf a < (xs ++ [x]).idxOf b := by
      refine ih.imp_of_mem fun ha hb hlt => ?_
      rwa [hold _ (mem_eraseDups.mp ha), hold _ (mem_eraseDups.mp hb)]
    rw [eraseDups_concat]
    split
    · exact hkept
    · rename_i hx
      refine pairwise_append.mpr ⟨hkept, pairwise_singleton _ _, fun a ha b hb => ?_⟩
      have ha' : a ∈ xs := mem_eraseDups.mp ha
      rw [mem_singleton.mp hb, hold a ha', idxOf_append, if_neg hx]
      have hlt := idxOf_lt_length_of_mem ha'
      omega

end Occurrences

end First
