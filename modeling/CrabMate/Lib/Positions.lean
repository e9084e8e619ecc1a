import Mathlib.Data.List.Basic
import Mathlib.Data.List.Count

/-! Positions of the elements of a list that satisfy a Boolean predicate, and the splits of
the list that they name. -/
namespace Positions
open List

variable {α : Type*}

/-- Ascending positions of the elements satisfying `p`. -/
def indices (p : α → Bool) (l : List α) : List ℕ :=
  (l.zipIdx.filter fun e => p e.1).map Prod.snd

/-- The position of the `n`-th element satisfying `p`, counted from zero. -/
def nthIndex (p : α → Bool) (l : List α) (n : ℕ) : Option ℕ := (indices p l)[n]?

/-- The position of the last element satisfying `p`. -/
def rposition (p : α → Bool) (l : List α) : Option ℕ := (indices p l).getLast?

theorem indices_append (p : α → Bool) (l₁ l₂ : List α) :
    indices p (l₁ ++ l₂) = indices p l₁ ++ (indices p l₂).map (· + l₁.length) := by
  simp only [indices, zipIdx_append, Nat.zero_add, filter_append, map_append]
  congr 1
  rw [zipIdx_eq_map_add, filter_map, map_map, map_map]
  simp [Function.comp_def, Nat.add_comm]

@[simp] theorem indices_nil (p : α → Bool) : indices p ([] : List α) = [] := rfl

theorem indices_cons (p : α → Bool) (x : α) (l : List α) :
    indices p (x :: l) = (if p x then [0] else []) ++ (indices p l).map (· + 1) := by
  have h := indices_append p [x] l
  simp only [singleton_append, length_singleton] at h
  rw [h]
  cases hx : p x <;> simp [indices, zipIdx_cons, hx]

theorem mem_indices {p : α → Bool} {l : List α} {i : ℕ} :
    i ∈ indices p l ↔ ∃ x, l[i]? = some x ∧ p x = true := by
  simp only [indices, mem_map, mem_filter, Prod.exists]
  constructor
  · rintro ⟨x, j, ⟨hm, hp⟩, rfl⟩
    exact ⟨x, mem_zipIdx_iff_getElem?.mp hm, hp⟩
  · rintro ⟨x, hx, hp⟩
    exact ⟨x, i, ⟨mem_zipIdx_iff_getElem?.mpr hx, hp⟩, rfl⟩

theorem length_indices (p : α → Bool) (l : List α) : (indices p l).length = l.countP p := by
  induction l with
  | nil => rfl
  | cons x l ih =>
    rw [indices_cons, countP_cons, length_append, List.length_map, ih]
    cases p x <;> simp [Nat.add_comm]

theorem indices_eq_nil_iff {p : α → Bool} {l : List α} :
    indices p l = [] ↔ ∀ x ∈ l, p x = false := by
  rw [← length_eq_zero_iff, length_indices, countP_eq_zero]
  simp

/-- The `n`-th position splits the list in front of an element satisfying `p` that has
exactly `n` such elements before it. -/
theorem nthIndex_eq_some {p : α → Bool} {l : List α} {n i : ℕ} (h : nthIndex p l n = some i) :
    ∃ pre x post, l = pre ++ x :: post ∧ pre.length = i ∧ p x = true ∧ pre.countP p = n := by
  induction l generalizing n i with
  | nil => simp [nthIndex] at h
  | cons y l ih =>
    rw [nthIndex, indices_cons] at h
    cases hy : p y with
    | false =>
      simp only [hy, Bool.false_eq_true, ↓reduceIte, nil_append, getElem?_map,
        Option.map_eq_some_iff] at h
      obtain ⟨j, hj, rfl⟩ := h
      obtain ⟨pre, x, post, rfl, rfl, hx, hc⟩ := ih hj
      exact ⟨y :: pre, x, post, rfl, rfl, hx, by simp [hy, hc]⟩
    | true =>
      cases n with
      | zero =>
        have hi : i = 0 := by simpa [hy] using h.symm
        exact ⟨[], y, l, rfl, hi.symm, hy, rfl⟩
      | succ n =>
        simp only [hy, ↓reduceIte, singleton_append, getElem?_cons_succ,
          getElem?_map, Option.map_eq_some_iff] at h
        obtain ⟨j, hj, rfl⟩ := h
        obtain ⟨pre, x, post, rfl, rfl, hx, hc⟩ := ih hj
        exact ⟨y :: pre, x, post, rfl, rfl, hx, by simp [hy, hc]⟩

theorem nthIndex_eq_none_iff {p : α → Bool} {l : List α} {n : ℕ} :
    nthIndex p l n = none ↔ l.countP p ≤ n := by
  rw [nthIndex, List.getElem?_eq_none_iff, length_indices]

theorem nthIndex_le {p : α → Bool} {l : List α} {n i : ℕ} (h : nthIndex p l n = some i) :
    i < l.length := by
  obtain ⟨pre, x, post, rfl, rfl, -, -⟩ := nthIndex_eq_some h
  simp

theorem rposition_eq_some {p : α → Bool} {l : List α} {i : ℕ} (h : rposition p l = some i) :
    ∃ pre x post, l = pre ++ x :: post ∧ pre.length = i ∧ p x = true ∧
      ∀ y ∈ post, p y = false := by
  induction l generalizing i with
  | nil => simp [rposition] at h
  | cons y l ih =>
    rw [rposition, indices_cons] at h
    by_cases hl : indices p l = []
    · have hn := indices_eq_nil_iff.mp hl
      cases hy : p y with
      | false => simp [hy, hl] at h
      | true =>
        have hi : i = 0 := by simpa [hy, hl] using h.symm
        exact ⟨[], y, l, rfl, hi.symm, hy, hn⟩
    · have hm : (indices p l).map (· + 1) ≠ [] := by simpa using hl
      rw [getLast?_append_of_ne_nil _ hm, getLast?_map, Option.map_eq_some_iff] at h
      obtain ⟨j, hj, rfl⟩ := h
      obtain ⟨pre, x, post, rfl, rfl, hx, hp⟩ := ih hj
      exact ⟨y :: pre, x, post, rfl, rfl, hx, hp⟩

theorem indices_append_cons {p : α → Bool} {pre post : List α} {x : α} (hx : p x = true)
    (hp : ∀ y ∈ post, p y = false) :
    indices p (pre ++ x :: post) = indices p pre ++ [pre.length] := by
  rw [indices_append, indices_cons, indices_eq_nil_iff.mpr hp]
  simp [hx]

theorem lt_of_mem_indices {p : α → Bool} {l : List α} {i : ℕ} (h : i ∈ indices p l) :
    i < l.length := by
  obtain ⟨x, hx, -⟩ := mem_indices.mp h
  exact (List.getElem?_eq_some_iff.mp hx).1

theorem map_fst_filter_zipIdx (p : α → Bool) (l : List α) :
    (l.zipIdx.filter fun e => p e.1).map Prod.fst = l.filter p := by
  have h := filter_map (p := p) (f := Prod.fst) (l := l.zipIdx)
  rw [zipIdx_map_fst] at h
  exact h.symm

theorem filterMap_getElem?_indices (p : α → Bool) (l r : List α) :
    (indices p l).filterMap ((l ++ r)[·]?) = l.filter p := by
  have hget : ∀ e ∈ l.zipIdx.filter (fun e => p e.1), (l ++ r)[e.2]? = some e.1 := by
    intro e he
    have hm := mem_zipIdx_iff_getElem?.mp (mem_filter.mp he).1
    rw [getElem?_append_left (List.getElem?_eq_some_iff.mp hm).1, hm]
  rw [indices, filterMap_map]
  calc (l.zipIdx.filter fun e => p e.1).filterMap (fun e => (l ++ r)[e.2]?)
      = (l.zipIdx.filter fun e => p e.1).filterMap (fun e => some e.1) :=
        filterMap_congr hget
    _ = l.filter p := by
        rw [filterMap_eq_map', map_fst_filter_zipIdx]

/-- Dropping a list's positions filters it by the negated predicate. -/
theorem retain_not_indices (p : α → Bool) (l : List α) :
    (l.zipIdx.filter fun e => !(indices p l).contains e.2).map Prod.fst
      = l.filter fun x => !p x := by
  have hmem : ∀ e ∈ l.zipIdx, (!(indices p l).contains e.2) = !p e.1 := by
    intro e he
    have hm := mem_zipIdx_iff_getElem?.mp he
    rw [Bool.not_inj_iff, Bool.eq_iff_iff, contains_iff_mem, mem_indices]
    simp [hm]
  rw [filter_congr hmem, map_fst_filter_zipIdx (fun x => !p x)]

theorem rposition_eq_none_iff {p : α → Bool} {l : List α} :
    rposition p l = none ↔ ∀ x ∈ l, p x = false := by
  rw [rposition, getLast?_eq_none_iff, indices_eq_nil_iff]

theorem rposition_append_cons {p : α → Bool} {pre post : List α} {x : α} (hx : p x = true)
    (hp : ∀ y ∈ post, p y = false) : rposition p (pre ++ x :: post) = some pre.length := by
  rw [rposition, indices_append_cons hx hp, getLast?_concat]

end Positions
