import Mathlib.Data.List.Sort

/-! Choosing the elements of a list that score highest: a stable sort, and the prefixes of a
sorted list. -/
namespace TopK
open List

variable {α κ : Type*} [LinearOrder κ] {score : α → κ} {k : ℕ} {l l' picked : List α}

/-- A stable sort, the highest score first. -/
def rank (score : α → κ) (l : List α) : List α := l.insertionSort fun a b => score b ≤ score a

/-- Highest score first. -/
def Descending (score : α → κ) (l : List α) : Prop := l.Pairwise fun a b => score b ≤ score a

/-- `picked` holds `k` elements of `l`, or all of them, the highest first, and none of the others
scores higher. Which of several elements of one score are picked is left open. -/
structure Best (score : α → κ) (k : ℕ) (l picked : List α) : Prop where
  rest : ∃ others, (picked ++ others).Perm l ∧ ∀ a ∈ picked, ∀ b ∈ others, score b ≤ score a
  length : picked.length = min k l.length
  descending : Descending score picked

theorem rank_perm (score : α → κ) (l : List α) : (rank score l).Perm l :=
  perm_insertionSort _ l

@[simp] theorem mem_rank {a : α} : a ∈ rank score l ↔ a ∈ l := (rank_perm score l).mem_iff

theorem rank_descending (score : α → κ) (l : List α) : Descending score (rank score l) := by
  have htotal : Std.Total fun a b : α => score b ≤ score a := ⟨fun a b => le_total _ _⟩
  have htrans : IsTrans α fun a b : α => score b ≤ score a := ⟨fun _ _ _ hab hbc => hbc.trans hab⟩
  exact pairwise_insertionSort _ l

theorem rank_eq_self (h : Descending score l) : rank score l = l := h.insertionSort_eq

theorem Descending.filter (h : Descending score l) (p : α → Bool) :
    Descending score (l.filter p) := List.Pairwise.filter p h

theorem Descending.best_take (h : Descending score l) (k : ℕ) : Best score k l (l.take k) where
  rest := by
    refine ⟨l.drop k, by rw [take_append_drop], ?_⟩
    rw [Descending, ← take_append_drop k l, pairwise_append] at h
    exact h.2.2
  length := length_take
  descending := h.sublist (take_sublist k l)

theorem Best.congr (h : Best score k l picked) (hl : l.Perm l') : Best score k l' picked := by
  obtain ⟨others, hperm, hothers⟩ := h.rest
  exact ⟨⟨others, hperm.trans hl, hothers⟩, hl.length_eq ▸ h.length, h.descending⟩

theorem Best.mem (h : Best score k l picked) {a : α} (ha : a ∈ picked) : a ∈ l := by
  obtain ⟨others, hperm, -⟩ := h.rest
  exact hperm.mem_iff.mp (mem_append_left others ha)

section Ties

variable [DecidableEq α] {old new : List α}

/-- Where every element of `new` scores higher than the others, it is `new` that is picked. -/
theorem Best.perm_new (h : Best score k (old ++ new) picked)
    (hk : new.length = min k (old ++ new).length) (hnodup : (old ++ new).Nodup)
    (hlt : ∀ a ∈ old, ∀ b ∈ new, score a < score b) : picked.Perm new := by
  obtain ⟨others, hperm, hothers⟩ := h.rest
  have hlength : picked.length = new.length := h.length.trans hk.symm
  have hpicked : (picked ++ others).Nodup := hperm.nodup_iff.mpr hnodup
  have hnew : new ⊆ picked := by
    intro b hb
    by_contra hnot
    have hbo : b ∈ others :=
      (mem_append.mp (hperm.mem_iff.mpr (mem_append_right old hb))).resolve_left hnot
    -- one element of `new` is missing, so one of `old` is in its place
    have hold : picked ⊆ new.erase b := by
      intro a ha
      rcases mem_append.mp (h.mem ha) with hao | han
      · exact absurd (hothers a ha b hbo) (not_le.mpr (hlt a hao b hb))
      · refine (mem_erase_of_ne ?_).mpr han
        rintro rfl
        exact hnot ha
    have hle := (subperm_of_subset hpicked.of_append_left hold).length_le
    rw [length_erase_of_mem hb] at hle
    have hpos := length_pos_of_mem hb
    omega
  exact ((subperm_of_subset hnodup.of_append_right hnew).perm_of_length_le hlength.le).symm

/-- Of two elements of one score on both sides of the cut, the wrong one can be picked. -/
theorem exists_best_of_tie (hk : new.length = min k (old ++ new).length)
    (hmono : ∀ a ∈ old, ∀ b ∈ new, score a ≤ score b) {a b : α} (ha : a ∈ old) (hb : b ∈ new)
    (htie : score a = score b) :
    ∃ picked, Best score k (old ++ new) picked ∧ a ∈ picked := by
  have hperm := rank_perm score (a :: new.erase b)
  refine ⟨rank score (a :: new.erase b), ⟨⟨b :: old.erase a, ?_, ?_⟩, ?_, rank_descending _ _⟩,
    mem_rank.mpr mem_cons_self⟩
  · have hswap : (a :: new.erase b ++ b :: old.erase a).Perm
        (a :: old.erase a ++ b :: new.erase b) := by
      refine List.Perm.cons a ?_
      exact perm_append_comm.trans perm_middle.symm
    exact (hperm.append_right _).trans (hswap.trans
      ((perm_cons_erase ha).symm.append (perm_cons_erase hb).symm))
  · intro x hx y hy
    have hx : score a ≤ score x := by
      rcases mem_cons.mp (mem_rank.mp hx) with rfl | hx
      · exact le_refl _
      · exact hmono a ha x (mem_of_mem_erase hx)
    have hy : score y ≤ score a := by
      rcases mem_cons.mp hy with rfl | hy
      · exact htie.ge
      · exact htie ▸ hmono y (mem_of_mem_erase hy) b hb
    exact hy.trans hx
  · rw [hperm.length_eq, length_cons, length_erase_of_mem hb, ← hk]
    have hpos := length_pos_of_mem hb
    omega

end Ties
end TopK
