import Mathlib.Data.List.Basic
import Mathlib.Data.List.Dedup
import Mathlib.Order.Lattice

/-! Ordered maps as lists of entries in ascending order of their keys. The writing operations keep
the order. -/
namespace OrdMap
open List

variable {κ ν : Type} [LinearOrder κ]

def get (k : κ) : List (κ × ν) → Option ν
  | [] => none
  | (l, v) :: rest => if k = l then some v else get k rest

/-- Writes an entry in its place; an entry with the key is replaced. -/
def insert (k : κ) (v : ν) : List (κ × ν) → List (κ × ν)
  | [] => [(k, v)]
  | (l, w) :: rest =>
    if k = l then (k, v) :: rest
    else if k < l then (k, v) :: (l, w) :: rest
    else (l, w) :: insert k v rest

def erase (k : κ) (entries : List (κ × ν)) : List (κ × ν) := entries.filter fun e => e.1 ≠ k

def Ascending (entries : List (κ × ν)) : Prop := (entries.map Prod.fst).Pairwise (· < ·)

section Lookup

variable {k l : κ} {v w : ν} {entries : List (κ × ν)}

theorem get_cons_self : get k ((k, v) :: entries) = some v := if_pos rfl

theorem get_cons_ne (h : l ≠ k) : get l ((k, v) :: entries) = get l entries := if_neg h

@[simp] theorem get_insert_self (k : κ) (v : ν) (entries : List (κ × ν)) :
    get k (insert k v entries) = some v := by
  induction entries with
  | nil => exact get_cons_self
  | cons e rest ih =>
    obtain ⟨l, w⟩ := e
    rw [insert]
    split
    · exact get_cons_self
    · rename_i hne
      split
      · exact get_cons_self
      · rw [get_cons_ne hne, ih]

theorem get_insert_ne (h : l ≠ k) (v : ν) (entries : List (κ × ν)) :
    get l (insert k v entries) = get l entries := by
  induction entries with
  | nil => exact get_cons_ne h
  | cons e rest ih =>
    obtain ⟨m, w⟩ := e
    rw [insert]
    split
    · rename_i heq
      subst heq
      rw [get_cons_ne h, get_cons_ne h]
    · split
      · exact get_cons_ne h
      · rw [get, get, ih]

@[simp] theorem get_erase_self (k : κ) (entries : List (κ × ν)) :
    get k (erase k entries) = none := by
  induction entries with
  | nil => rfl
  | cons e rest ih =>
    obtain ⟨m, w⟩ := e
    by_cases h : m = k
    · rw [erase, filter_cons_of_neg (by simp [h])]
      exact ih
    · rw [erase, filter_cons_of_pos (by simp [h]), get_cons_ne (Ne.symm h)]
      exact ih

theorem get_erase_ne (h : l ≠ k) (entries : List (κ × ν)) :
    get l (erase k entries) = get l entries := by
  induction entries with
  | nil => rfl
  | cons e rest ih =>
    obtain ⟨m, w⟩ := e
    by_cases hm : m = k
    · subst hm
      rw [erase, filter_cons_of_neg (by simp), get_cons_ne h]
      exact ih
    · rw [erase, filter_cons_of_pos (by simp [hm]), get, get]
      split
      · rfl
      · exact ih

theorem mem_of_get (h : get k entries = some v) : (k, v) ∈ entries := by
  induction entries with
  | nil => cases h
  | cons e rest ih =>
    obtain ⟨l, w⟩ := e
    by_cases hl : k = l
    · subst hl
      obtain rfl : w = v := Option.some.inj (get_cons_self.symm.trans h)
      exact mem_cons_self
    · rw [get_cons_ne hl] at h
      exact mem_cons_of_mem _ (ih h)

theorem get_isSome_iff : (get k entries).isSome ↔ k ∈ entries.map Prod.fst := by
  induction entries with
  | nil => simp [get]
  | cons e rest ih =>
    obtain ⟨l, w⟩ := e
    by_cases hl : k = l
    · subst hl
      simp [get]
    · rw [get_cons_ne hl, ih]
      simp [hl]

end Lookup

section Order

variable {k : κ} {v : ν} {entries : List (κ × ν)}

theorem ascending_cons {e : κ × ν} :
    Ascending (e :: entries) ↔ (∀ f ∈ entries, e.1 < f.1) ∧ Ascending entries := by
  simp [Ascending]

theorem mem_insert {e : κ × ν} (h : e ∈ insert k v entries) : e = (k, v) ∨ e ∈ entries := by
  induction entries with
  | nil => exact Or.inl (mem_singleton.mp h)
  | cons f rest ih =>
    obtain ⟨l, w⟩ := f
    rw [insert] at h
    split at h
    · exact (mem_cons.mp h).imp_right (mem_cons_of_mem _)
    · split at h
      · exact mem_cons.mp h
      · obtain h | h := mem_cons.mp h
        · exact Or.inr (h ▸ mem_cons_self)
        · exact (ih h).imp_right (mem_cons_of_mem _)

theorem ascending_insert (h : Ascending entries) (k : κ) (v : ν) :
    Ascending (insert k v entries) := by
  induction entries with
  | nil => exact pairwise_singleton _ _
  | cons e rest ih =>
    obtain ⟨l, w⟩ := e
    obtain ⟨hlt, hrest⟩ := ascending_cons.mp h
    rw [insert]
    split
    · rename_i heq
      subst heq
      exact ascending_cons.mpr ⟨hlt, hrest⟩
    · rename_i hne
      split
      · rename_i hkl
        refine ascending_cons.mpr ⟨fun f hf => ?_, h⟩
        obtain rfl | hf := mem_cons.mp hf
        · exact hkl
        · exact hkl.trans (hlt f hf)
      · rename_i hkl
        refine ascending_cons.mpr ⟨fun f hf => ?_, ih hrest⟩
        obtain rfl | hf := mem_insert hf
        · exact lt_of_le_of_ne (not_lt.mp hkl) (Ne.symm hne)
        · exact hlt f hf

theorem get_of_lt {e : κ × ν} (h : Ascending (e :: entries)) {l : κ} (hl : l ≤ e.1) :
    get l entries = none := by
  rw [← Option.not_isSome_iff_eq_none, get_isSome_iff]
  intro hmem
  obtain ⟨f, hf, rfl⟩ := mem_map.mp hmem
  exact absurd ((ascending_cons.mp h).1 f hf) (not_lt.mpr hl)

theorem get_of_mem {e : κ × ν} (h : Ascending entries) (he : e ∈ entries) :
    get e.1 entries = some e.2 := by
  induction entries with
  | nil => cases he
  | cons f rest ih =>
    obtain ⟨hlt, hrest⟩ := ascending_cons.mp h
    obtain rfl | he := mem_cons.mp he
    · exact get_cons_self
    · exact (get_cons_ne (hlt e he).ne').trans (ih hrest he)

end Order

/-! Entries written one after the other. -/

section InsertAll

variable {k : κ} {v : ν} {entries map : List (κ × ν)}

def insertAll (entries map : List (κ × ν)) : List (κ × ν) :=
  entries.foldl (fun map e => insert e.1 e.2 map) map

theorem get_insertAll_of_notMem (h : k ∉ entries.map Prod.fst) (map : List (κ × ν)) :
    get k (insertAll entries map) = get k map := by
  induction entries generalizing map with
  | nil => rfl
  | cons e entries ih =>
    rw [map_cons, mem_cons, not_or] at h
    exact (ih h.2 _).trans (get_insert_ne h.1 e.2 map)

theorem get_insertAll_of_mem (hnodup : (entries.map Prod.fst).Nodup) (h : (k, v) ∈ entries)
    (map : List (κ × ν)) : get k (insertAll entries map) = some v := by
  induction entries generalizing map with
  | nil => cases h
  | cons e entries ih =>
    obtain ⟨hnew, hnodup⟩ := nodup_cons.mp hnodup
    obtain rfl | h := mem_cons.mp h
    · exact (get_insertAll_of_notMem hnew _).trans (get_insert_self k v map)
    · exact ih hnodup h _

theorem get_insertAll (hasc : Ascending entries) (k : κ) (map : List (κ × ν)) :
    get k (insertAll entries map) = (get k entries).or (get k map) := by
  cases h : get k entries with
  | none =>
    have hnot : k ∉ entries.map Prod.fst := by
      rw [← get_isSome_iff, h]
      simp
    rw [get_insertAll_of_notMem hnot, Option.none_or]
  | some v =>
    have hnodup : (entries.map Prod.fst).Nodup := hasc.imp fun h => h.ne
    rw [get_insertAll_of_mem hnodup (mem_of_get h), Option.some_or]

theorem ascending_insertAll (h : Ascending map) (entries : List (κ × ν)) :
    Ascending (insertAll entries map) := by
  induction entries generalizing map with
  | nil => exact h
  | cons e entries ih => exact ih (ascending_insert h e.1 e.2)

theorem mem_keys_insertAll : k ∈ (insertAll entries map).map Prod.fst ↔
    k ∈ entries.map Prod.fst ∨ k ∈ map.map Prod.fst := by
  induction entries generalizing map with
  | nil => simp [insertAll]
  | cons e entries ih =>
    have hinsert : k ∈ (insert e.1 e.2 map).map Prod.fst ↔ k = e.1 ∨ k ∈ map.map Prod.fst := by
      rw [← get_isSome_iff, ← get_isSome_iff]
      by_cases hk : k = e.1
      · simp [hk]
      · rw [get_insert_ne hk]
        simp [hk]
    change k ∈ (insertAll entries (insert e.1 e.2 map)).map Prod.fst ↔ _
    rw [ih, hinsert, map_cons, mem_cons, or_left_comm, or_assoc]

theorem length_insertAll (entries : List (κ × ν)) :
    (insertAll entries []).length = (entries.map Prod.fst).dedup.length := by
  have hnil : Ascending ([] : List (κ × ν)) := List.Pairwise.nil
  have hasc : Ascending (insertAll entries ([] : List (κ × ν))) := ascending_insertAll hnil entries
  have hnodup : ((insertAll entries []).map Prod.fst).Nodup := hasc.imp fun h => h.ne
  have hperm := (perm_ext_iff_of_nodup hnodup (nodup_dedup (entries.map Prod.fst))).mpr
    fun k => by simp [mem_keys_insertAll]
  rw [← hperm.length_eq, List.length_map]

theorem length_insertAll_iff (entries : List (κ × ν)) :
    (insertAll entries []).length = entries.length ↔ (entries.map Prod.fst).Nodup := by
  rw [length_insertAll]
  constructor
  · intro h
    rw [← List.length_map Prod.fst] at h
    rw [← (dedup_sublist _).eq_of_length h]
    exact nodup_dedup _
  · intro h
    rw [h.dedup, List.length_map]

end InsertAll

end OrdMap
