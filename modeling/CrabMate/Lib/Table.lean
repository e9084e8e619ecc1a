import Mathlib.Data.List.Nodup

/-! Keyed tables: rows in insertion order under a primary key. The key constraint is part of
the table, so an insertion of a taken key is an error and updates must keep the key. -/
structure Table {R K : Type*} (key : R → K) where
  rows : List R
  nodup : (rows.map key).Nodup

namespace Table
open List

variable {R K : Type*} {key : R → K}

@[ext] theorem ext {t u : Table key} (h : t.rows = u.rows) : t = u := by
  cases t
  cases u
  cases h
  rfl

instance [DecidableEq R] : DecidableEq (Table key) := fun t u =>
  decidable_of_iff (t.rows = u.rows) ⟨Table.ext, fun h => h ▸ rfl⟩

def empty : Table key := ⟨[], nodup_nil⟩

@[simp] theorem rows_empty : (empty : Table key).rows = [] := rfl

def deleteWhere (t : Table key) (p : R → Bool) : Table key :=
  ⟨t.rows.filter fun r => !p r, (filter_sublist.map key).nodup t.nodup⟩

@[simp] theorem rows_deleteWhere (t : Table key) (p : R → Bool) :
    (t.deleteWhere p).rows = t.rows.filter fun r => !p r := rfl

theorem map_updateRow (p : R → Bool) (f : R → R) (hf : ∀ r, key (f r) = key r) (rows : List R) :
    (rows.map fun r => if p r then f r else r).map key = rows.map key := by
  rw [map_map]
  apply map_congr_left
  intro r _
  by_cases h : p r = true
  · simp [h, hf]
  · simp [h]

/-- Rewrites the rows satisfying `p`; the rewriting keeps the key. -/
def updateWhere (t : Table key) (p : R → Bool) (f : R → R) (hf : ∀ r, key (f r) = key r) :
    Table key :=
  ⟨t.rows.map fun r => if p r then f r else r, (map_updateRow p f hf t.rows).symm ▸ t.nodup⟩

@[simp] theorem rows_updateWhere (t : Table key) (p : R → Bool) (f : R → R)
    (hf : ∀ r, key (f r) = key r) :
    (t.updateWhere p f hf).rows = t.rows.map fun r => if p r then f r else r := rfl

variable [DecidableEq K]

def lookup (t : Table key) (k : K) : Option R := t.rows.find? fun r => key r = k

def insert? (t : Table key) (r : R) : Option (Table key) :=
  if h : key r ∈ t.rows.map key then none
  else some ⟨t.rows ++ [r], by
    rw [map_append, map_singleton]
    exact nodup_append.mpr ⟨t.nodup, nodup_singleton _, fun a ha b hb => by
      rw [mem_singleton] at hb
      rintro rfl
      exact h (hb ▸ ha)⟩⟩

/-- Inserts a row, in place of the one under its key. -/
def put (t : Table key) (r : R) : Table key :=
  ⟨(t.rows.filter fun q => key q ≠ key r) ++ [r], by
    rw [map_append, map_singleton]
    refine nodup_append.mpr
      ⟨(filter_sublist.map key).nodup t.nodup, nodup_singleton _, fun a ha b hb => ?_⟩
    obtain ⟨q, hq, rfl⟩ := mem_map.mp ha
    rw [mem_singleton] at hb
    rw [hb]
    simpa using (mem_filter.mp hq).2⟩

theorem mem_rows_put {t : Table key} {r q : R} :
    q ∈ (t.put r).rows ↔ q = r ∨ q ∈ t.rows ∧ key q ≠ key r := by
  have hput : (t.put r).rows = (t.rows.filter fun q => key q ≠ key r) ++ [r] := rfl
  rw [hput, mem_append, mem_filter, mem_singleton, or_comm]
  simp

theorem rows_put_of_fresh {t : Table key} {r : R} (h : key r ∉ t.rows.map key) :
    (t.put r).rows = t.rows ++ [r] := by
  have hall : t.rows.filter (fun q => key q ≠ key r) = t.rows := by
    rw [filter_eq_self]
    intro q hq
    have hne : key q ≠ key r := fun heq => h (heq ▸ mem_map_of_mem hq)
    simpa using hne
  show _ ++ [r] = _
  rw [hall]

theorem lookup_eq_some_iff {t : Table key} {k : K} {r : R} :
    t.lookup k = some r ↔ r ∈ t.rows ∧ key r = k := by
  constructor
  · intro h
    exact ⟨mem_of_find?_eq_some h, by simpa using find?_some h⟩
  · rintro ⟨hr, rfl⟩
    cases h : t.lookup (key r) with
    | none =>
      have hn := find?_eq_none.mp h r hr
      simp at hn
    | some q =>
      have hq : key q = key r := by simpa using find?_some h
      rw [inj_on_of_nodup_map t.nodup (mem_of_find?_eq_some h) hr hq]

theorem lookup_eq_none_iff {t : Table key} {k : K} :
    t.lookup k = none ↔ ∀ r ∈ t.rows, key r ≠ k := by
  simp [lookup, find?_eq_none]

theorem lookup_put_self (t : Table key) (r : R) : (t.put r).lookup (key r) = some r := by
  rw [lookup_eq_some_iff]
  exact ⟨mem_append_right _ (mem_singleton_self r), rfl⟩

theorem lookup_put_of_ne (t : Table key) {r : R} {k : K} (hk : key r ≠ k) :
    (t.put r).lookup k = t.lookup k := by
  have hput : (t.put r).rows = (t.rows.filter fun q => key q ≠ key r) ++ [r] := rfl
  rw [lookup, hput, find?_append, find?_filter, find?_singleton,
    if_neg (by simpa using hk), Option.or_none, lookup]
  congr 1
  funext q
  by_cases hq : key q = k
  · simp [hq, Ne.symm hk]
  · simp [hq]

@[simp] theorem lookup_empty (k : K) : (empty : Table key).lookup k = none := rfl

theorem exists_rows_eq {t : Table key} {k : K} {r : R} (h : t.lookup k = some r) :
    ∃ before after, t.rows = before ++ r :: after ∧ (∀ q ∈ before, key q ≠ k) ∧
      ∀ q ∈ after, key q ≠ k := by
  obtain ⟨hr, rfl⟩ := lookup_eq_some_iff.mp h
  obtain ⟨before, after, hrows⟩ := append_of_mem hr
  have hnodup := t.nodup
  rw [hrows, map_append, map_cons, nodup_middle, nodup_cons] at hnodup
  refine ⟨before, after, hrows, fun q hq heq => ?_, fun q hq heq => ?_⟩
  · exact hnodup.1 (heq ▸ mem_append_left _ (mem_map_of_mem hq))
  · exact hnodup.1 (heq ▸ mem_append_right _ (mem_map_of_mem hq))

theorem map_update_split {k : K} {r : R} {before after : List R} (f : R → R)
    (hr : key r = k) (hbefore : ∀ q ∈ before, key q ≠ k) (hafter : ∀ q ∈ after, key q ≠ k) :
    ((before ++ r :: after).map fun q => if decide (key q = k) = true then f q else q) =
      before ++ f r :: after := by
  have hkeep : ∀ rows : List R, (∀ q ∈ rows, key q ≠ k) →
      (rows.map fun q => if decide (key q = k) = true then f q else q) = rows := by
    intro rows hrows
    conv_rhs => rw [← map_id rows]
    refine map_congr_left fun q hq => ?_
    simp [hrows q hq]
  rw [map_append, map_cons, hkeep before hbefore, hkeep after hafter]
  simp [hr]

theorem filter_delete_split {k : K} {r : R} {before after : List R}
    (hr : key r = k) (hbefore : ∀ q ∈ before, key q ≠ k) (hafter : ∀ q ∈ after, key q ≠ k) :
    ((before ++ r :: after).filter fun q => !decide (key q = k)) = before ++ after := by
  have hkeep : ∀ rows : List R, (∀ q ∈ rows, key q ≠ k) →
      (rows.filter fun q => !decide (key q = k)) = rows := by
    intro rows hrows
    rw [filter_eq_self]
    intro q hq
    simp [hrows q hq]
  rw [filter_append, filter_cons, hkeep before hbefore, hkeep after hafter]
  simp [hr]

theorem lookup_deleteWhere (t : Table key) (p : R → Bool) (k : K) :
    (t.deleteWhere p).lookup k = (t.lookup k).filter fun r => !p r := by
  cases h : t.lookup k with
  | none =>
    rw [Option.filter_none, lookup_eq_none_iff]
    intro r hr
    exact lookup_eq_none_iff.mp h r (mem_of_mem_filter hr)
  | some r =>
    obtain ⟨hr, hk⟩ := lookup_eq_some_iff.mp h
    cases hp : p r with
    | false =>
      rw [lookup_eq_some_iff.mpr ⟨mem_filter.mpr ⟨hr, by simp [hp]⟩, hk⟩,
        Option.filter_some, hp]
      rfl
    | true =>
      have hgone : (t.deleteWhere p).lookup k = none := by
        rw [lookup_eq_none_iff]
        intro q hq hqk
        obtain ⟨hq, hpq⟩ := mem_filter.mp hq
        rw [inj_on_of_nodup_map t.nodup hq hr (hqk.trans hk.symm), hp] at hpq
        cases hpq
      rw [hgone, Option.filter_some, hp]
      rfl

theorem lookup_deleteWhere_of_not {t : Table key} {p : R → Bool} {k : K}
    (h : ∀ r, key r = k → p r = false) : (t.deleteWhere p).lookup k = t.lookup k := by
  rw [lookup_deleteWhere]
  cases hr : t.lookup k with
  | none => rfl
  | some r => simp [h r (lookup_eq_some_iff.mp hr).2]

theorem lookup_deleteWhere_of {t : Table key} {p : R → Bool} {k : K}
    (h : ∀ r, key r = k → p r = true) : (t.deleteWhere p).lookup k = none := by
  rw [lookup_deleteWhere]
  cases hr : t.lookup k with
  | none => rfl
  | some r => simp [h r (lookup_eq_some_iff.mp hr).2]

theorem lookup_updateWhere {t : Table key} {p : R → Bool} {f : R → R}
    (hf : ∀ r, key (f r) = key r) {k : K} :
    (t.updateWhere p f hf).lookup k = (t.lookup k).map fun r => if p r then f r else r := by
  rw [lookup, lookup, rows_updateWhere, find?_map]
  congr 2
  funext r
  by_cases h : p r = true <;> simp [h, hf]

theorem lookup_updateWhere_key {t : Table key} {p : R → Bool} {f : R → R}
    (hf : ∀ r, key (f r) = key r) {k : K} {r : R} (hr : t.lookup k = some r) (hp : p r = true) :
    (t.updateWhere p f hf).lookup k = some (f r) := by
  rw [lookup_updateWhere, hr]
  simp [hp]

theorem lookup_updateWhere_of_not {t : Table key} {p : R → Bool} {f : R → R}
    (hf : ∀ r, key (f r) = key r) {k : K} (h : ∀ r, key r = k → p r = false) :
    (t.updateWhere p f hf).lookup k = t.lookup k := by
  rw [lookup_updateWhere]
  cases hr : t.lookup k with
  | none => rfl
  | some r => simp [h r (lookup_eq_some_iff.mp hr).2]

theorem any_key_iff {t : Table key} {k : K} :
    (t.rows.any fun r => key r = k) = true ↔ ∃ r, t.lookup k = some r := by
  simp [lookup_eq_some_iff]

theorem insert?_eq_some_iff {t u : Table key} {r : R} :
    t.insert? r = some u ↔ t.lookup (key r) = none ∧ u.rows = t.rows ++ [r] := by
  have hmem : key r ∉ t.rows.map key ↔ t.lookup (key r) = none := by
    rw [lookup_eq_none_iff]
    simp
  unfold insert?
  split
  · next h => simp [← hmem, h]
  · next h =>
    rw [Option.some.injEq]
    constructor
    · rintro rfl
      exact ⟨hmem.mp h, rfl⟩
    · rintro ⟨-, hu⟩
      exact Table.ext hu.symm

theorem lookup_insert?_self {t u : Table key} {r : R} (h : t.insert? r = some u) :
    u.lookup (key r) = some r := by
  rw [lookup_eq_some_iff, (insert?_eq_some_iff.mp h).2]
  simp

theorem lookup_insert?_ne {t u : Table key} {r : R} (h : t.insert? r = some u) {k : K}
    (hk : key r ≠ k) : u.lookup k = t.lookup k := by
  rw [lookup, lookup, (insert?_eq_some_iff.mp h).2, find?_append]
  simp [hk]

end Table
