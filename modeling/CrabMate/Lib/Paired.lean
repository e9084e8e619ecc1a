import Mathlib.Data.List.Sort
import CrabMate.Lib.Table

/-! Two tables whose rows correspond one by one, in the same order and under the same keys: what
lookups, deletions, updates and insertions keep of that. The rows with the oldest stamps do not
depend on the order in which a table hands its rows out, as long as no tie is cut. -/
namespace Table
open List

section Paired

variable {R S K : Type*} {key : R → K} {key' : S → K} {rel : R → S → Prop} {t : Table key}
  {u : Table key'}

def Paired (rel : R → S → Prop) (t : Table key) (u : Table key') : Prop :=
  List.Forall₂ rel t.rows u.rows

theorem paired_empty : Paired rel (empty : Table key) (empty : Table key') := List.Forall₂.nil

theorem forall₂_filter {p : R → Bool} {q : S → Bool} {rows : List R} {rows' : List S}
    (h : List.Forall₂ rel rows rows') (hpq : ∀ r s, rel r s → p r = q s) :
    List.Forall₂ rel (rows.filter p) (rows'.filter q) := by
  induction h with
  | nil => exact List.Forall₂.nil
  | @cons r s rows rows' hrel h ih =>
    rw [filter_cons, filter_cons, hpq r s hrel]
    split
    · exact List.Forall₂.cons hrel ih
    · exact ih

theorem Paired.deleteWhere (h : Paired rel t u) {p : R → Bool} {q : S → Bool}
    (hpq : ∀ r s, rel r s → p r = q s) : Paired rel (t.deleteWhere p) (u.deleteWhere q) :=
  forall₂_filter h fun r s hrel => congrArg not (hpq r s hrel)

theorem Paired.countP (h : Paired rel t u) {p : R → Bool} {q : S → Bool}
    (hpq : ∀ r s, rel r s → p r = q s) : t.rows.countP p = u.rows.countP q := by
  rw [countP_eq_length_filter, countP_eq_length_filter]
  exact (forall₂_filter h hpq).length_eq

theorem Paired.updateWhere (h : Paired rel t u) {p : R → Bool} {q : S → Bool} {f : R → R}
    {g : S → S} (hf : ∀ r, key (f r) = key r) (hg : ∀ s, key' (g s) = key' s)
    (hpq : ∀ r s, r ∈ t.rows → rel r s → p r = q s)
    (hfg : ∀ r s, r ∈ t.rows → p r = true → rel r s → rel (f r) (g s)) :
    Paired rel (t.updateWhere p f hf) (u.updateWhere q g hg) := by
  unfold Paired at h ⊢
  rw [rows_updateWhere, rows_updateWhere]
  generalize t.rows = rows at h hpq hfg ⊢
  generalize u.rows = rows' at h ⊢
  induction h with
  | nil => exact List.Forall₂.nil
  | @cons r s rows rows' hrel h ih =>
    have htail := ih (fun r' s' hr' => hpq r' s' (mem_cons_of_mem r hr'))
      fun r' s' hr' => hfg r' s' (mem_cons_of_mem r hr')
    refine List.Forall₂.cons ?_ htail
    show rel (if p r = true then f r else r) (if q s = true then g s else s)
    rw [← hpq r s mem_cons_self hrel]
    split
    · next hp => exact hfg r s mem_cons_self hp hrel
    · exact hrel

theorem Paired.keys (hkey : ∀ r s, rel r s → key r = key' s) (h : Paired rel t u) :
    t.rows.map key = u.rows.map key' := by
  unfold Paired at h
  generalize t.rows = rows at h ⊢
  generalize u.rows = rows' at h ⊢
  induction h with
  | nil => rfl
  | @cons r s rows rows' hrel h ih => rw [map_cons, map_cons, hkey r s hrel, ih]

variable [DecidableEq K] (hkey : ∀ r s, rel r s → key r = key' s)
include hkey

theorem Paired.lookup (h : Paired rel t u) (k : K) :
    Option.Rel rel (t.lookup k) (u.lookup k) := by
  unfold Paired at h
  unfold Table.lookup
  generalize t.rows = rows at h ⊢
  generalize u.rows = rows' at h ⊢
  induction h with
  | nil => exact Option.Rel.none
  | @cons r s rows rows' hrel h ih =>
    rw [find?_cons, find?_cons, hkey r s hrel]
    cases decide (key' s = k) with
    | true => exact Option.Rel.some hrel
    | false => exact ih

theorem Paired.insert? (h : Paired rel t u) {r : R} {s : S} (hrel : rel r s) :
    Option.Rel (Paired rel) (t.insert? r) (u.insert? s) := by
  have hmem : key r ∈ t.rows.map key ↔ key' s ∈ u.rows.map key' := by
    rw [h.keys hkey, hkey r s hrel]
  unfold Table.insert?
  split
  · rw [dif_pos (hmem.mp ‹_›)]
    exact Option.Rel.none
  · rw [dif_neg (mt hmem.mpr ‹_›)]
    exact Option.Rel.some (rel_append h (List.Forall₂.cons hrel List.Forall₂.nil))

end Paired

section Others

variable {R K : Type*} {key : R → K} [DecidableEq K] {t u : Table key}

theorem filter_ne_updateWhere (t : Table key) (k : K) (f : R → R) (hf : ∀ r, key (f r) = key r) :
    (t.updateWhere (fun r => key r = k) f hf).rows.filter (fun r => key r ≠ k) =
      t.rows.filter fun r => key r ≠ k := by
  rw [rows_updateWhere]
  induction t.rows with
  | nil => rfl
  | cons r rows ih =>
    rw [map_cons, filter_cons, filter_cons, ih]
    by_cases hr : key r = k
    · simp [hr, hf]
    · simp [hr]

theorem filter_ne_insert? {r : R} (h : t.insert? r = some u) :
    u.rows.filter (fun q => key q ≠ key r) = t.rows.filter fun q => key q ≠ key r := by
  rw [(insert?_eq_some_iff.mp h).2, filter_append]
  simp

end Others

section Oldest

variable {R K α : Type*} [LinearOrder α] {stamp : R → α} {p : R → Bool} {key : R → K}
  {t : Table key}

theorem deleteWhere_eq_self (h : t.rows.countP p = 0) : t.deleteWhere p = t := by
  apply Table.ext
  rw [rows_deleteWhere, filter_eq_self]
  intro r hr
  simpa using countP_eq_zero.mp h r hr

/-- In a list sorted by stamps the rows of a downward closed set come first. -/
theorem take_countP_of_sorted (hp : ∀ a b, stamp a ≤ stamp b → p b = true → p a = true)
    {rows : List R} (hrows : rows.Pairwise fun a b => stamp a ≤ stamp b) :
    rows.take (rows.countP p) = rows.filter p := by
  induction hrows with
  | nil => rfl
  | @cons r rows hle hrows ih =>
    cases hr : p r with
    | true => rw [countP_cons_of_pos hr, take_succ_cons, ih, filter_cons_of_pos hr]
    | false =>
      have hnone : ∀ s ∈ rows, ¬ p s = true := by
        intro s hs hps
        rw [hp r s (hle s hs) hps] at hr
        cases hr
      have hneg : ¬ p r = true := by simp [hr]
      rw [countP_cons_of_neg hneg, countP_eq_zero.mpr hnone, filter_cons_of_neg hneg,
        filter_eq_nil_iff.mpr hnone, take_zero]

variable [DecidableEq K]

/-- When the oldest rows are told from the rest by their stamps, the order in which the rows are
handed out does not show. -/
theorem deleteOldest_eq [DecidableRel fun a b : R => stamp a ≤ stamp b] {order : List R}
    (horder : order.Perm t.rows) (hp : ∀ a b, stamp a ≤ stamp b → p b = true → p a = true) {n : ℕ}
    (hn : t.rows.countP p = n) :
    t.deleteWhere (fun r => (((order.insertionSort fun a b => stamp a ≤ stamp b).take n).map
      key).contains (key r)) = t.deleteWhere p := by
  have htotal : Std.Total fun a b : R => stamp a ≤ stamp b := ⟨fun a b => le_total _ _⟩
  have htrans : IsTrans R fun a b => stamp a ≤ stamp b := ⟨fun _ _ _ => le_trans⟩
  have hsorted := (perm_insertionSort (fun a b => stamp a ≤ stamp b) order).trans horder
  have htake := take_countP_of_sorted hp
    (pairwise_insertionSort (fun a b => stamp a ≤ stamp b) order)
  rw [hsorted.countP_eq, hn] at htake
  rw [htake]
  apply Table.ext
  rw [rows_deleteWhere, rows_deleteWhere]
  refine filter_congr fun r hr => congrArg not ?_
  rw [Bool.eq_iff_iff, contains_iff_mem, mem_map]
  constructor
  · rintro ⟨q, hq, hkey⟩
    obtain ⟨hq, hpq⟩ := mem_filter.mp hq
    rwa [← inj_on_of_nodup_map t.nodup (hsorted.mem_iff.mp hq) hr hkey]
  · intro hpr
    exact ⟨r, mem_filter.mpr ⟨hsorted.mem_iff.mpr hr, hpr⟩, rfl⟩

/-- A table that drops its oldest rows when it has too many. -/
theorem dropOldest_eq [DecidableRel fun a b : R => stamp a ≤ stamp b] {order : List R}
    (horder : order.Perm t.rows) (hp : ∀ a b, stamp a ≤ stamp b → p b = true → p a = true) {max : ℕ}
    (hmax : t.rows.countP p = t.rows.length - max) :
    (if t.rows.length ≤ max then t
      else t.deleteWhere fun r =>
        (((order.insertionSort fun a b => stamp a ≤ stamp b).take (t.rows.length - max)).map
          key).contains (key r)) = t.deleteWhere p := by
  split
  · exact (deleteWhere_eq_self (by omega)).symm
  · exact deleteOldest_eq horder hp hmax

end Oldest

end Table
