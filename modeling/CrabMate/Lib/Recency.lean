import Mathlib.Data.List.Basic
import Mathlib.Data.List.Nodup

/-! Least-recently-used caches. What such a cache answers is determined by its history: it holds
the keys that were used most recently, each with the value that was last inserted for it. -/
namespace Recency
open List

variable {K V : Type*} [DecidableEq K]

inductive Op (K V : Type*) where
  | get (k : K)
  | insert (k : K) (v : V)

/-- The keys of a list of uses, each at its latest use; the latest use comes first. -/
def latest : List K → List K
  | [] => []
  | k :: uses => k :: (latest uses).filter fun l => l ≠ k

/-- The uses of a history, both with the latest first. A key that is not held is not used by a
`get`. -/
def uses (cap : ℕ) : List (Op K V) → List K
  | [] => []
  | .insert k _ :: history => k :: uses cap history
  | .get k :: history =>
      if k ∈ (latest (uses cap history)).take cap then k :: uses cap history
      else uses cap history

/-- The keys that a cache with `cap` entries holds. -/
def held (cap : ℕ) (history : List (Op K V)) : List K := (latest (uses cap history)).take cap

def lastInserted? : List (Op K V) → K → Option V
  | [], _ => none
  | .insert l v :: history, k => if l = k then some v else lastInserted? history k
  | .get _ :: history, k => lastInserted? history k

def answer (cap : ℕ) (history : List (Op K V)) (k : K) : Option V :=
  if k ∈ held cap history then lastInserted? history k else none

example : answer 2 [.insert 3 'c', .get 1, .insert 2 'b', .insert 1 'a'] 1 = some 'a' ∧
    answer 2 [.insert 3 'c', .get 1, .insert 2 'b', .insert 1 'a'] 2 = none := by decide

section Latest

variable {cap : ℕ} {k : K} {us : List K}

theorem mem_latest : k ∈ latest us ↔ k ∈ us := by
  induction us with
  | nil => rfl
  | cons l us ih =>
    rw [latest, mem_cons, mem_cons, mem_filter, ih]
    by_cases h : k = l <;> simp [h]

theorem nodup_latest (us : List K) : (latest us).Nodup := by
  induction us with
  | nil => exact nodup_nil
  | cons l us ih =>
    rw [latest, nodup_cons]
    exact ⟨by simp, filter_sublist.nodup ih⟩

theorem nodup_held (cap : ℕ) (history : List (Op K V)) : (held cap history).Nodup :=
  (take_sublist _ _).nodup (nodup_latest _)

theorem length_held_le (cap : ℕ) (history : List (Op K V)) : (held cap history).length ≤ cap :=
  length_take_le _ _

theorem take_filter_of_mem {l : List K} (hnodup : l.Nodup) {n : ℕ} (h : k ∈ l.take (n + 1)) :
    (l.filter fun x => x ≠ k).take n = (l.take (n + 1)).erase k := by
  induction l generalizing n with
  | nil => cases h
  | cons x l ih =>
    rw [nodup_cons] at hnodup
    rw [take_succ_cons] at h ⊢
    by_cases hx : x = k
    · subst hx
      have hself : l.filter (fun y => y ≠ x) = l := by
        rw [filter_eq_self]
        intro y hy
        have hne : y ≠ x := fun heq => hnodup.1 (heq ▸ hy)
        simpa using hne
      rw [filter_cons_of_neg (by simp), hself, erase_cons_head]
    · have hmem : k ∈ l.take n := (mem_cons.mp h).resolve_left (Ne.symm hx)
      cases n with
      | zero => cases hmem
      | succ n =>
        rw [filter_cons_of_pos (by simpa using hx), take_succ_cons, ih hnodup.2 hmem,
          erase_cons_tail (by simpa using hx)]

theorem take_filter_of_notMem {l : List K} {n : ℕ} (h : k ∉ l.take (n + 1)) :
    (l.filter fun x => x ≠ k).take n = l.take n := by
  induction l generalizing n with
  | nil => rfl
  | cons x l ih =>
    rw [take_succ_cons, mem_cons, not_or] at h
    rw [filter_cons_of_pos (by simpa using Ne.symm h.1)]
    cases n with
    | zero => rfl
    | succ n => rw [take_succ_cons, take_succ_cons, ih h.2]

end Latest

section Held

variable {cap : ℕ} {k : K} {v : V} {history : List (Op K V)}

/-- A use of a held key moves it to the front. -/
theorem take_latest_of_mem {us : List K} (h : k ∈ (latest us).take (cap + 1)) :
    (latest (k :: us)).take (cap + 1) = k :: ((latest us).take (cap + 1)).erase k := by
  rw [latest, take_succ_cons, take_filter_of_mem (nodup_latest us) h]

theorem held_get (h : k ∈ held (cap + 1) history) :
    held (cap + 1) (.get k :: history) = k :: (held (cap + 1) history).erase k := by
  rw [held, uses, if_pos (show k ∈ (latest (uses (cap + 1) history)).take (cap + 1) from h)]
  exact take_latest_of_mem h

theorem held_get_miss (h : k ∉ held cap history) :
    held cap (.get k :: history) = held cap history := by
  rw [held, uses, if_neg (show k ∉ (latest (uses cap history)).take cap from h)]
  rfl

theorem held_insert_of_mem (h : k ∈ held (cap + 1) history) :
    held (cap + 1) (.insert k v :: history) = k :: (held (cap + 1) history).erase k :=
  take_latest_of_mem h

/-- Another key is put in front, and the last key gives way when the cache is full. -/
theorem held_insert_of_notMem (h : k ∉ held (cap + 1) history) :
    held (cap + 1) (.insert k v :: history) = k :: (held (cap + 1) history).take cap := by
  rw [held, uses, latest, take_succ_cons, take_filter_of_notMem h, held, take_take,
    Nat.min_eq_left (Nat.le_succ cap)]

theorem mem_held_get {l : K} :
    l ∈ held (cap + 1) (.get k :: history) ↔ l ∈ held (cap + 1) history := by
  by_cases h : k ∈ held (cap + 1) history
  · rw [held_get h, mem_cons]
    by_cases hl : l = k
    · rw [hl]
      exact iff_of_true (Or.inl rfl) h
    · rw [mem_erase_of_ne hl]
      exact or_iff_right hl
  · rw [held_get_miss h]

theorem answer_get (l : K) :
    answer (cap + 1) (.get k :: history) l = answer (cap + 1) history l := by
  simp only [answer, mem_held_get, lastInserted?]

theorem answer_insert_self : answer (cap + 1) (.insert k v :: history) k = some v := by
  rw [answer, if_pos, lastInserted?, if_pos rfl]
  rw [held, uses, latest, take_succ_cons]
  exact mem_cons_self

theorem answer_insert_of_mem (h : k ∈ held (cap + 1) history) {l : K} (hl : l ≠ k) :
    answer (cap + 1) (.insert k v :: history) l = answer (cap + 1) history l := by
  have hmem : l ∈ held (cap + 1) (.insert k v :: history) ↔ l ∈ held (cap + 1) history := by
    rw [held_insert_of_mem h, mem_cons, mem_erase_of_ne hl]
    exact or_iff_right hl
  exact if_congr hmem (if_neg (Ne.symm hl)) rfl

theorem answer_insert_of_notMem (h : k ∉ held (cap + 1) history) {l : K} (hl : l ≠ k) :
    answer (cap + 1) (.insert k v :: history) l =
      if l ∈ (held (cap + 1) history).take cap then answer (cap + 1) history l else none := by
  have hmem : l ∈ held (cap + 1) (.insert k v :: history) ↔
      l ∈ (held (cap + 1) history).take cap := by
    rw [held_insert_of_notMem h, mem_cons]
    exact or_iff_right hl
  by_cases htake : l ∈ (held (cap + 1) history).take cap
  · rw [if_pos htake, answer, if_pos (hmem.mpr htake), answer, if_pos (mem_of_mem_take htake)]
    exact if_neg (Ne.symm hl)
  · rw [if_neg htake, answer, if_neg (fun hl' => htake (hmem.mp hl'))]

theorem inserted_of_mem_uses (h : k ∈ uses cap history) :
    (lastInserted? history k).isSome = true := by
  induction history with
  | nil => cases h
  | cons op history ih =>
    cases op with
    | insert l v =>
      rw [lastInserted?]
      by_cases hl : l = k
      · rw [if_pos hl]
        rfl
      · rw [if_neg hl]
        exact ih ((mem_cons.mp h).resolve_left (Ne.symm hl))
    | get l =>
      rw [uses] at h
      rw [lastInserted?]
      split at h
      · rename_i hheld
        obtain rfl | h := mem_cons.mp h
        · exact ih (mem_latest.mp (mem_of_mem_take hheld))
        · exact ih h
      · exact ih h

theorem inserted_of_mem_held (h : k ∈ held cap history) :
    (lastInserted? history k).isSome = true :=
  inserted_of_mem_uses (mem_latest.mp (mem_of_mem_take h))

end Held

end Recency
