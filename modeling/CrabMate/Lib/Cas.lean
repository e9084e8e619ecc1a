import CrabMate.Lib.Run
import Mathlib.Data.List.Induction

/-! Optimistic updates of keyed records. Clients read a record's revision and write back on
that revision; settings beside the record are merged without a revision check; a record may be
dropped at any time. The log of these events determines revisions and settings, and a legal log
loses no update while the record is not dropped. -/
namespace Cas
open List Function

variable {C K F V : Type*}

/-- `saved` carries the revision the client wrote on and the settings it asked to change. -/
inductive Event (C K F V : Type*) where
  | loaded (client : C) (key : K) (revision : Option ℕ)
  | saved (client : C) (key : K) (base : Option ℕ) (change : F → Option V)
  | settings (key : K) (change : F → Option V)
  | dropped (key : K)

structure State (C K F V : Type*) where
  revision : K → Option ℕ
  setting : K → F → Option V
  seen : C → K → Option (Option ℕ)

def init : State C K F V := ⟨fun _ => none, fun _ _ => none, fun _ _ => none⟩

/-- The revision written on top of `base`. -/
def next (base : Option ℕ) : ℕ := base.getD 0 + 1

/-- Unset fields of the change keep their value. -/
def merge (old change : F → Option V) : F → Option V := fun f => (change f).or (old f)

theorem merge_unset (change : F → Option V) : merge (fun _ => none) change = change :=
  funext fun _ => Option.or_none

variable [DecidableEq C] [DecidableEq K]

def apply (s : State C K F V) : Event C K F V → State C K F V
  | .loaded c k r =>
    { s with seen := fun c' k' => if c' = c ∧ k' = k then some r else s.seen c' k' }
  | .saved _ k base change =>
    { s with
      revision := Function.update s.revision k (some (next base))
      setting := Function.update s.setting k (merge (s.setting k) change) }
  | .settings k change =>
    { s with setting := Function.update s.setting k (merge (s.setting k) change) }
  | .dropped k =>
    { s with
      revision := Function.update s.revision k none
      setting := Function.update s.setting k fun _ => none }

/-- A load reports the current revision; a save is accepted on the revision the client has
seen, when it is still the current one. -/
def Legal (s : State C K F V) : Event C K F V → Prop
  | .loaded _ k r => s.revision k = r
  | .saved c k base _ => s.seen c k = some base ∧ s.revision k = base
  | .settings k _ => s.revision k ≠ none
  | .dropped _ => True

section Log

/-! The log is read from its newest event. -/

/-- The revision written by the last save of `k`, unless the record was dropped since. -/
def lastWritten (k : K) : List (Event C K F V) → Option ℕ
  | [] => none
  | .saved _ k' base _ :: es => if k' = k then some (next base) else lastWritten k es
  | .dropped k' :: es => if k' = k then none else lastWritten k es
  | .loaded _ _ _ :: es => lastWritten k es
  | .settings _ _ :: es => lastWritten k es

/-- The last value given to a setting of `k`, unless the record was dropped since. -/
def lastSetting (k : K) (f : F) : List (Event C K F V) → Option V
  | [] => none
  | .saved _ k' _ change :: es =>
    if k' = k then (change f).or (lastSetting k f es) else lastSetting k f es
  | .settings k' change :: es =>
    if k' = k then (change f).or (lastSetting k f es) else lastSetting k f es
  | .dropped k' :: es => if k' = k then none else lastSetting k f es
  | .loaded _ _ _ :: es => lastSetting k f es

def isLoad (c : C) (k : K) : Event C K F V → Bool
  | .loaded c' k' _ => c' = c ∧ k' = k
  | _ => false

def isSave (k : K) : Event C K F V → Bool
  | .saved _ k' _ _ => k' = k
  | _ => false

/-- The events since the client last loaded `k`. -/
def sinceLoad (c : C) (k : K) (es : List (Event C K F V)) : List (Event C K F V) :=
  es.takeWhile fun e => !isLoad c k e

theorem sinceLoad_cons_of_load {c : C} {k : K} {e : Event C K F V} (h : isLoad c k e = true)
    (es : List (Event C K F V)) : sinceLoad c k (e :: es) = [] := by
  simp [sinceLoad, h]

theorem sinceLoad_cons {c : C} {k : K} {e : Event C K F V} (h : isLoad c k e = false)
    (es : List (Event C K F V)) : sinceLoad c k (e :: es) = e :: sinceLoad c k es := by
  simp [sinceLoad, h]

end Log

theorem run_dropped (s : State C K F V) (ks : List K) :
    Run.run apply s (ks.map .dropped) =
      ⟨fun k => if k ∈ ks then none else s.revision k,
        fun k f => if k ∈ ks then none else s.setting k f, s.seen⟩ := by
  induction ks generalizing s with
  | nil => simp
  | cons k ks ih =>
    rw [map_cons, Run.run_cons, ih]
    simp only [apply, State.mk.injEq, and_true]
    refine ⟨funext fun k' => ?_, funext fun k' => funext fun f => ?_⟩
    · by_cases hk : k' = k
      · simp [hk]
      · simp [hk]
    · by_cases hk : k' = k
      · simp [hk]
      · simp [hk]

theorem allOk_dropped (s : State C K F V) (ks : List K) :
    Run.AllOk apply Legal s (ks.map .dropped) := by
  induction ks generalizing s with
  | nil => trivial
  | cons k ks ih => exact ⟨trivial, ih _⟩

variable {events : List (Event C K F V)}

theorem revision_run (events : List (Event C K F V)) (k : K) :
    (Run.run apply init events).revision k = lastWritten k events.reverse := by
  induction events using List.reverseRecOn with
  | nil => rfl
  | append_singleton events e ih =>
    rw [Run.run_append, reverse_concat]
    cases e with
    | loaded c k' r => exact ih
    | saved c k' base change =>
      by_cases h : k' = k
      · simp [apply, lastWritten, h]
      · simp [apply, lastWritten, h, update_of_ne (Ne.symm h), ih]
    | settings k' change => exact ih
    | dropped k' =>
      by_cases h : k' = k
      · simp [apply, lastWritten, h]
      · simp [apply, lastWritten, h, update_of_ne (Ne.symm h), ih]

theorem setting_run (events : List (Event C K F V)) (k : K) (f : F) :
    (Run.run apply init events).setting k f = lastSetting k f events.reverse := by
  induction events using List.reverseRecOn with
  | nil => rfl
  | append_singleton events e ih =>
    rw [Run.run_append, reverse_concat]
    cases e with
    | loaded c k' r => exact ih
    | saved c k' base change =>
      by_cases h : k' = k
      · simp [apply, lastSetting, merge, h, ih]
      · simp [apply, lastSetting, h, update_of_ne (Ne.symm h), ih]
    | settings k' change =>
      by_cases h : k' = k
      · simp [apply, lastSetting, merge, h, ih]
      · simp [apply, lastSetting, h, update_of_ne (Ne.symm h), ih]
    | dropped k' =>
      by_cases h : k' = k
      · simp [apply, lastSetting, h]
      · simp [apply, lastSetting, h, update_of_ne (Ne.symm h), ih]

/-- Unless the record was dropped, its revision is the one a client has seen plus the saves
since. -/
theorem seen_run (h : Run.AllOk apply Legal init events) (c : C) (k : K) {r : Option ℕ}
    (hseen : (Run.run apply init events).seen c k = some r) :
    .dropped k ∈ sinceLoad c k events.reverse ∨
      ((Run.run apply init events).revision k).getD 0 =
        r.getD 0 + (sinceLoad c k events.reverse).countP (isSave k) := by
  induction events using List.reverseRecOn generalizing r with
  | nil => cases hseen
  | append_singleton events e ih =>
    rw [Run.allOk_append] at h
    obtain ⟨hold, hlegal, -⟩ := h
    rw [Run.run_append] at hseen ⊢
    rw [reverse_concat]
    cases e with
    | loaded c' k' r' =>
      by_cases hck : c' = c ∧ k' = k
      · obtain ⟨rfl, rfl⟩ := hck
        have hr : r' = r := by simpa [apply] using hseen
        have hrev : (Run.run apply init events).revision k' = r' := hlegal
        right
        rw [sinceLoad_cons_of_load (by simp [isLoad])]
        simp [apply, hrev, hr]
      · have hseen' : (Run.run apply init events).seen c k = some r := by
          have hne : ¬(c = c' ∧ k = k') := fun hx => hck ⟨hx.1.symm, hx.2.symm⟩
          simpa [apply, hne] using hseen
        rw [sinceLoad_cons (by simpa [isLoad] using hck)]
        rcases ih hold hseen' with hd | hn
        · exact .inl (mem_cons_of_mem _ hd)
        · exact .inr (by simpa [apply, isSave] using hn)
    | saved c' k' base change =>
      rw [sinceLoad_cons rfl]
      rcases ih hold hseen with hd | hn
      · exact .inl (mem_cons_of_mem _ hd)
      · right
        by_cases hk : k' = k
        · subst hk
          have hrev : (Run.run apply init events).revision k' = base := hlegal.2
          rw [hrev] at hn
          simp only [Run.run_cons, Run.run_nil, apply, update_self, Option.getD_some, next,
            hn, countP_cons, isSave, decide_true, if_true]
          omega
        · simpa [apply, isSave, hk, update_of_ne (Ne.symm hk)] using hn
    | settings k' change =>
      rw [sinceLoad_cons rfl]
      rcases ih hold hseen with hd | hn
      · exact .inl (mem_cons_of_mem _ hd)
      · exact .inr (by simpa [apply, isSave] using hn)
    | dropped k' =>
      rw [sinceLoad_cons rfl]
      by_cases hk : k' = k
      · exact .inl (by simp [hk])
      · rcases ih hold hseen with hd | hn
        · exact .inl (mem_cons_of_mem _ hd)
        · exact .inr (by simpa [apply, isSave, update_of_ne (Ne.symm hk)] using hn)

/-- Every accepted save is based on the revision written by the save before it, and no other
save came between the client's load and its save unless the record was dropped. -/
theorem saved_based {before after : List (Event C K F V)} {c : C} {k : K} {base : Option ℕ}
    {change : F → Option V}
    (h : Run.AllOk apply Legal init (before ++ .saved c k base change :: after)) :
    base = lastWritten k before.reverse ∧
      (.dropped k ∈ sinceLoad c k before.reverse ∨
        ∀ e ∈ sinceLoad c k before.reverse, isSave k e = false) := by
  rw [Run.allOk_append] at h
  obtain ⟨hbefore, ⟨hseen, hrev⟩, -⟩ := h
  refine ⟨hrev.symm.trans (revision_run before k), ?_⟩
  rcases seen_run hbefore c k hseen with hd | hn
  · exact .inl hd
  · right
    rw [hrev] at hn
    have hzero : (sinceLoad c k before.reverse).countP (isSave k) = 0 := by omega
    exact fun e he => by simpa using countP_eq_zero.mp hzero e he

end Cas
