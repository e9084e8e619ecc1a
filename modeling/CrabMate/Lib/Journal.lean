import Mathlib.Data.List.Basic

/-! A journal of writes to places that are known by names: for each name the value reported before
its first write and the one after its last. When it tells the truth about the places. -/
namespace Journal
open Function

variable {K N V W : Type*} [DecidableEq K] [DecidableEq N]

/-- One write: the name and the values it reports, the place it changes and what it leaves there. -/
structure Write (K N V W : Type*) where
  name : N
  before : W
  after : W
  place : K
  left : V

/-- The values of the places, and what has been written down for the names. -/
@[ext] structure State (K N V W : Type*) where
  value : K → V
  log : N → Option (W × W)

def State.write (s : State K N V W) (w : Write K N V W) : State K N V W where
  value := Function.update s.value w.place w.left
  log := Function.update s.log w.name (some (((s.log w.name).map Prod.fst).getD w.before, w.after))

variable (placeOf : N → Option K) (val : W → V)

/-- The journal gives, for the place of each name, the value at the start and the present one, no
place goes by two names, and a place without a name has its value from the start. -/
structure Truthful (start : K → V) (s : State K N V W) : Prop where
  logged : ∀ n e, s.log n = some e →
    ∃ k, placeOf n = some k ∧ start k = val e.1 ∧ s.value k = val e.2
  named : ∀ n n', s.log n ≠ none → s.log n' ≠ none → placeOf n = placeOf n' → n = n'
  rest : ∀ k, (∀ n, s.log n ≠ none → placeOf n ≠ some k) → s.value k = start k

/-- A write that reports its place by the one name and with the right values. -/
structure Fits (s : State K N V W) (w : Write K N V W) : Prop where
  place : placeOf w.name = some w.place
  named : ∀ n, s.log n ≠ none → placeOf n = some w.place → n = w.name
  before : s.log w.name = none → s.value w.place = val w.before
  after : w.left = val w.after

variable {placeOf val} {start : K → V} {s : State K N V W} {w : Write K N V W}

theorem log_write_ne_none {n : N} :
    (s.write w).log n ≠ none ↔ n = w.name ∨ s.log n ≠ none := by
  by_cases hn : n = w.name
  · subst hn
    simp [State.write]
  · simp [State.write, hn]

omit [DecidableEq K] [DecidableEq N] in
theorem truthful_start (log : N → Option (W × W)) (hlog : ∀ n, log n = none) :
    Truthful placeOf val start ⟨start, log⟩ where
  logged n e h := absurd ((hlog n).symm.trans h) (Option.some_ne_none e).symm
  named n _ h := absurd (hlog n) h
  rest _ _ := rfl

theorem Truthful.write (h : Truthful placeOf val start s) (hw : Fits placeOf val s w) :
    Truthful placeOf val start (s.write w) where
  logged n e he := by
    by_cases hn : n = w.name
    · subst hn
      refine ⟨w.place, hw.place, ?_, ?_⟩
      · cases hlog : s.log w.name with
        | none =>
          have hrest : s.value w.place = start w.place := by
            refine h.rest _ fun n hlogged hplace => hlogged ?_
            rw [hw.named n hlogged hplace, hlog]
          have he' : e = (w.before, w.after) := by simpa [State.write, hlog] using he.symm
          rw [he', ← hrest, hw.before hlog]
        | some old =>
          obtain ⟨k, hk, hstart, -⟩ := h.logged _ _ hlog
          have he' : e = (old.1, w.after) := by simpa [State.write, hlog] using he.symm
          rw [he', ← hstart, Option.some.inj (hk.symm.trans hw.place)]
      · have he' : w.after = e.2 := by
          have hpair := (update_self ..).symm.trans he
          exact congrArg Prod.snd (Option.some.inj hpair)
        rw [← he', ← hw.after]
        exact update_self ..
    · have hlog : s.log n = some e := by simpa [State.write, hn] using he
      obtain ⟨k, hk, hstart, hnow⟩ := h.logged n e hlog
      refine ⟨k, hk, hstart, ?_⟩
      have hne : k ≠ w.place := by
        rintro rfl
        exact hn (hw.named n (by rw [hlog]; exact Option.some_ne_none e) hk)
      rw [← hnow]
      exact update_of_ne hne ..
  named n n' hn hn' hplace := by
    rcases log_write_ne_none.mp hn with rfl | hn <;>
      rcases log_write_ne_none.mp hn' with rfl | hn'
    · rfl
    · exact (hw.named n' hn' (hplace.symm.trans hw.place)).symm
    · exact hw.named n hn (hplace.trans hw.place)
    · exact h.named n n' hn hn' hplace
  rest k hk := by
    have hne : k ≠ w.place := by
      rintro rfl
      exact hk w.name (log_write_ne_none.mpr (.inl rfl)) hw.place
    have hrest := h.rest k fun n hn => hk n (log_write_ne_none.mpr (.inr hn))
    rw [← hrest]
    exact update_of_ne hne ..

theorem value_write_of_ne {k : K} (hk : k ≠ w.place) : (s.write w).value k = s.value k :=
  update_of_ne hk ..

variable (placeOf val s) in
/-- A write that will fit after others, which log the names `seen`. -/
structure FitsAfter (seen : List N) (w : Write K N V W) : Prop where
  place : placeOf w.name = some w.place
  named : ∀ n, s.log n ≠ none ∨ n ∈ seen → placeOf n = some w.place → n = w.name
  before : s.log w.name = none → w.name ∉ seen → s.value w.place = val w.before
  after : w.left = val w.after

variable (placeOf val s) in
def FitAll : List N → List (Write K N V W) → Prop
  | _, [] => True
  | seen, w :: ws => FitsAfter placeOf val s seen w ∧ FitAll (w.name :: seen) ws

/-- Writes that fit one after another, as the state before them tells, keep a truthful journal. -/
theorem Truthful.writes {ws : List (Write K N V W)} (h : Truthful placeOf val start s)
    (hws : FitAll placeOf val s [] ws) :
    Truthful placeOf val start (ws.foldl State.write s) := by
  -- `t` is reached from `s` by writes that have logged the names `seen`.
  suffices hgen : ∀ (seen : List N) (t : State K N V W), Truthful placeOf val start t →
      (∀ n, t.log n ≠ none ↔ s.log n ≠ none ∨ n ∈ seen) →
      (∀ k, (∀ n ∈ seen, placeOf n ≠ some k) → t.value k = s.value k) →
      FitAll placeOf val s seen ws → Truthful placeOf val start (ws.foldl State.write t) from
    hgen [] s h (fun n => by simp) (fun _ _ => rfl) hws
  clear h hws
  induction ws with
  | nil => exact fun _ _ ht _ _ _ => ht
  | cons w ws ih =>
    rintro seen t ht hlog hvalue ⟨hw, hws⟩
    have hfits : Fits placeOf val t w := {
      place := hw.place
      named := fun n hn => hw.named n ((hlog n).mp hn)
      before := fun hnone => by
        have hnot : ¬ (s.log w.name ≠ none ∨ w.name ∈ seen) := fun hor =>
          (hlog w.name).mpr hor hnone
        obtain ⟨hold, hseen⟩ := not_or.mp hnot
        rw [← hw.before (not_not.mp hold) hseen]
        refine hvalue _ fun n hn hplace => hseen ?_
        rw [← hw.named n (.inr hn) hplace]
        exact hn
      after := hw.after }
    refine ih (w.name :: seen) (t.write w) (ht.write hfits) (fun n => ?_) (fun k hk => ?_) hws
    · rw [log_write_ne_none, hlog n, List.mem_cons]
      exact or_left_comm
    · have hne : k ≠ w.place := by
        rintro rfl
        exact hk w.name List.mem_cons_self hw.place
      rw [value_write_of_ne hne]
      exact hvalue k fun n hn => hk n (List.mem_cons_of_mem _ hn)

end Journal
