import Mathlib.Data.List.Perm.Basic

/-! A service station: jobs join one line, take a seat in the order of the line, and leave their
seat in any order. The state keeps what has arrived, what has begun and what has left. -/
namespace Station
open List

variable {J : Type*}

structure State (J : Type*) where
  arrived : List J
  begun : List J
  line : List J
  seated : List J
  gone : List J

inductive Move (J : Type*) where
  | arrive (j : J)
  | sit
  | leave (i : ℕ)

def empty : State J := ⟨[], [], [], [], []⟩

def step (s : State J) : Move J → State J
  | .arrive j => { s with arrived := s.arrived ++ [j], line := s.line ++ [j] }
  | .sit =>
    match s.line with
    | [] => s
    | j :: line => { s with begun := s.begun ++ [j], line := line, seated := s.seated ++ [j] }
  | .leave i =>
    match s.seated[i]? with
    | none => s
    | some j => { s with seated := s.seated.eraseIdx i, gone := s.gone ++ [j] }

/-- What has begun is the front of what has arrived, and each job that has begun is in one seat or
has left once. -/
structure Orderly (s : State J) : Prop where
  inOrder : s.arrived = s.begun ++ s.line
  once : s.begun.Perm (s.gone ++ s.seated)

theorem orderly_empty : Orderly (empty : State J) := ⟨rfl, .nil⟩

theorem perm_cons_eraseIdx {i : ℕ} {j : J} {l : List J} (h : l[i]? = some j) :
    l.Perm (j :: l.eraseIdx i) := by
  obtain ⟨hi, rfl⟩ := List.getElem?_eq_some_iff.mp h
  exact (getElem_cons_eraseIdx_perm hi).symm

theorem Orderly.step {s : State J} (h : Orderly s) (m : Move J) : Orderly (step s m) := by
  cases m with
  | arrive j =>
    refine ⟨?_, h.once⟩
    simp [Station.step, h.inOrder]
  | sit =>
    cases hline : s.line with
    | nil => simpa [Station.step, hline] using h
    | cons j line =>
      have hstep : Station.step s .sit =
          { s with begun := s.begun ++ [j], line := line, seated := s.seated ++ [j] } := by
        simp [Station.step, hline]
      rw [hstep]
      refine ⟨by simp [h.inOrder, hline], ?_⟩
      have happ := h.once.append_right [j]
      simpa using happ
  | leave i =>
    cases hj : s.seated[i]? with
    | none => simpa [Station.step, hj] using h
    | some j =>
      have hstep : Station.step s (.leave i) =
          { s with seated := s.seated.eraseIdx i, gone := s.gone ++ [j] } := by
        simp [Station.step, hj]
      rw [hstep]
      refine ⟨h.inOrder, h.once.trans ?_⟩
      simpa using (perm_cons_eraseIdx hj).append_left s.gone

/-- No job overtakes another: a job with `i` jobs in front of it in the line has begun later on
exactly when more than `i` further jobs have. -/
theorem Orderly.mem_begun_iff {s t : State J} (hs : Orderly s) (ht : Orderly t)
    (hnodup : t.arrived.Nodup) {later : List J} (happ : t.arrived = s.arrived ++ later) {i : ℕ}
    {j : J} (hj : s.line[i]? = some j) :
    j ∈ t.begun ↔ s.begun.length + i < t.begun.length := by
  have hplace : t.arrived[s.begun.length + i]? = some j := by
    have hline : i < s.line.length := (List.getElem?_eq_some_iff.mp hj).1
    have hlen : s.begun.length + i < s.arrived.length := by
      rw [hs.inOrder, length_append]; omega
    rw [happ, getElem?_append_left hlen, hs.inOrder, getElem?_append_right (by omega)]
    simpa using hj
  constructor
  · intro hmem
    obtain ⟨k, hk, hkj⟩ := mem_iff_getElem.mp hmem
    have hkt : t.arrived[k]? = some j := by
      rw [ht.inOrder, getElem?_append_left hk, getElem?_eq_getElem hk, hkj]
    have hlen : k < t.arrived.length := (List.getElem?_eq_some_iff.mp hkt).1
    have heq : k = s.begun.length + i :=
      (getElem?_inj hlen hnodup).mp (hkt.trans hplace.symm)
    omega
  · intro hlt
    rw [ht.inOrder, getElem?_append_left hlt] at hplace
    exact mem_of_getElem? hplace

end Station
