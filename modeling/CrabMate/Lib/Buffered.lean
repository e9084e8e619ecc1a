import CrabMate.Lib.Run
import Mathlib.Data.List.Perm.Basic

/-! Jobs that pass through a buffer: they enter it in their order while it has room, and leave it in
any order, each with a result. -/
namespace Buffered
open Run List

variable {J R : Type*}

structure State (J R : Type*) where
  waiting : List J
  inFlight : List J
  done : List (J × R)

inductive Move (R : Type*) where
  | start
  | finish (i : ℕ) (r : R)

def ofJobs (jobs : List J) : State J R := ⟨jobs, [], []⟩

def step (limit : ℕ) (s : State J R) : Move R → State J R
  | .start =>
    match s.waiting with
    | [] => s
    | j :: waiting =>
      if s.inFlight.length < limit then ⟨waiting, s.inFlight ++ [j], s.done⟩ else s
  | .finish i r =>
    match s.inFlight[i]? with
    | none => s
    | some j => ⟨s.waiting, s.inFlight.eraseIdx i, s.done ++ [(j, r)]⟩

namespace State

/-- What a state still has to do: a job that waits has to enter and to leave. -/
def left (s : State J R) : ℕ := 2 * s.waiting.length + s.inFlight.length

def drained (s : State J R) : Prop := s.waiting = [] ∧ s.inFlight = []

instance (s : State J R) : Decidable s.drained :=
  decidable_of_iff (s.waiting.isEmpty ∧ s.inFlight.isEmpty) (by simp [drained])

end State

section Steps

variable {limit : ℕ} {s : State J R}

/-- What a move can do: nothing, bring the first waiting job into the buffer, or take a job out. -/
theorem step_cases (limit : ℕ) (s : State J R) (m : Move R) :
    step limit s m = s ∨
      (∃ j waiting, s.waiting = j :: waiting ∧ s.inFlight.length < limit ∧
        step limit s m = ⟨waiting, s.inFlight ++ [j], s.done⟩) ∨
      ∃ i j r, s.inFlight[i]? = some j ∧
        step limit s m = ⟨s.waiting, s.inFlight.eraseIdx i, s.done ++ [(j, r)]⟩ := by
  cases m with
  | start =>
    cases hw : s.waiting with
    | nil => left; simp [step, hw]
    | cons j waiting =>
      by_cases hroom : s.inFlight.length < limit
      · exact .inr (.inl ⟨j, waiting, rfl, hroom, by simp [step, hw, hroom]⟩)
      · left; simp [step, hw, hroom]
  | finish i r =>
    cases hj : s.inFlight[i]? with
    | none => left; simp [step, hj]
    | some j => exact .inr (.inr ⟨i, j, r, hj, by simp [step, hj]⟩)

end Steps

/-- The jobs that have entered are the front of the jobs; each of them is in the buffer or done
once, and the buffer holds no more than it may. -/
structure Sound (limit : ℕ) (jobs : List J) (s : State J R) : Prop where
  entered : ∃ front, jobs = front ++ s.waiting ∧ front.Perm (s.done.map Prod.fst ++ s.inFlight)
  room : s.inFlight.length ≤ limit

variable {limit : ℕ} {jobs : List J} {s : State J R}

theorem sound_ofJobs (limit : ℕ) (jobs : List J) :
    Sound limit jobs (ofJobs jobs : State J R) :=
  ⟨⟨[], rfl, .nil⟩, Nat.zero_le _⟩

theorem Sound.step (h : Sound limit jobs s) (m : Move R) :
    Sound limit jobs (Buffered.step limit s m) := by
  obtain ⟨front, hjobs, hperm⟩ := h.entered
  rcases step_cases limit s m with hstep | ⟨j, waiting, hw, hroom, hstep⟩ | ⟨i, j, r, hj, hstep⟩ <;>
    rw [hstep]
  · exact h
  · refine ⟨⟨front ++ [j], by simp [hjobs, hw], ?_⟩, ?_⟩
    · simpa using hperm.append_right [j]
    · rw [length_append]
      exact hroom
  · obtain ⟨hi, rfl⟩ := List.getElem?_eq_some_iff.mp hj
    have htake : s.inFlight.Perm (s.inFlight[i] :: s.inFlight.eraseIdx i) :=
      (getElem_cons_eraseIdx_perm hi).symm
    refine ⟨⟨front, hjobs, hperm.trans ?_⟩, ?_⟩
    · simpa using htake.append_left (s.done.map Prod.fst)
    · exact Nat.le_trans (length_eraseIdx_le s.inFlight i) h.room

theorem Sound.perm (h : Sound limit jobs s) :
    jobs.Perm (s.done.map Prod.fst ++ s.inFlight ++ s.waiting) := by
  obtain ⟨front, rfl, hperm⟩ := h.entered
  exact hperm.append_right s.waiting

theorem Sound.perm_of_drained (h : Sound limit jobs s) (hover : s.drained) :
    jobs.Perm (s.done.map Prod.fst) := by
  have hperm := h.perm
  rw [hover.1, hover.2, append_nil, append_nil] at hperm
  exact hperm

/-- No move adds work. -/
theorem left_step_le (limit : ℕ) (s : State J R) (m : Move R) :
    (Buffered.step limit s m).left ≤ s.left := by
  rcases step_cases limit s m with hstep | ⟨j, waiting, hw, hroom, hstep⟩ | ⟨i, j, r, hj, hstep⟩
  · exact Nat.le_of_eq (congrArg State.left hstep)
  · simp only [hstep, State.left, hw, length_append, length_cons, length_nil]
    omega
  · have hle := length_eraseIdx_le s.inFlight i
    simp only [hstep, State.left]
    omega

/-- While there is work left and the buffer can hold a job, some move does a part of it, whatever
the results are. -/
theorem exists_left_step_lt (hlimit : 0 < limit) (hover : ¬ s.drained) (r : R) :
    (Buffered.step limit s .start).left < s.left ∨
      (Buffered.step limit s (.finish 0 r)).left < s.left := by
  cases hf : s.inFlight with
  | nil =>
    cases hw : s.waiting with
    | nil => exact absurd ⟨hw, hf⟩ hover
    | cons j waiting =>
      left
      simp only [Buffered.step, State.left, hw, hf, length_nil, if_pos hlimit,
        length_append, length_cons]
      omega
  | cons j inFlight =>
    right
    simp [Buffered.step, State.left, hf]

end Buffered
