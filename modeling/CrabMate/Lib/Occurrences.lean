import Mathlib.Data.List.Basic
import Mathlib.Data.List.Infix

/-! The occurrences of a pattern that a scan from the left meets, each behind the end of the one
before, and what a text becomes when some of them are replaced. -/
namespace Occurrences
open List

variable {α : Type*}

section Scan

variable [DecidableEq α] (p : List α)

/-- Where the occurrences start. The next `skip` elements belong to the last one. -/
def scanFrom : List α → ℕ → ℕ → List ℕ
  | [], _, _ => []
  | _ :: s, pos, skip + 1 => scanFrom s (pos + 1) skip
  | c :: s, pos, 0 =>
    if p.isPrefixOf (c :: s) then pos :: scanFrom s (pos + 1) (p.length - 1)
    else scanFrom s (pos + 1) 0

def scan (s : List α) : List ℕ := scanFrom p s 0 0

end Scan

section Splice

variable (p r s : List α)

/-- `r` stands in for the pattern at each position; the text is copied up to `done`. -/
def spliceFrom : ℕ → List ℕ → List α
  | done, [] => s.drop done
  | done, i :: is => (s.take i).drop done ++ r ++ spliceFrom (i + p.length) is

def splice (positions : List ℕ) : List α := spliceFrom p r s 0 positions

end Splice

/-- The text cut at its occurrences: the pieces in front of them and what is behind the last. -/
inductive Cuts (p : List α) : List α → List (List α) → List α → Prop
  | last {s : List α} (hnone : ¬ p <:+: s) : Cuts p s [] s
  | next {piece rest last : List α} {pieces : List (List α)}
      (hfirst : ∀ i < piece.length, ¬ p <+: (piece ++ p ++ rest).drop i)
      (hrest : Cuts p rest pieces last) : Cuts p (piece ++ p ++ rest) (piece :: pieces) last

/-- The pieces put together again, with `r` in place of the first `n` occurrences. -/
def rebuilt (p r last : List α) : ℕ → List (List α) → List α
  | _, [] => last
  | 0, piece :: pieces => piece ++ p ++ rebuilt p r last 0 pieces
  | n + 1, piece :: pieces => piece ++ r ++ rebuilt p r last n pieces

def starts (p : List α) : ℕ → List (List α) → List ℕ
  | _, [] => []
  | pos, piece :: pieces =>
    (pos + piece.length) :: starts p (pos + piece.length + p.length) pieces

variable {p r s t last : List α} {pieces : List (List α)}

@[simp] theorem length_starts (pos : ℕ) (pieces : List (List α)) :
    (starts p pos pieces).length = pieces.length := by
  induction pieces generalizing pos with
  | nil => rfl
  | cons piece pieces ih => rw [starts, length_cons, ih, length_cons]

theorem exists_first (h : p <:+: s) : ∃ piece rest, s = piece ++ p ++ rest ∧
    ∀ i < piece.length, ¬ p <+: s.drop i := by
  induction s with
  | nil =>
    obtain rfl := infix_nil.mp h
    exact ⟨[], [], rfl, fun i hi => absurd hi (Nat.not_lt_zero i)⟩
  | cons c s ih =>
    by_cases hhere : p <+: c :: s
    · obtain ⟨rest, hrest⟩ := hhere
      exact ⟨[], rest, hrest.symm, fun i hi => absurd hi (Nat.not_lt_zero i)⟩
    · obtain ⟨piece, rest, rfl, hfirst⟩ := ih ((infix_cons_iff.mp h).resolve_left hhere)
      refine ⟨c :: piece, rest, rfl, fun i hi => ?_⟩
      cases i with
      | zero => exact hhere
      | succ i => exact hfirst i (Nat.lt_of_succ_lt_succ hi)

theorem exists_cuts (hp : p ≠ []) (s : List α) : ∃ pieces last, Cuts p s pieces last := by
  by_cases h : p <:+: s
  · obtain ⟨piece, rest, rfl, hfirst⟩ := exists_first h
    have hlt : rest.length < (piece ++ p ++ rest).length := by
      have hpos := length_pos_iff.mpr hp
      simp only [length_append]
      omega
    obtain ⟨pieces, last, hcuts⟩ := exists_cuts hp rest
    exact ⟨piece :: pieces, last, .next hfirst hcuts⟩
  · exact ⟨[], s, .last h⟩
termination_by s.length

theorem Cuts.rebuilt_zero (h : Cuts p s pieces last) (r : List α) :
    rebuilt p r last 0 pieces = s := by
  induction h with
  | last => rfl
  | next _ _ ih => rw [rebuilt, ih]

theorem Cuts.spliceFrom_eq (h : Cuts p t pieces last) (r front : List α) (n : ℕ) :
    spliceFrom p r (front ++ t) front.length ((starts p front.length pieces).take n) =
      rebuilt p r last n pieces := by
  induction h generalizing front n with
  | last =>
    rw [starts, take_nil, spliceFrom, drop_left]
    rfl
  | @next piece rest last pieces hfirst hrest ih =>
    cases n with
    | zero =>
      rw [take_zero, spliceFrom, drop_left, (Cuts.next hfirst hrest).rebuilt_zero]
    | succ n =>
      have hcopied : ((front ++ (piece ++ p ++ rest)).take (front.length + piece.length)).drop
          front.length = piece := by
        rw [take_length_add_append, drop_left, append_assoc, take_left]
      have hdone := ih (front ++ piece ++ p) n
      simp only [length_append, append_assoc] at hdone hcopied ⊢
      rw [starts, take_succ_cons, spliceFrom, hcopied, rebuilt, Nat.add_assoc, hdone,
        append_assoc]

variable [DecidableEq α]

theorem scanFrom_skip (s : List α) (pos skip : ℕ) :
    scanFrom p s pos skip = scanFrom p (s.drop skip) (pos + skip) 0 := by
  induction skip generalizing s pos with
  | zero => rfl
  | succ skip ih =>
    cases s with
    | nil => rfl
    | cons c s =>
      rw [scanFrom, ih, drop_succ_cons, Nat.add_assoc, Nat.add_comm 1]

theorem scanFrom_of_not_infix (h : ¬ p <:+: s) (pos : ℕ) : scanFrom p s pos 0 = [] := by
  induction s generalizing pos with
  | nil => rfl
  | cons c s ih =>
    rw [infix_cons_iff, not_or] at h
    rw [scanFrom, if_neg (by simpa using h.1), ih h.2]

theorem scanFrom_first {piece rest : List α} (hp : p ≠ [])
    (hfirst : ∀ i < piece.length, ¬ p <+: (piece ++ p ++ rest).drop i) (pos : ℕ) :
    scanFrom p (piece ++ p ++ rest) pos 0 =
      (pos + piece.length) :: scanFrom p rest (pos + piece.length + p.length) 0 := by
  induction piece generalizing pos with
  | nil =>
    cases p with
    | nil => exact absurd rfl hp
    | cons c p =>
      have hprefix : (c :: p).isPrefixOf (c :: (p ++ rest)) = true :=
        isPrefixOf_iff_prefix.mpr (prefix_append (c :: p) rest)
      rw [nil_append, cons_append, scanFrom, if_pos hprefix, scanFrom_skip,
        length_cons, Nat.add_sub_cancel, drop_left]
      simp only [length_nil, Nat.add_zero, Nat.add_assoc, Nat.add_comm 1]
  | cons c piece ih =>
    have hhere : ¬ p <+: c :: (piece ++ p ++ rest) := hfirst 0 (Nat.succ_pos _)
    have hrest : ∀ i < piece.length, ¬ p <+: (piece ++ p ++ rest).drop i :=
      fun i hi => hfirst (i + 1) (Nat.succ_lt_succ hi)
    rw [cons_append, cons_append, scanFrom, if_neg (by simpa using hhere), ih hrest]
    simp only [length_cons, Nat.add_assoc, Nat.add_comm 1]

theorem Cuts.scanFrom_eq (h : Cuts p s pieces last) (hp : p ≠ []) (pos : ℕ) :
    scanFrom p s pos 0 = starts p pos pieces := by
  induction h generalizing pos with
  | last hnone => exact scanFrom_of_not_infix hnone pos
  | next hfirst _ ih => rw [scanFrom_first hp hfirst, ih, starts]

theorem Cuts.length_scan (h : Cuts p s pieces last) (hp : p ≠ []) :
    (scan p s).length = pieces.length := by
  rw [scan, h.scanFrom_eq hp, length_starts]

/-- Replacing the first occurrences that the scan finds. -/
theorem Cuts.splice_eq (h : Cuts p s pieces last) (hp : p ≠ []) (r : List α) (n : ℕ) :
    splice p r s ((scan p s).take n) = rebuilt p r last n pieces := by
  rw [scan, h.scanFrom_eq hp]
  exact h.spliceFrom_eq r [] n

end Occurrences
