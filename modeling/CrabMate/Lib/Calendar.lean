import Mathlib.Data.Nat.Find
import Mathlib.Order.Basic

/-! The proleptic Gregorian calendar: dates, their day numbers, and that the two determine each
other. Day 1 is the first of January of the year 1. -/
namespace Calendar

def isLeap (y : ℤ) : Bool := y % 4 = 0 && (y % 100 ≠ 0 || y % 400 = 0)

def monthLength (y : ℤ) : ℕ → ℕ
  | 2 => if isLeap y then 29 else 28
  | 4 | 6 | 9 | 11 => 30
  | _ => 31

def yearLength (y : ℤ) : ℕ := if isLeap y then 366 else 365

def daysBeforeYear (y : ℤ) : ℤ :=
  365 * (y - 1) + (y - 1) / 4 - (y - 1) / 100 + (y - 1) / 400

/-- The days of the first `m` months. -/
def daysBeforeMonth (y : ℤ) : ℕ → ℕ
  | 0 => 0
  | m + 1 => daysBeforeMonth y m + monthLength y (m + 1)

structure Date where
  year : ℤ
  month : ℕ
  day : ℕ
  month_pos : 1 ≤ month
  month_le : month ≤ 12
  day_pos : 1 ≤ day
  day_le : day ≤ monthLength year month
  deriving DecidableEq

section Years

variable {y y' n : ℤ}

theorem daysBeforeYear_succ (y : ℤ) : daysBeforeYear (y + 1) = daysBeforeYear y + yearLength y := by
  unfold daysBeforeYear yearLength
  by_cases h : isLeap y = true
  · rw [if_pos h]
    simp only [isLeap, Bool.and_eq_true, decide_eq_true_eq, Bool.or_eq_true] at h
    omega
  · rw [if_neg h]
    simp only [isLeap, Bool.and_eq_true, decide_eq_true_eq, Bool.or_eq_true, not_and, not_or,
      not_not] at h
    omega

theorem daysBeforeYear_mono (h : y ≤ y') : daysBeforeYear y ≤ daysBeforeYear y' := by
  unfold daysBeforeYear
  omega

/-- The year that a day lies in. -/
def yearOf (n : ℤ) : ℤ :=
  let guess := 400 * n / 146097
  if n ≤ daysBeforeYear (guess + 1) then guess
  else if n ≤ daysBeforeYear (guess + 1 + 1) then guess + 1
  else guess + 1 + 1

theorem yearOf_spec (n : ℤ) :
    daysBeforeYear (yearOf n) < n ∧ n ≤ daysBeforeYear (yearOf n + 1) := by
  have hlow : daysBeforeYear (400 * n / 146097) < n := by
    unfold daysBeforeYear
    omega
  have hhigh : n ≤ daysBeforeYear (400 * n / 146097 + 1 + 1 + 1) := by
    unfold daysBeforeYear
    omega
  unfold yearOf
  dsimp only
  split_ifs with h₁ h₂
  · exact ⟨hlow, h₁⟩
  · exact ⟨Int.not_le.mp h₁, h₂⟩
  · exact ⟨Int.not_le.mp h₂, hhigh⟩

theorem year_unique (h : daysBeforeYear y < n ∧ n ≤ daysBeforeYear (y + 1))
    (h' : daysBeforeYear y' < n ∧ n ≤ daysBeforeYear (y' + 1)) : y = y' := by
  rcases Int.lt_trichotomy y y' with hlt | heq | hgt
  · have hmono := daysBeforeYear_mono (Int.add_one_le_of_lt hlt)
    omega
  · exact heq
  · have hmono := daysBeforeYear_mono (Int.add_one_le_of_lt hgt)
    omega

end Years

section Months

variable {y : ℤ} {m m' ord : ℕ}

theorem daysBeforeMonth_mono (h : m ≤ m') : daysBeforeMonth y m ≤ daysBeforeMonth y m' := by
  induction h with
  | refl => exact Nat.le_refl _
  | step _ ih => exact ih.trans (Nat.le_add_right _ _)

theorem daysBeforeMonth_twelve (y : ℤ) : daysBeforeMonth y 12 = yearLength y := by
  simp only [daysBeforeMonth, monthLength, yearLength]
  split_ifs <;> rfl

/-- The month that a day of a year lies in, counted from 0. -/
def monthOf (y : ℤ) (ord : ℕ) : ℕ := Nat.findGreatest (fun m => daysBeforeMonth y m < ord) 11

theorem monthOf_spec (hpos : 1 ≤ ord) (hle : ord ≤ yearLength y) :
    monthOf y ord ≤ 11 ∧ daysBeforeMonth y (monthOf y ord) < ord ∧
      ord ≤ daysBeforeMonth y (monthOf y ord + 1) := by
  have hbound : monthOf y ord ≤ 11 := Nat.findGreatest_le 11
  refine ⟨hbound, Nat.findGreatest_spec (m := 0) (P := fun m => daysBeforeMonth y m < ord)
    (Nat.zero_le 11) hpos, ?_⟩
  rcases Nat.lt_or_eq_of_le hbound with hlt | heq
  · have hnext : ¬daysBeforeMonth y (monthOf y ord + 1) < ord :=
      Nat.findGreatest_is_greatest (P := fun m => daysBeforeMonth y m < ord) (n := 11)
        (Nat.lt_succ_self _) hlt
    omega
  · rw [heq, daysBeforeMonth_twelve]
    exact hle

theorem month_unique (h : daysBeforeMonth y m < ord ∧ ord ≤ daysBeforeMonth y (m + 1))
    (h' : daysBeforeMonth y m' < ord ∧ ord ≤ daysBeforeMonth y (m' + 1)) : m = m' := by
  rcases Nat.lt_trichotomy m m' with hlt | heq | hgt
  · have hmono := daysBeforeMonth_mono (y := y) (show m + 1 ≤ m' from hlt)
    omega
  · exact heq
  · have hmono := daysBeforeMonth_mono (y := y) (show m' + 1 ≤ m from hgt)
    omega

end Months

namespace Date

def ordinal (d : Date) : ℕ := daysBeforeMonth d.year (d.month - 1) + d.day

def dayNumber (d : Date) : ℤ := daysBeforeYear d.year + d.ordinal

theorem ordinal_bounds (d : Date) : daysBeforeMonth d.year (d.month - 1) < d.ordinal ∧
    d.ordinal ≤ daysBeforeMonth d.year (d.month - 1 + 1) := by
  have hmonth : d.month - 1 + 1 = d.month := Nat.sub_add_cancel d.month_pos
  refine ⟨Nat.lt_add_of_pos_right d.day_pos, ?_⟩
  rw [ordinal, daysBeforeMonth, hmonth]
  exact Nat.add_le_add_left d.day_le _

theorem dayNumber_bounds (d : Date) :
    daysBeforeYear d.year < d.dayNumber ∧ d.dayNumber ≤ daysBeforeYear (d.year + 1) := by
  obtain ⟨hlow, hhigh⟩ := d.ordinal_bounds
  have hyear : daysBeforeMonth d.year (d.month - 1 + 1) ≤ yearLength d.year := by
    rw [← daysBeforeMonth_twelve]
    exact daysBeforeMonth_mono (by have := d.month_le; have := d.month_pos; omega)
  rw [daysBeforeYear_succ, dayNumber]
  omega

theorem dayNumber_injective {d e : Date} (h : d.dayNumber = e.dayNumber) : d = e := by
  have hyear : d.year = e.year := year_unique (h ▸ d.dayNumber_bounds) e.dayNumber_bounds
  have hordinal : d.ordinal = e.ordinal := by
    rw [dayNumber, dayNumber, hyear] at h
    omega
  have hd := d.ordinal_bounds
  rw [hyear, hordinal] at hd
  have hmonth : d.month - 1 = e.month - 1 := month_unique hd e.ordinal_bounds
  have hday : d.day = e.day := by
    rw [ordinal, ordinal, hyear, hmonth] at hordinal
    omega
  have hmonth' : d.month = e.month := by
    have := d.month_pos
    have := e.month_pos
    omega
  cases d
  cases e
  obtain rfl : _ = _ := hyear
  obtain rfl : _ = _ := hmonth'
  obtain rfl : _ = _ := hday
  rfl

theorem year_le_iff (d : Date) (y : ℤ) : d.year ≤ y ↔ d.dayNumber ≤ daysBeforeYear (y + 1) := by
  obtain ⟨hlow, hhigh⟩ := d.dayNumber_bounds
  constructor
  · intro h
    exact Int.le_trans hhigh (daysBeforeYear_mono (by omega))
  · intro h
    by_contra hlt
    have hmono := daysBeforeYear_mono (Int.add_one_le_of_lt (Int.not_le.mp hlt))
    omega

theorem le_year_iff (d : Date) (y : ℤ) : y ≤ d.year ↔ daysBeforeYear y < d.dayNumber := by
  have h := d.year_le_iff (y - 1)
  rw [Int.sub_add_cancel] at h
  omega

end Date

/-- The place of a day in its year. -/
def ordinalOf (n : ℤ) : ℕ := (n - daysBeforeYear (yearOf n)).toNat

theorem ordinalOf_spec (n : ℤ) : 1 ≤ ordinalOf n ∧ ordinalOf n ≤ yearLength (yearOf n) ∧
    daysBeforeYear (yearOf n) + ordinalOf n = n := by
  have hyear := yearOf_spec n
  rw [daysBeforeYear_succ] at hyear
  unfold ordinalOf
  omega

/-- The date of a day. -/
def ofDayNumber (n : ℤ) : Date :=
  have hordinal := ordinalOf_spec n
  have hmonth := monthOf_spec hordinal.1 hordinal.2.1
  { year := yearOf n
    month := monthOf (yearOf n) (ordinalOf n) + 1
    day := ordinalOf n - daysBeforeMonth (yearOf n) (monthOf (yearOf n) (ordinalOf n))
    month_pos := Nat.succ_pos _
    month_le := Nat.succ_le_succ hmonth.1
    day_pos := Nat.sub_pos_of_lt hmonth.2.1
    day_le := Nat.sub_le_iff_le_add'.mpr hmonth.2.2 }

@[simp] theorem dayNumber_ofDayNumber (n : ℤ) : (ofDayNumber n).dayNumber = n := by
  obtain ⟨hpos, hle, hsum⟩ := ordinalOf_spec n
  have hmonth := monthOf_spec hpos hle
  simp only [Date.dayNumber, Date.ordinal, ofDayNumber, Nat.add_sub_cancel]
  omega

theorem dayNumber_last {d e : Date} (hday : d.day = monthLength d.year d.month) (hfirst : e.day = 1)
    (hnext : if d.month = 12 then e.year = d.year + 1 ∧ e.month = 1
      else e.year = d.year ∧ e.month = d.month + 1) : d.dayNumber = e.dayNumber - 1 := by
  have hend : daysBeforeMonth d.year (d.month - 1) + d.day = daysBeforeMonth d.year d.month := by
    have hmonth : d.month - 1 + 1 = d.month := Nat.sub_add_cancel d.month_pos
    have hstep : daysBeforeMonth d.year (d.month - 1 + 1) =
      daysBeforeMonth d.year (d.month - 1) + monthLength d.year (d.month - 1 + 1) := rfl
    rw [hmonth] at hstep
    rw [hday, hstep]
  rw [Date.dayNumber, Date.ordinal, hend, Date.dayNumber, Date.ordinal, hfirst]
  split_ifs at hnext with hdec
  · rw [hnext.1, hnext.2, hdec, daysBeforeMonth_twelve, daysBeforeYear_succ]
    simp [daysBeforeMonth]
  · rw [hnext.1, hnext.2, Nat.add_sub_cancel]
    omega

end Calendar
