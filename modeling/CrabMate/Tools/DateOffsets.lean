import CrabMate.Lib.Except
import CrabMate.Tools.DateCalc

/-! What an offset says, and when `date_calc` does what it says. -/
namespace CrabMate.DateCalc
open RustStr Calendar List Except

section Dates

variable {d e : NaiveDate} {y n : ℤ} {m k : ℕ}

/-- The days that the date library knows. -/
def InCalendar (n : ℤ) : Prop := daysBeforeYear minYear < n ∧ n ≤ daysBeforeYear (maxYear + 1)

theorem NaiveDate.inCalendar (d : NaiveDate) : InCalendar d.dayNumber :=
  ⟨(d.le_year_iff minYear).mp d.min_le, (d.year_le_iff maxYear).mp d.le_max⟩

theorem ofDate?_eq_some_iff {date : Date} : NaiveDate.ofDate? date = some e ↔ e.toDate = date := by
  unfold NaiveDate.ofDate?
  constructor
  · intro h
    split at h
    · cases h
      rfl
    · cases h
  · rintro rfl
    rw [dif_pos ⟨e.min_le, e.le_max⟩]

theorem addDays_eq_some_iff : d.addDays n = some e ↔ e.dayNumber = d.dayNumber + n := by
  rw [NaiveDate.addDays, ofDate?_eq_some_iff]
  constructor
  · intro h
    rw [h, dayNumber_ofDayNumber]
  · intro h
    apply Date.dayNumber_injective
    rw [h, dayNumber_ofDayNumber]

theorem exists_addDays (h : InCalendar (d.dayNumber + n)) :
    ∃ e, d.addDays n = some e ∧ e.dayNumber = d.dayNumber + n := by
  have hmin := ((ofDayNumber (d.dayNumber + n)).le_year_iff minYear).mpr
    (by rw [dayNumber_ofDayNumber]; exact h.1)
  have hmax := ((ofDayNumber (d.dayNumber + n)).year_le_iff maxYear).mpr
    (by rw [dayNumber_ofDayNumber]; exact h.2)
  exact ⟨⟨_, hmin, hmax⟩, dif_pos ⟨hmin, hmax⟩, dayNumber_ofDayNumber _⟩

theorem exists_fromYmdOpt (hy : minYear ≤ y ∧ y ≤ maxYear) (hm : 1 ≤ m ∧ m ≤ 12)
    (hk : 1 ≤ k ∧ k ≤ monthLength y m) :
    ∃ e, NaiveDate.fromYmdOpt y m k = some e ∧ e.year = y ∧ e.month = m ∧ e.day = k := by
  unfold NaiveDate.fromYmdOpt
  rw [dif_pos ⟨hm, hk⟩]
  exact ⟨⟨⟨y, m, k, hm.1, hm.2, hk.1, hk.2⟩, hy.1, hy.2⟩, ofDate?_eq_some_iff.mpr rfl, rfl, rfl,
    rfl⟩

theorem year_of_fromYmdOpt (h : NaiveDate.fromYmdOpt y m k = some e) : e.year = y := by
  unfold NaiveDate.fromYmdOpt at h
  split at h
  · rw [ofDate?_eq_some_iff.mp h]
  · cases h

theorem monthLength_bounds (y : ℤ) (m : ℕ) : 28 ≤ monthLength y m ∧ monthLength y m ≤ 31 := by
  unfold monthLength
  split
  · split <;> decide
  all_goals decide

/-- The last month of the calendar has no first day behind it to count back from. -/
theorem daysInMonth_eq (hy : minYear ≤ y ∧ y ≤ maxYear) (hm : 1 ≤ m ∧ m ≤ 12) :
    daysInMonth y m = .ok (if y = maxYear ∧ m = 12 then 28 else monthLength y m) := by
  have hi32 : InI32 (if m = 12 then y + 1 else y) := by
    unfold InI32
    simp only [minYear, maxYear] at hy
    split <;> omega
  have hcheck : checked InI32 (if m = 12 then y + 1 else y) = .ok (if m = 12 then y + 1 else y) :=
    if_pos hi32
  unfold daysInMonth
  rw [hcheck]
  by_cases hlast : y = maxYear ∧ m = 12
  · obtain ⟨rfl, rfl⟩ := hlast
    have hnone : NaiveDate.fromYmdOpt (maxYear + 1) 1 1 = none := by
      cases h : NaiveDate.fromYmdOpt (maxYear + 1) 1 1 with
      | none => rfl
      | some e =>
        have hyear := year_of_fromYmdOpt h
        have hle := e.le_max
        omega
    simp [hnone, bind, Except.bind, pure, Except.pure]
  · obtain ⟨first, hfirst, hyear, hmonth, hday⟩ := exists_fromYmdOpt
      (y := if m = 12 then y + 1 else y) (m := if m = 12 then 1 else m + 1) (k := 1)
      (by split <;> omega) (by split <;> omega)
      ⟨Nat.le_refl 1, (by decide : 1 ≤ 28).trans (monthLength_bounds _ _).1⟩
    obtain ⟨last, hlast', hyear', hmonth', hday'⟩ := exists_fromYmdOpt hy hm
      (k := monthLength y m) ⟨(by decide : 1 ≤ 28).trans (monthLength_bounds _ _).1, Nat.le_refl _⟩
    have hnumber : last.dayNumber = first.dayNumber - 1 := by
      apply dayNumber_last (by rw [hday', hyear', hmonth']) hday
      rw [hyear', hmonth', hyear, hmonth]
      split <;> exact ⟨rfl, rfl⟩
    have hpred : first.predOpt = some last := addDays_eq_some_iff.mpr (by omega)
    simp [hfirst, hpred, hday', hlast, bind, Except.bind, pure, Except.pure]

end Dates

section Units

/-- A result that is refused or is what was asked for. -/
def Exact (P : NaiveDate → Prop) : Except Halt NaiveDate → Prop
  | .ok d => P d
  | .error (.refused _) => True
  | .error .fault => False

/-- The months in front of a date's own. -/
def monthIndex (d : Date) : ℤ := 12 * d.year + d.month - 1

/-- The date that lies some days, weeks or months away. The day is clamped to its month. -/
def IsAway (base : NaiveDate) (num : ℤ) : OffsetUnit → NaiveDate → Prop
  | .days, d => d.dayNumber = base.dayNumber + num
  | .weeks, d => d.dayNumber = base.dayNumber + 7 * num
  | .months, d => monthIndex d.toDate = monthIndex base.toDate + num ∧
      d.day = min base.day (monthLength d.year d.month)

/-- The target lies in the calendar. In the calendar's last month only the days up to 28 are
found. -/
def InReach (base : NaiveDate) (num : ℤ) : OffsetUnit → Prop
  | .days => InCalendar (base.dayNumber + num)
  | .weeks => InCalendar (base.dayNumber + 7 * num)
  | .months =>
      let target := monthIndex base.toDate + num
      minYear ≤ target / 12 ∧ target / 12 ≤ maxYear ∧ (target = 12 * maxYear + 11 → base.day ≤ 28)

variable {base : NaiveDate} {num : ℤ}

theorem checked_ne_refused {P : ℤ → Prop} [DecidablePred P] {n : ℤ} {message : String} :
    checked P n ≠ .error (.refused message) := by
  unfold checked
  split <;> simp

theorem duration_ne_refused {secs : ℤ} {message : String} :
    (durationSeconds secs >>= addDuration base) ≠ .error (.refused message) := by
  intro h
  obtain hsecs | ⟨secs', -, hadd⟩ := bind_eq_error.mp h
  · exact checked_ne_refused hsecs
  · obtain hdays | ⟨days, -, helim⟩ := bind_eq_error.mp hadd
    · exact checked_ne_refused hdays
    · cases hresult : base.addDays days with
      | none => simp [hresult] at helim
      | some d => simp [hresult] at helim

theorem days_exact_iff : Exact (fun d => d.dayNumber = base.dayNumber + num)
    (durationSeconds (num * 86400) >>= addDuration base) ↔ InCalendar (base.dayNumber + num) := by
  constructor
  · intro h
    cases hrun : durationSeconds (num * 86400) >>= addDuration base with
    | ok d =>
      rw [hrun] at h
      have hin := d.inCalendar
      rwa [show d.dayNumber = base.dayNumber + num from h] at hin
    | error halt =>
      cases halt with
      | refused message => exact absurd hrun duration_ne_refused
      | fault =>
        rw [hrun] at h
        exact h.elim
  · intro h
    obtain ⟨d, hadd, hnumber⟩ := exists_addDays h
    have hbase := base.inCalendar
    unfold InCalendar daysBeforeYear at h hbase
    simp only [minYear, maxYear] at h hbase
    have hduration : durationSeconds (num * 86400) = .ok (num * 86400) :=
      if_pos (by unfold durationMax; omega)
    have hdays : (num * 86400).tdiv 86400 = num := Int.mul_tdiv_cancel num (by decide)
    have hcheck : checked InI32 num = .ok num := if_pos (by unfold InI32; omega)
    rw [hduration]
    show Exact _ (addDuration base (num * 86400))
    rw [addDuration, hdays, hcheck]
    show Exact _ ((base.addDays num).elim _ _)
    rw [hadd]
    exact hnumber

theorem addMonths_eq (h : minYear ≤ (monthIndex base.toDate + num) / 12 ∧
    (monthIndex base.toDate + num) / 12 ≤ maxYear) :
    ∃ d, addMonths base num = .ok d ∧ monthIndex d.toDate = monthIndex base.toDate + num ∧
      d.day = min base.day
        (if d.year = maxYear ∧ d.month = 12 then 28 else monthLength d.year d.month) := by
  have hbase := And.intro base.min_le base.le_max
  have hmonth := And.intro base.month_pos base.month_le
  have hday := base.day_pos
  have hmonth0 : (base.month0 : ℤ) = base.month - 1 := by
    unfold NaiveDate.month0
    omega
  obtain ⟨y, hy⟩ : ∃ y, base.year + (base.month0 + num) / 12 = y := ⟨_, rfl⟩
  obtain ⟨m, hm⟩ : ∃ m, ((base.month0 + num) % 12 + 1).toNat = m := ⟨_, rfl⟩
  have htarget : (monthIndex base.toDate + num) / 12 = y := by
    unfold monthIndex
    omega
  rw [htarget] at h
  have hm12 : 1 ≤ m ∧ m ≤ 12 := by omega
  have hlast := daysInMonth_eq h hm12
  obtain ⟨hlow, -⟩ := monthLength_bounds y m
  obtain ⟨d, hd, hdyear, hdmonth, hdday⟩ := exists_fromYmdOpt h hm12
    (k := min base.day (if y = maxYear ∧ m = 12 then 28 else monthLength y m))
    (by split <;> omega)
  simp only [minYear, maxYear] at h hbase
  have hmod : num.bmod 4294967296 = num := Int.bmod_eq_of_le (by omega) (by omega)
  have hfirst : checked InI32 (base.month0 + num) = .ok (base.month0 + num) :=
    if_pos (by unfold InI32; omega)
  have hsecond : checked InI32 y = .ok y := if_pos (by unfold InI32; omega)
  refine ⟨d, ?_, ?_, by rw [hdday, hdyear, hdmonth]⟩
  · unfold addMonths
    rw [hmod, hfirst, ok_bind, hy, hsecond, ok_bind, hm]
    dsimp only
    rw [hlast, ok_bind, hd]
    rfl
  · unfold monthIndex
    omega

theorem addMonths_ne_refused {message : String} :
    addMonths base num ≠ .error (.refused message) := by
  intro h
  obtain hmonth | ⟨month, -, h⟩ := bind_eq_error.mp h
  · exact checked_ne_refused hmonth
  · obtain hyear | ⟨year, -, h⟩ := bind_eq_error.mp h
    · exact checked_ne_refused hyear
    · obtain hlast | ⟨last, -, h⟩ := bind_eq_error.mp h
      · obtain hnext | ⟨next, -, h⟩ := bind_eq_error.mp hlast
        · exact checked_ne_refused hnext
        · cases h
      · cases h

theorem months_exact_iff :
    Exact (IsAway base num .months) (addMonths base num) ↔ InReach base num .months := by
  by_cases hrange : minYear ≤ (monthIndex base.toDate + num) / 12 ∧
    (monthIndex base.toDate + num) / 12 ≤ maxYear
  · obtain ⟨d, hrun, hindex, hday⟩ := addMonths_eq hrange
    have hmonth := And.intro d.month_pos d.month_le
    have hlength : d.month = 12 → monthLength d.year d.month = 31 := by
      intro h
      rw [h]
      rfl
    rw [hrun]
    constructor
    · rintro ⟨-, haway⟩
      refine ⟨hrange.1, hrange.2, fun hlast => ?_⟩
      unfold monthIndex at hindex hlast
      rw [if_pos (by omega)] at hday
      have hthirtyOne := hlength (by omega)
      omega
    · rintro ⟨-, -, hlast⟩
      refine ⟨hindex, ?_⟩
      by_cases hdec : d.year = maxYear ∧ d.month = 12
      · have hbase := hlast (by rw [← hindex]; unfold monthIndex; omega)
        rw [if_pos hdec] at hday
        have hthirtyOne := hlength hdec.2
        omega
      · rwa [if_neg hdec] at hday
  · constructor
    · intro h
      cases hrun : addMonths base num with
      | ok d =>
        rw [hrun] at h
        have hindex : monthIndex d.toDate = monthIndex base.toDate + num := h.1
        have hmonth := And.intro d.month_pos d.month_le
        have hyear := And.intro d.min_le d.le_max
        rw [← hindex] at hrange
        unfold monthIndex at hrange
        omega
      | error halt =>
        cases halt with
        | refused message => exact absurd hrun addMonths_ne_refused
        | fault =>
          rw [hrun] at h
          exact h.elim
    · intro h
      exact absurd ⟨h.1, h.2.1⟩ hrange

theorem addUnits_exact_iff (u : OffsetUnit) :
    Exact (IsAway base num u) (addUnits base num u) ↔ InReach base num u := by
  cases u with
  | days => exact days_exact_iff
  | weeks =>
    have hseconds : durationWeeks num = durationSeconds (7 * num * 86400) := by
      unfold durationWeeks
      congr 1
      omega
    show Exact _ (durationWeeks num >>= addDuration base) ↔ _
    rw [hseconds]
    exact days_exact_iff
  | months => exact months_exact_iff

end Units

section Texts

inductive Sign where
  | none
  | plus
  | minus

def Sign.text : Sign → Str
  | .none => []
  | .plus => ['+']
  | .minus => ['-']

def Sign.value : Sign → ℤ
  | .minus => -1
  | _ => 1

/-- An integer as somebody writes it. -/
structure Numeral where
  sign : Sign
  digits : Str
  digits_ne : digits ≠ []
  digits_all : digits.all Char.isDigit

def Numeral.text (n : Numeral) : Str := n.sign.text ++ n.digits

def Numeral.value (n : Numeral) : ℤ := n.sign.value * Nat.ofDigitChars 10 n.digits 0

/-- An offset as somebody writes it. Behind its sign the number may have one of its own. -/
structure Offset where
  sign : Sign
  number : Numeral
  unit : Char
  first : sign = .none → number.sign = .none

def Offset.text (w : Offset) : Str := w.sign.text ++ (w.number.text ++ [w.unit])

def Offset.num (w : Offset) : ℤ := w.number.value * w.sign.value

def Unsigned (s : Str) : Prop := s.head? ≠ some '+' ∧ s.head? ≠ some '-'

theorem splitSign_text {sign : Sign} {rest : Str} (h : sign = .none → Unsigned rest) :
    splitSign (sign.text ++ rest) = (sign.value, rest) := by
  cases sign with
  | plus => rfl
  | minus => rfl
  | none =>
    obtain ⟨hplus, hminus⟩ := h rfl
    show splitSign rest = (1, rest)
    unfold splitSign
    split
    · exact absurd rfl hplus
    · exact absurd rfl hminus
    · rfl

theorem exists_sign (s : Str) : ∃ sign : Sign, s = sign.text ++ (splitSign s).2 ∧
    (splitSign s).1 = sign.value ∧ (sign = .none → Unsigned (splitSign s).2) := by
  unfold splitSign
  split
  · exact ⟨.plus, rfl, rfl, nofun⟩
  · exact ⟨.minus, rfl, rfl, nofun⟩
  · rename_i hplus hminus
    refine ⟨.none, rfl, rfl, fun _ => ?_⟩
    cases s with
    | nil => exact ⟨nofun, nofun⟩
    | cons c rest =>
      refine ⟨fun h => hplus rest ?_, fun h => hminus rest ?_⟩
      · rw [Option.some.inj h]
      · rw [Option.some.inj h]

theorem unsigned_digits {digits : Str} (hne : digits ≠ []) (hall : digits.all Char.isDigit)
    (rest : Str) : Unsigned (digits ++ rest) := by
  cases digits with
  | nil => exact absurd rfl hne
  | cons c tail =>
    have hc : c.isDigit := all_eq_true.mp hall c mem_cons_self
    refine ⟨fun h => ?_, fun h => ?_⟩
    · rw [Option.some.inj (show some c = some '+' from h)] at hc
      exact absurd hc (by decide)
    · rw [Option.some.inj (show some c = some '-' from h)] at hc
      exact absurd hc (by decide)

theorem Numeral.splitSign_text (n : Numeral) : splitSign n.text = (n.sign.value, n.digits) := by
  apply DateCalc.splitSign_text
  intro _
  rw [← append_nil n.digits]
  exact unsigned_digits n.digits_ne n.digits_all []

theorem Offset.splitSign_text (w : Offset) :
    splitSign w.text = (w.sign.value, w.number.text ++ [w.unit]) := by
  apply DateCalc.splitSign_text
  intro hsign
  rw [Numeral.text, w.first hsign]
  exact unsigned_digits w.number.digits_ne w.number.digits_all [w.unit]

theorem parseI64_text (n : Numeral) :
    parseI64 n.text = if InI64 n.value then some n.value else none := by
  unfold parseI64
  rw [n.splitSign_text]
  by_cases hfits : InI64 n.value
  · rw [if_pos hfits]
    exact if_pos ⟨n.digits_ne, n.digits_all, hfits⟩
  · rw [if_neg hfits]
    exact if_neg fun h => hfits h.2.2

theorem exists_numeral {s : Str} {n : ℤ} (h : parseI64 s = some n) :
    ∃ w : Numeral, w.text = s ∧ w.value = n ∧ InI64 n := by
  obtain ⟨sign, htext, hvalue, -⟩ := exists_sign s
  unfold parseI64 at h
  dsimp only at h
  split at h
  · rename_i hdigits
    obtain ⟨hne, hall, hfits⟩ := hdigits
    obtain rfl := Option.some.inj h
    rw [hvalue] at hfits ⊢
    exact ⟨⟨sign, (splitSign s).2, hne, hall⟩, htext.symm, rfl, hfits⟩
  · cases h

theorem Offset.text_inj {w w' : Offset} (h : w.text = w'.text) :
    w.num = w'.num ∧ w.unit = w'.unit := by
  have hsplit := w.splitSign_text
  rw [h, w'.splitSign_text] at hsplit
  obtain ⟨hsign, hrest⟩ := Prod.mk.inj hsplit
  obtain ⟨hnumber, hunit⟩ := append_inj' hrest rfl
  have hdigits := w.number.splitSign_text
  rw [← hnumber, w'.number.splitSign_text] at hdigits
  obtain ⟨hinner, hdigits⟩ := Prod.mk.inj hdigits
  refine ⟨?_, (List.cons.inj hunit).1.symm⟩
  rw [Offset.num, Offset.num, Numeral.value, Numeral.value, hsign, hinner, hdigits]

end Texts

section Runs

variable (l : Locale) {base : NaiveDate}

theorem applyOffset_text (w : Offset) (hfits : InI64 w.number.value) :
    applyOffset l base w.text = checked InI64 w.num >>= addUnit l base w.unit := by
  unfold applyOffset
  rw [w.splitSign_text]
  simp only [getLast?_concat, dropLast_concat, parseI64_text, if_pos hfits]
  rfl

theorem exists_offset {s : Str}
    (h : ∀ message, applyOffset l base s ≠ .error (.refused message)) :
    ∃ w : Offset, w.text = s ∧ InI64 w.number.value := by
  obtain ⟨sign, htext, -, hunsigned⟩ := exists_sign s
  unfold applyOffset at h
  dsimp only at h
  cases hlast : (splitSign s).2.getLast? with
  | none =>
    rw [hlast] at h
    exact absurd rfl (h _)
  | some unit =>
    cases hparse : parseI64 (splitSign s).2.dropLast with
    | none =>
      rw [hlast, hparse] at h
      exact absurd rfl (h _)
    | some n =>
      obtain ⟨number, hnumber, rfl, hfits⟩ := exists_numeral hparse
      have hrest : number.text ++ [unit] = (splitSign s).2 := by
        rw [hnumber]
        exact dropLast_append_getLast? unit hlast
      refine ⟨⟨sign, number, unit, fun hsign => ?_⟩, ?_, hfits⟩
      · obtain ⟨hplus, hminus⟩ := hunsigned hsign
        rw [← hrest, Numeral.text] at hplus hminus
        cases hinner : number.sign with
        | none => rfl
        | plus => exact absurd (by rw [hinner]; rfl) hplus
        | minus => exact absurd (by rw [hinner]; rfl) hminus
      · show sign.text ++ (number.text ++ [unit]) = s
        rw [hrest, ← htext]

/-- The date that an offset asks for. -/
def Asked (base : NaiveDate) (w : Offset) (d : NaiveDate) : Prop :=
  ∃ u, OffsetUnit.ofChar? w.unit = some u ∧ IsAway base w.num u d

theorem applyOffset_exact_iff (w : Offset) (hfits : InI64 w.number.value) :
    Exact (Asked base w) (applyOffset l base w.text) ↔
      InI64 w.num ∧ ∀ u, OffsetUnit.ofChar? w.unit = some u → InReach base w.num u := by
  rw [applyOffset_text l w hfits]
  by_cases hnum : InI64 w.num
  · have hcheck : checked InI64 w.num = .ok w.num := if_pos hnum
    rw [hcheck, ok_bind, addUnit]
    cases hunit : OffsetUnit.ofChar? w.unit with
    | none => exact ⟨fun _ => ⟨hnum, nofun⟩, fun _ => trivial⟩
    | some u =>
      have hasked : Asked base w = IsAway base w.num u := by
        funext d
        simp [Asked, hunit]
      rw [hasked]
      constructor
      · intro h
        refine ⟨hnum, fun u' hu' => ?_⟩
        obtain rfl := Option.some.inj hu'
        exact (addUnits_exact_iff u).mp h
      · intro h
        exact (addUnits_exact_iff u).mpr (h.2 u rfl)
  · have hcheck : checked InI64 w.num = .error .fault := if_neg hnum
    rw [hcheck]
    exact ⟨False.elim, fun h => hnum h.1⟩

/-- A call is refused or answers with the date that its offset asks for. -/
def Honored (args : DateCalcArgs) : Except Halt OffsetReply → Prop
  | .ok reply => offsetBase l args = .ok reply.base ∧ nonBlank args.offset = some reply.offset ∧
      ∃ w : Offset, w.text = reply.offset ∧ Asked reply.base w reply.result
  | .error (.refused _) => True
  | .error .fault => False

theorem offsetBase_ne_fault {args : DateCalcArgs} : offsetBase l args ≠ .error .fault := by
  unfold offsetBase
  dsimp only
  split
  · nofun
  · split
    · nofun
    · intro h
      cases h

theorem runOffset_eq {args : DateCalcArgs} {offset : Str} (hbase : offsetBase l args = .ok base)
    (hoffset : nonBlank args.offset = some offset) :
    runOffset l args = applyOffset l base offset >>= fun d => .ok ⟨base, offset, d⟩ := by
  unfold runOffset
  rw [hbase, hoffset]
  rfl

theorem offset_honored_iff (args : DateCalcArgs) : Honored l args (runOffset l args) ↔
    ∀ base (w : Offset), offsetBase l args = .ok base → nonBlank args.offset = some w.text →
      InI64 w.number.value →
      InI64 w.num ∧ ∀ u, OffsetUnit.ofChar? w.unit = some u → InReach base w.num u := by
  constructor
  · intro h base w hbase hoffset hfits
    apply (applyOffset_exact_iff l w hfits).mp
    rw [runOffset_eq l hbase hoffset] at h
    cases hrun : applyOffset l base w.text with
    | ok d =>
      rw [hrun] at h
      obtain ⟨-, -, w', htext, u, hu, haway⟩ := h
      obtain ⟨hnum, hunit⟩ := Offset.text_inj htext
      rw [hunit] at hu
      rw [hnum] at haway
      exact ⟨u, hu, haway⟩
    | error halt =>
      cases halt with
      | refused message => trivial
      | fault =>
        rw [hrun] at h
        exact h
  · intro h
    cases hbase : offsetBase l args with
    | error halt =>
      cases halt with
      | refused message =>
        unfold runOffset
        rw [hbase]
        trivial
      | fault => exact absurd hbase (offsetBase_ne_fault l)
    | ok base =>
      cases hoffset : nonBlank args.offset with
      | none =>
        unfold runOffset
        rw [hbase, hoffset]
        trivial
      | some offset =>
        rw [runOffset_eq l hbase hoffset]
        cases hrun : applyOffset l base offset with
        | ok d =>
          have haccepted : ∀ message, applyOffset l base offset ≠ .error (.refused message) := by
            rw [hrun]
            nofun
          obtain ⟨w, rfl, hfits⟩ := exists_offset l haccepted
          have hexact := (applyOffset_exact_iff l w hfits).mpr (h base w hbase hoffset hfits)
          rw [hrun] at hexact
          exact ⟨hbase, hoffset, w, rfl, hexact⟩
        | error halt =>
          cases halt with
          | refused message => trivial
          | fault =>
            have haccepted : ∀ message, applyOffset l base offset ≠ .error (.refused message) := by
              rw [hrun]
              nofun
            obtain ⟨w, rfl, hfits⟩ := exists_offset l haccepted
            have hexact := (applyOffset_exact_iff l w hfits).mpr (h base w hbase hoffset hfits)
            rw [hrun] at hexact
            exact hexact.elim

/-- A difference leads from its first date to its last, and its weeks and days add up to it. -/
theorem runDiff_exact {args : DateCalcArgs} {r : DiffReply} (h : runDiff l args = .ok r) :
    r.start.addDays r.days = some r.stop ∧ 7 * r.weeks + r.remDays = r.days := by
  obtain ⟨fromText, -, h⟩ := bind_eq_ok.mp h
  obtain ⟨toText, -, h⟩ := bind_eq_ok.mp h
  obtain ⟨first, -, h⟩ := bind_eq_ok.mp h
  obtain ⟨last, -, h⟩ := bind_eq_ok.mp h
  obtain rfl := Except.ok.inj h
  refine ⟨addDays_eq_some_iff.mpr ?_, Int.mul_tdiv_add_tmod _ 7⟩
  show last.dayNumber = first.dayNumber + (last.dayNumber - first.dayNumber)
  omega

/-- The end of January 2024 on a clock that reads no other date. -/
def january : NaiveDate := ⟨⟨2024, 1, 31, by decide, by decide, by decide, by decide⟩, by decide,
  by decide⟩

def januaryLocale : Locale :=
  { today := january, parseYmd := fun _ => none, debug := fun _ => "" }

/-- Months beyond the calendar are answered with the base date, days beyond it stop the call. -/
theorem offset_beyond_calendar_is_not_honored :
    ¬Honored januaryLocale { offset := some "+9999999m".toList }
      (runOffset januaryLocale { offset := some "+9999999m".toList }) ∧
    ¬Honored januaryLocale { offset := some "+999999999999d".toList }
      (runOffset januaryLocale { offset := some "+999999999999d".toList }) := by
  constructor
  · have hrun : runOffset januaryLocale { offset := some "+9999999m".toList } =
      .ok ⟨january, "+9999999m".toList, january⟩ := by decide +kernel
    rw [hrun]
    rintro ⟨-, -, w, htext, u, hu, haway⟩
    have hwritten : w.text =
        Offset.text ⟨.plus, ⟨.none, "9999999".toList, by decide, by decide⟩, 'm', nofun⟩ := htext
    obtain ⟨hnum, hunit⟩ := Offset.text_inj hwritten
    rw [hunit] at hu
    obtain rfl : OffsetUnit.months = u := Option.some.inj hu
    have hmonths : monthIndex january.toDate = monthIndex january.toDate + 9999999 := by
      rw [hnum] at haway
      exact haway.1
    omega
  · have hrun : runOffset januaryLocale { offset := some "+999999999999d".toList } =
      .error .fault := by decide +kernel
    rw [hrun]
    exact id

end Runs

end CrabMate.DateCalc
