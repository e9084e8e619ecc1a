import CrabMate.Lib.Calendar
import CrabMate.Lib.Str

/-! `date_calc`: the days between two dates, and the date some days, weeks or months from another.
The numbers come from the user and pass through machine integers and the date library's own
bounds. -/
namespace CrabMate.DateCalc
open RustStr Calendar

/-- How a call ends early: it is refused with a message, or it runs into an overflow or a panic of
the date library. -/
inductive Halt where
  | refused (message : String)
  | fault
  deriving DecidableEq

def InI64 (n : ℤ) : Prop := -9223372036854775808 ≤ n ∧ n ≤ 9223372036854775807

def InI32 (n : ℤ) : Prop := -2147483648 ≤ n ∧ n ≤ 2147483647

instance : DecidablePred InI64 := fun n => by unfold InI64; infer_instance

instance : DecidablePred InI32 := fun n => by unfold InI32; infer_instance

/-- A result of machine arithmetic that has to fit. -/
def checked (P : ℤ → Prop) [DecidablePred P] (n : ℤ) : Except Halt ℤ :=
  if P n then .ok n else .error .fault

def minYear : ℤ := -262143

def maxYear : ℤ := 262142

/-- A date of the date library. -/
structure NaiveDate extends Date where
  min_le : minYear ≤ year
  le_max : year ≤ maxYear
  deriving DecidableEq

namespace NaiveDate

def ofDate? (d : Date) : Option NaiveDate :=
  if h : minYear ≤ d.year ∧ d.year ≤ maxYear then
    some { toDate := d, min_le := h.1, le_max := h.2 }
  else none

def fromYmdOpt (year : ℤ) (month day : ℕ) : Option NaiveDate :=
  if h : (1 ≤ month ∧ month ≤ 12) ∧ 1 ≤ day ∧ day ≤ monthLength year month then
    ofDate? ⟨year, month, day, h.1.1, h.1.2, h.2.1, h.2.2⟩
  else none

def addDays (d : NaiveDate) (n : ℤ) : Option NaiveDate := ofDate? (ofDayNumber (d.dayNumber + n))

def predOpt (d : NaiveDate) : Option NaiveDate := d.addDays (-1)

def month0 (d : NaiveDate) : ℕ := d.month - 1

end NaiveDate

/-- The longest duration, in seconds. -/
def durationMax : ℤ := 9223372036854775

def durationSeconds (secs : ℤ) : Except Halt ℤ :=
  checked (fun s => -durationMax ≤ s ∧ s ≤ durationMax) secs

def durationDays (n : ℤ) : Except Halt ℤ := durationSeconds (n * 86400)

def durationWeeks (n : ℤ) : Except Halt ℤ := durationSeconds (n * 604800)

/-- `NaiveDate + Duration`. -/
def addDuration (d : NaiveDate) (secs : ℤ) : Except Halt NaiveDate := do
  let days ← checked InI32 (secs.tdiv 86400)
  (d.addDays days).elim (.error .fault) .ok

/-- The clock of the call, and how the date library reads dates and shows texts. -/
structure Locale where
  today : NaiveDate
  parseYmd : Str → Option NaiveDate
  debug : Str → String

inductive DateCalcMode where
  | offset
  | diff
  deriving DecidableEq

structure DateCalcArgs where
  mode : Option DateCalcMode := none
  fromDate : Option Str := none
  toDate : Option Str := none
  base : Option Str := none
  offset : Option Str := none

section Calls

variable (l : Locale)

def parseDate (s : Str) : Option NaiveDate := l.parseYmd (trim s)

/-- A text that is there and not blank, without the white space around it. -/
def nonBlank (raw : Option Str) : Option Str := (raw.map trim).filter fun s => !s.isEmpty

structure DiffReply where
  start : NaiveDate
  stop : NaiveDate
  days : ℤ
  deriving DecidableEq

def DiffReply.weeks (r : DiffReply) : ℤ := r.days.tdiv 7

def DiffReply.remDays (r : DiffReply) : ℤ := r.days.tmod 7

def diffText (field : String) (raw : Option Str) : Except Halt Str :=
  match nonBlank raw with
  | none => .error (.refused s!"错误：diff 模式需要 {field} 参数（YYYY-MM-DD）")
  | some s => .ok s

def diffDate (field : String) (s : Str) : Except Halt NaiveDate :=
  match parseDate l s with
  | some d => .ok d
  | none =>
    let shown := l.debug s
    .error (.refused s!"错误：无法解析 {field} 日期 {shown}（格式 YYYY-MM-DD）")

def runDiff (args : DateCalcArgs) : Except Halt DiffReply := do
  let fromText ← diffText "from" args.fromDate
  let toText ← diffText "to" args.toDate
  let first ← diffDate l "from" fromText
  let last ← diffDate l "to" toText
  pure ⟨first, last, last.dayNumber - first.dayNumber⟩

/-- The first sign of a text, and the rest. -/
def splitSign : Str → ℤ × Str
  | '+' :: rest => (1, rest)
  | '-' :: rest => (-1, rest)
  | s => (1, s)

/-- `str::parse::<i64>`. -/
def parseI64 (s : Str) : Option ℤ :=
  let digits := (splitSign s).2
  let n := (splitSign s).1 * Nat.ofDigitChars 10 digits 0
  if digits ≠ [] ∧ digits.all Char.isDigit ∧ InI64 n then some n else none

def daysInMonth (year : ℤ) (month : ℕ) : Except Halt ℕ := do
  let nextYear ← checked InI32 (if month = 12 then year + 1 else year)
  let first := NaiveDate.fromYmdOpt nextYear (if month = 12 then 1 else month + 1) 1
  pure ((first.map fun d => (d.predOpt.map fun p => p.day).getD 28).getD 28)

def addMonths (base : NaiveDate) (num : ℤ) : Except Halt NaiveDate := do
  let month ← checked InI32 (base.month0 + num.bmod 4294967296)
  let year ← checked InI32 (base.year + month / 12)
  let m := (month % 12 + 1).toNat
  let last ← daysInMonth year m
  pure ((NaiveDate.fromYmdOpt year m (min base.day last)).getD base)

inductive OffsetUnit where
  | days
  | weeks
  | months
  deriving DecidableEq

def OffsetUnit.ofChar? : Char → Option OffsetUnit
  | 'd' => some .days
  | 'w' => some .weeks
  | 'm' => some .months
  | _ => none

def addUnits (base : NaiveDate) (num : ℤ) : OffsetUnit → Except Halt NaiveDate
  | .days => durationDays num >>= addDuration base
  | .weeks => durationWeeks num >>= addDuration base
  | .months => addMonths base num

structure OffsetReply where
  base : NaiveDate
  offset : Str
  result : NaiveDate
  deriving DecidableEq

def offsetBase (args : DateCalcArgs) : Except Halt NaiveDate :=
  let raw := args.base.getD []
  if (trim raw).isEmpty then .ok l.today
  else
    match parseDate l raw with
    | some d => .ok d
    | none =>
      let shown := l.debug raw
      .error (.refused s!"错误：无法解析 base 日期 {shown}（格式 YYYY-MM-DD）")

def addUnit (base : NaiveDate) (unit : Char) (num : ℤ) : Except Halt NaiveDate :=
  match OffsetUnit.ofChar? unit with
  | some u => addUnits base num u
  | none =>
    let shown := l.debug [unit]
    .error (.refused s!"错误：未知偏移单位 {shown}（支持 d/w/m）")

/-- The date an offset leads to: a sign, a number that may have a sign of its own, and a unit. -/
def applyOffset (base : NaiveDate) (offset : Str) : Except Halt NaiveDate :=
  let (sign, rest) := splitSign offset
  match rest.getLast? with
  | none =>
    let shown := l.debug offset
    .error (.refused s!"错误：无法解析偏移量 {shown}")
  | some unit =>
    match parseI64 rest.dropLast with
    | none =>
      let shown := l.debug offset
      .error (.refused s!"错误：无法解析偏移量数值 {shown}")
    | some n => checked InI64 (n * sign) >>= addUnit l base unit

def runOffset (args : DateCalcArgs) : Except Halt OffsetReply := do
  let base ← offsetBase l args
  match nonBlank args.offset with
  | none => .error (.refused "错误：offset 模式需要 offset 参数（如 +30d, -2w, +1m）")
  | some offset =>
    let result ← applyOffset l base offset
    pure ⟨base, offset, result⟩

end Calls

end CrabMate.DateCalc
