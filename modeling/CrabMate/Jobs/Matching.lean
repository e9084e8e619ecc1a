import CrabMate.Lib.Search
import CrabMate.Jobs.Polling

/-! Waiting until a text turns up in the output of a job. Each wake-up searches what is new, with
the end of what was searched before carried on. -/
namespace CrabMate
open Run RustStr List Option

section Model

/-- What a waiter keeps between its wake-ups. -/
structure Scan where
  scanCursor : ℕ
  carry : Str
  deriving DecidableEq

def chunkText (items : List OutputEvent) : Str := items.flatMap fun e => e.text.toList

/-- One page: whether the pattern is in it or across the seam in front of it, and what is
carried on. -/
def scanPage (pattern : Str) (scan : Scan) (read : OutputLogRead) : Bool × Scan :=
  let keep := utf8Len pattern - 1
  let chunk := chunkText read.items
  if contains pattern chunk then (true, scan)
  else
    let head := headBytes chunk keep
    if !scan.carry.isEmpty && !head.isEmpty && contains pattern (scan.carry ++ head) then
      (true, scan)
    else
      (false, {
        scanCursor := read.nextCursor
        carry := if keep ≤ utf8Len chunk then tailBytes chunk keep
          else tailBytes (scan.carry ++ chunk) keep })

/-- Page after page, with a bound on the rounds. -/
def scanLoop (log : JobOutputLog) (pattern : Str) : ℕ → Scan → Bool × Scan
  | 0, scan => (false, scan)
  | rounds + 1, scan =>
    let read := log.read (some scan.scanCursor)
    if read.items.isEmpty then (false, scan)
    else
      let (hit, scan) := scanPage pattern scan read
      if hit then (true, scan)
      else if read.items.length < maxItemsPerResponse then (false, scan)
      else scanLoop log pattern rounds scan

def scanOutputLocked (g : Inner) (id : String) (pattern : Str) (scan : Scan) : Bool × Scan :=
  match g.outputs.lookup id with
  | none => (false, scan)
  | some (_, log) => scanLoop log pattern (log.events.length + 1) scan

inductive WaitOutcome where
  | hit (status : JobStatus) (matched : Bool)
  | cancelRequested (status : JobStatus)
  | expired
  | notFound
  deriving DecidableEq

def WaitOutcome.matched : WaitOutcome → Bool
  | .hit _ matched => matched
  | _ => false

/-- One wake-up of `wait_for`: an outcome ends the wait. The deadline comes after it. -/
def waitCheck (g : Inner) (id : String) (pattern : Option Str) (scan : Scan) :
    Option WaitOutcome × Scan :=
  match g.jobs.lookup id with
  | none => (some (if g.expired.any (· = id) then .expired else .notFound), scan)
  | some record =>
    if record.status.isTerminal then (some (.hit record.status false), scan)
    else
      let (found, scan) := match pattern with
        | some p => scanOutputLocked g id p scan
        | none => (false, scan)
      if found then (some (.hit record.status true), scan)
      else if record.cancelRequested then (some (.cancelRequested record.status), scan)
      else (none, scan)

end Model

section Pages

variable {pattern front : Str} {scan : Scan} {read : OutputLogRead}

theorem chunkText_append (xs ys : List OutputEvent) :
    chunkText (xs ++ ys) = chunkText xs ++ chunkText ys := flatMap_append

/-- What is carried on, when the carried text ends what was seen. -/
theorem scanPage_sound (hcarry : scan.carry <:+ front) :
    ((scanPage pattern scan read).1 = true → pattern <:+: front ++ chunkText read.items) ∧
      ((scanPage pattern scan read).1 = false →
        (scanPage pattern scan read).2.carry <:+ front ++ chunkText read.items ∧
          (scanPage pattern scan read).2.scanCursor = read.nextCursor) := by
  rw [scanPage]
  simp only
  split
  · next hchunk =>
    refine ⟨fun _ => ?_, fun h => nomatch h⟩
    exact ((contains_iff _ _).mp hchunk).trans (suffix_append _ _).isInfix
  · split
    · next hseam =>
      refine ⟨fun _ => ?_, fun h => nomatch h⟩
      simp only [Bool.and_eq_true, contains_iff] at hseam
      obtain ⟨a, rfl⟩ := hcarry
      obtain ⟨b, hb⟩ := headBytes_isPrefix (chunkText read.items) (utf8Len pattern - 1)
      have hhead : a ++ (scan.carry ++
          headBytes (chunkText read.items) (utf8Len pattern - 1)) ++ b =
            a ++ scan.carry ++ chunkText read.items := by
        nth_rewrite 2 [← hb]
        simp
      exact hseam.2.trans ⟨a, b, hhead⟩
    · refine ⟨(fun h => nomatch h), fun _ => ⟨?_, rfl⟩⟩
      split
      · exact (tailBytes_suffix _ _).trans (suffix_append _ _)
      · obtain ⟨a, rfl⟩ := hcarry
        exact (tailBytes_suffix _ _).trans ⟨a, (append_assoc _ _ _).symm⟩

/-- A page is exact when the carried text is the longest end of what was seen that the pattern
can start in. -/
theorem scanPage_exact (hcarry : scan.carry = tailBytes front (utf8Len pattern - 1))
    (hnew : ¬ pattern <:+: front) :
    ((scanPage pattern scan read).1 = true ↔ pattern <:+: front ++ chunkText read.items) ∧
      ((scanPage pattern scan read).1 = false → (scanPage pattern scan read).2.carry =
        tailBytes (front ++ chunkText read.items) (utf8Len pattern - 1)) := by
  rw [infix_append_iff_seam, scanPage, hcarry]
  simp only
  split
  · next hchunk =>
    refine ⟨iff_of_true rfl (Or.inr (Or.inl ?_)), fun h => nomatch h⟩
    exact (contains_iff _ _).mp hchunk
  · next hchunk =>
    rw [contains_iff] at hchunk
    split
    · next hseam =>
      simp only [Bool.and_eq_true, contains_iff] at hseam
      exact ⟨iff_of_true rfl (Or.inr (Or.inr hseam.2)), fun h => nomatch h⟩
    · next hseam =>
      refine ⟨iff_of_false (fun h => nomatch h) ?_, fun _ => ?_⟩
      · rintro (h | h | h)
        · exact hnew h
        · exact hchunk h
        · -- with nothing on one side of the seam there is nothing across it
          by_cases htail : tailBytes front (utf8Len pattern - 1) = []
          · rw [htail, nil_append] at h
            exact hchunk (h.trans (headBytes_isPrefix _ _).isInfix)
          · by_cases hhead : headBytes (chunkText read.items) (utf8Len pattern - 1) = []
            · rw [hhead, append_nil] at h
              exact hnew (h.trans (tailBytes_suffix _ _).isInfix)
            · exact hseam (by simpa [htail, hhead, contains_iff] using h)
      · split
        · next hlong => exact (tailBytes_append_of_le hlong front).symm
        · exact tailBytes_tailBytes_append front _ _

end Pages

section Loop

variable {log : JobOutputLog} {pushed : List OutputEvent} {dropped : ℕ} {pattern : Str}

/-- The number in front of which a read starts. -/
def readFrom (dropped : ℕ) (scan : Scan) : ℕ := max scan.scanCursor (dropped + 1) - 1

/-- A page goes on where the text in front of it ends. -/
theorem read_page (hlog : log.Holds pushed dropped) (hnum : Numbered pushed) (scan : Scan) :
    (log.read (some scan.scanCursor)).items =
        (pushed.drop (readFrom dropped scan)).take maxItemsPerResponse ∧
      (log.read (some scan.scanCursor)).nextCursor =
        readFrom dropped scan + 1 + (log.read (some scan.scanCursor)).items.length := by
  have hread := @JobOutputLog.read_eq log pushed dropped hlog hnum (some scan.scanCursor) _ rfl
  rw [getD_some] at hread
  rw [hread, readFrom]
  exact ⟨rfl, by simp only; omega⟩

theorem chunkText_page (n : ℕ) {items : List OutputEvent}
    (hitems : items = (pushed.drop n).take maxItemsPerResponse) :
    chunkText (pushed.take n) ++ chunkText items = chunkText (pushed.take (n + items.length)) := by
  have hprefix : items = (pushed.drop n).take items.length := by
    rw [hitems, length_take, take_eq_take_iff]
    omega
  rw [take_add, chunkText_append, ← hprefix]

theorem readFrom_next (hlog : log.Holds pushed dropped) (hnum : Numbered pushed) (scan : Scan)
    (carry : Str) :
    readFrom dropped ⟨(log.read (some scan.scanCursor)).nextCursor, carry⟩ =
      readFrom dropped scan + (log.read (some scan.scanCursor)).items.length := by
  have hnext := (read_page hlog hnum scan).2
  simp only [readFrom] at hnext ⊢
  omega

theorem chunkText_take_isInfix (pushed : List OutputEvent) (n : ℕ) :
    chunkText (pushed.take n) <:+: chunkText pushed := by
  have hsplit := chunkText_append (pushed.take n) (pushed.drop n)
  rw [take_append_drop] at hsplit
  rw [hsplit]
  exact (prefix_append _ _).isInfix

/-- The loop reports only what is there, and carries on an end of what was seen. -/
theorem scanLoop_sound (hlog : log.Holds pushed dropped) (hnum : Numbered pushed) (rounds : ℕ)
    {scan : Scan} (hcarry : scan.carry <:+ chunkText (pushed.take (readFrom dropped scan))) :
    ((scanLoop log pattern rounds scan).1 = true → pattern <:+: chunkText pushed) ∧
      ((scanLoop log pattern rounds scan).1 = false →
        (scanLoop log pattern rounds scan).2.carry <:+
          chunkText (pushed.take (readFrom dropped (scanLoop log pattern rounds scan).2))) := by
  induction rounds generalizing scan with
  | zero => exact ⟨(fun h => nomatch h), fun _ => hcarry⟩
  | succ rounds ih =>
    obtain ⟨hitems, -⟩ := read_page hlog hnum scan
    obtain ⟨hhit, hmiss⟩ := @scanPage_sound pattern _ scan (log.read (some scan.scanCursor)) hcarry
    rw [chunkText_page _ hitems] at hhit hmiss
    rw [scanLoop]
    simp only
    split
    · exact ⟨(fun h => nomatch h), fun _ => hcarry⟩
    · cases hpage : scanPage pattern scan (log.read (some scan.scanCursor)) with
      | mk found next =>
        rw [hpage] at hhit hmiss
        cases found with
        | true =>
          exact ⟨fun _ => (hhit rfl).trans (chunkText_take_isInfix _ _), (fun h => nomatch h)⟩
        | false =>
          obtain ⟨hcarried, hcursor⟩ := hmiss rfl
          have hnext : readFrom dropped next =
              readFrom dropped scan + (log.read (some scan.scanCursor)).items.length := by
            rw [← readFrom_next hlog hnum scan next.carry, ← hcursor]
          rw [← hnext] at hcarried
          simp only [Bool.false_eq_true, if_false]
          split
          · exact ⟨(fun h => nomatch h), fun _ => hcarried⟩
          · exact ih hcarried

/-- With nothing lost in front of it the loop searches all that was pushed. -/
theorem scanLoop_exact (hlog : log.Holds pushed dropped) (hnum : Numbered pushed) (rounds : ℕ)
    {scan : Scan} (hreached : readFrom dropped scan ≤ pushed.length)
    (hrounds : pushed.length - readFrom dropped scan < rounds)
    (hcarry : scan.carry =
      tailBytes (chunkText (pushed.take (readFrom dropped scan))) (utf8Len pattern - 1))
    (hnew : ¬ pattern <:+: chunkText (pushed.take (readFrom dropped scan))) :
    ((scanLoop log pattern rounds scan).1 = true ↔ pattern <:+: chunkText pushed) ∧
      ((scanLoop log pattern rounds scan).1 = false →
        readFrom dropped (scanLoop log pattern rounds scan).2 = pushed.length ∧
          (scanLoop log pattern rounds scan).2.carry =
            tailBytes (chunkText pushed) (utf8Len pattern - 1)) := by
  induction rounds generalizing scan with
  | zero => exact absurd hrounds (Nat.not_lt_zero _)
  | succ rounds ih =>
    obtain ⟨hitems, -⟩ := read_page hlog hnum scan
    have hlen := congrArg List.length hitems
    rw [length_take, length_drop] at hlen
    obtain ⟨hhit, hmiss⟩ := @scanPage_exact pattern _ scan (log.read (some scan.scanCursor))
      hcarry hnew
    rw [chunkText_page _ hitems] at hhit hmiss
    have hall : pushed.length ≤ readFrom dropped scan +
        (log.read (some scan.scanCursor)).items.length → pushed.take (readFrom dropped scan +
          (log.read (some scan.scanCursor)).items.length) = pushed := take_of_length_le
    rw [scanLoop]
    simp only
    split
    · next hnil =>
      -- there is nothing new
      have hzero := length_eq_zero_iff.mpr (List.isEmpty_iff.mp hnil)
      have hend : readFrom dropped scan = pushed.length := by
        have hpage : 0 < maxItemsPerResponse := by decide
        omega
      rw [hend, take_length] at hcarry hnew
      exact ⟨iff_of_false (fun h => nomatch h) hnew, fun _ => ⟨hend, hcarry⟩⟩
    · next hsome =>
      cases hpage : scanPage pattern scan (log.read (some scan.scanCursor)) with
      | mk found next =>
        have hcursor : found = false → next.scanCursor =
            (log.read (some scan.scanCursor)).nextCursor := by
          rintro rfl
          have hsound := (@scanPage_sound pattern scan.carry scan
            (log.read (some scan.scanCursor)) (suffix_refl _)).2
          rw [hpage] at hsound
          exact (hsound rfl).2
        rw [hpage] at hhit hmiss
        cases found with
        | true =>
          refine ⟨iff_of_true rfl ?_, (fun h => nomatch h)⟩
          exact (hhit.mp rfl).trans (chunkText_take_isInfix _ _)
        | false =>
          have hnext : readFrom dropped next =
              readFrom dropped scan + (log.read (some scan.scanCursor)).items.length := by
            rw [← readFrom_next hlog hnum scan next.carry, ← hcursor rfl]
          have hcarried := hmiss rfl
          have hnew' := mt hhit.mpr (fun h => nomatch h)
          rw [← hnext] at hcarried hnew' hall
          have hpos : 0 < (log.read (some scan.scanCursor)).items.length := by
            rw [length_pos_iff]
            simpa using hsome
          simp only [Bool.false_eq_true, if_false]
          split
          · next hshort =>
            -- a short page is the last one
            have hend : pushed.length ≤ readFrom dropped next := by omega
            rw [hall hend] at hcarried hnew'
            refine ⟨iff_of_false (fun h => nomatch h) hnew', fun _ => ⟨?_, hcarried⟩⟩
            simp only
            omega
          · exact ih (by omega) (by omega) hcarried hnew'

theorem scanPage_scan (pattern : Str) (scan : Scan) (read : OutputLogRead) :
    (scanPage pattern scan read).2 = scan ∨
      (scanPage pattern scan read).2.scanCursor = read.nextCursor := by
  rw [scanPage]
  simp only
  split
  · exact Or.inl rfl
  · split
    · exact Or.inl rfl
    · exact Or.inr rfl

/-- The cursor stays in front of what is to come, and moves behind what is gone. -/
theorem scanLoop_cursor (hlog : log.Holds pushed dropped) (hnum : Numbered pushed) (pattern : Str)
    (rounds : ℕ) (scan : Scan) :
    ((scanLoop log pattern rounds scan).2 = scan ∨
        dropped < (scanLoop log pattern rounds scan).2.scanCursor) ∧
      (scan.scanCursor ≤ pushed.length + 1 →
        (scanLoop log pattern rounds scan).2.scanCursor ≤ pushed.length + 1) := by
  induction rounds generalizing scan with
  | zero => exact ⟨Or.inl rfl, id⟩
  | succ rounds ih =>
    obtain ⟨hitems, hnext⟩ := read_page hlog hnum scan
    have hle := hlog.le
    have hlen := congrArg List.length hitems
    rw [length_take, length_drop] at hlen
    have hpage := scanPage_scan pattern scan (log.read (some scan.scanCursor))
    rw [scanLoop]
    simp only
    split
    · exact ⟨Or.inl rfl, id⟩
    · generalize scanPage pattern scan (log.read (some scan.scanCursor)) = page at hpage ⊢
      obtain ⟨found, next⟩ := page
      have hstep : (next = scan ∨ dropped < next.scanCursor) ∧
          (scan.scanCursor ≤ pushed.length + 1 → next.scanCursor ≤ pushed.length + 1) := by
        rcases hpage with h | h
        · have hsame : next = scan := h
          exact ⟨Or.inl hsame, fun hscan => hsame ▸ hscan⟩
        · simp only [readFrom] at h hnext hlen
          exact ⟨Or.inr (by omega), fun hscan => by omega⟩
      have hrest := ih next
      simp only
      split
      · exact hstep
      · split
        · exact hstep
        · refine ⟨?_, fun hscan => hrest.2 (hstep.2 hscan)⟩
          rcases hrest.1 with h | h
          · rw [h]
            exact hstep.1
          · exact Or.inr h

end Loop

section Runs

open JobSystem (oneAtATime inOrder drawnIds make)

/-- A job, the readers of its output and one waiter. The last two fields are ours: whether no
element has been dropped before it was searched, and how many there were at the last search. -/
structure WaitedJob where
  job : PolledJob
  scan : Scan
  outcome : Option WaitOutcome
  intact : Bool
  seen : ℕ
  deriving DecidableEq

inductive WaitingOp where
  | other (op : PollingOp)
  | wake

namespace WaitedJob

variable (limits : JobLimits) (genToolJobId : ℕ → String) (id : String)
  (pattern : {p : Str // p ≠ []}) (s : WaitedJob)

def new : WaitedJob := ⟨.new, ⟨0, []⟩, none, true, 0⟩

/-- The job is there and not over, so a wake-up searches its output. -/
def searches : Bool :=
  (s.job.jobs.inner.jobs.lookup id).any fun record => !record.status.isTerminal

/-- The ring still holds all that has not been searched. -/
def holdsUnsearched : Bool :=
  (s.job.jobs.inner.outputs.lookup id).all fun o =>
    o.2.events.head?.all fun e => e.seq ≤ max s.scan.scanCursor 1

def step : WaitingOp → WaitedJob
  | .other op => { s with job := s.job.step limits genToolJobId id op }
  | .wake =>
    if s.outcome.isSome then s
    else
      let (outcome, scan) := waitCheck s.job.jobs.inner id (some pattern.1) s.scan
      { s with
        scan := scan
        outcome := outcome
        intact := s.intact && (!s.searches id || s.holdsUnsearched id)
        seen := if s.searches id then s.job.pushed.length else s.seen }

/-- The wait ended with a match. -/
def matched : Bool := s.outcome.any WaitOutcome.matched

def Permits : WaitingOp → Prop
  | .other op => s.job.Permits genToolJobId op
  | .wake => True

instance (op : WaitingOp) : Decidable (s.Permits genToolJobId op) :=
  match op with
  | .other op => inferInstanceAs (Decidable (s.job.Permits genToolJobId op))
  | .wake => .isTrue trivial

/-- A wake-up finds nothing carried, or the text behind what is carried. -/
def Seamless : WaitingOp → Prop
  | .other _ => True
  | .wake => s.scan.carry = [] ∨ (s.job.jobs.inner.outputs.lookup id).all fun o =>
      !(o.2.read (some s.scan.scanCursor)).truncated

instance (op : WaitingOp) : Decidable (s.Seamless id op) :=
  match op with
  | .other _ => .isTrue trivial
  | .wake => inferInstanceAs (Decidable (_ ∨ _))

/-- What is carried ends what was searched. -/
structure Sound : Prop where
  matched : s.matched → pattern.1 <:+: chunkText s.job.pushed
  carry : s.outcome = none → s.scan.carry <:+ chunkText (s.job.pushed.take (s.scan.scanCursor - 1))

/-- Nothing was missed. -/
structure Exact : Prop where
  seen : s.seen ≤ s.job.pushed.length
  matched : s.matched ↔ pattern.1 <:+: chunkText (s.job.pushed.take s.seen)
  cursor : s.outcome = none → s.scan.scanCursor - 1 = s.seen
  carry : s.outcome = none → s.scan.carry =
    tailBytes (chunkText (s.job.pushed.take s.seen)) (utf8Len pattern.1 - 1)

structure Good : Prop where
  job : s.job.Good limits id
  reached : s.outcome = none → s.scan.scanCursor ≤ s.job.pushed.length + 1
  exact : s.intact → s.Exact pattern

variable {limits genToolJobId id pattern s}

theorem new_good : Good limits id pattern new where
  job := PolledJob.new_good
  reached := fun _ => Nat.zero_le _
  exact := fun _ => {
    seen := Nat.le_refl _
    matched := by
      simp [new, matched, PolledJob.new, chunkText, pattern.2]
    cursor := fun _ => rfl
    carry := fun _ => rfl }

theorem new_sound : Sound pattern new where
  matched := fun h => by cases h
  carry := fun _ => nil_suffix

theorem pushed_step (job : PolledJob) (op : PollingOp) :
    ∃ more, (job.step limits genToolJobId id op).pushed = job.pushed ++ more := by
  cases op with
  | registry op => exact ⟨job.pushes id op, rfl⟩
  | poll now =>
    refine ⟨[], ?_⟩
    simp only [PolledJob.step]
    split <;> simp

theorem Good.other (hs : s.Good limits id pattern) (op : PollingOp)
    (hop : s.job.Permits genToolJobId op) :
    Good limits id pattern (s.step limits genToolJobId id pattern (.other op)) := by
  obtain ⟨more, hmore⟩ := @pushed_step limits genToolJobId id s.job op
  refine ⟨PolledJob.step_good hs.job op hop, fun hnone => ?_, fun hintact => ?_⟩
  · have hle := hs.reached hnone
    simp only [step, hmore, length_append]
    omega
  · have hexact := hs.exact hintact
    have hseen := hexact.seen
    have htake : (s.job.pushed ++ more).take s.seen = s.job.pushed.take s.seen :=
      take_append_of_le_length hseen
    refine ⟨?_, ?_, hexact.cursor, fun hnone => ?_⟩
    · simp only [step, hmore, length_append]
      omega
    · simp only [step, hmore, htake]
      exact hexact.matched
    · simp only [step, hmore, htake]
      exact hexact.carry hnone

theorem Sound.other (hs : s.Sound pattern) (hgood : s.Good limits id pattern) (op : PollingOp) :
    Sound pattern (s.step limits genToolJobId id pattern (.other op)) := by
  obtain ⟨more, hmore⟩ := @pushed_step limits genToolJobId id s.job op
  refine ⟨fun h => ?_, fun hnone => ?_⟩
  · simp only [step, hmore, chunkText_append]
    exact (hs.matched h).trans (prefix_append _ _).isInfix
  · have hle := hgood.reached hnone
    simp only [step, hmore]
    rw [take_append_of_le_length (by omega)]
    exact hs.carry hnone

/-- A wake-up that finds no job, or one that is over. -/
theorem waitCheck_idle (h : s.searches id = false) (scan : Scan) :
    ∃ outcome : WaitOutcome, outcome.matched = false ∧
      waitCheck s.job.jobs.inner id (some pattern.1) scan = (some outcome, scan) := by
  unfold searches at h
  unfold waitCheck
  split
  · next hnone =>
    split
    · exact ⟨.expired, rfl, rfl⟩
    · exact ⟨.notFound, rfl, rfl⟩
  · next record hrecord =>
    rw [hrecord, any_some, Bool.not_eq_false'] at h
    rw [if_pos h]
    exact ⟨.hit record.status false, rfl, rfl⟩

/-- A wake-up that searches the output. -/
theorem waitCheck_search (h : s.searches id = true) {o : String × JobOutputLog}
    (ho : s.job.jobs.inner.outputs.lookup id = some o) (scan : Scan) :
    let found := scanLoop o.2 pattern.1 (o.2.events.length + 1) scan
    let check := waitCheck s.job.jobs.inner id (some pattern.1) scan
    check.2 = found.2 ∧ check.1.any WaitOutcome.matched = found.1 := by
  unfold searches at h
  unfold waitCheck
  cases hrecord : s.job.jobs.inner.jobs.lookup id with
  | none => simp [hrecord] at h
  | some record =>
    rw [hrecord, any_some, Bool.not_eq_true'] at h
    simp only [h, Bool.false_eq_true, if_false, scanOutputLocked, ho]
    cases hfound : scanLoop o.2 pattern.1 (o.2.events.length + 1) scan with
    | mk found next =>
      cases found with
      | true => exact ⟨rfl, rfl⟩
      | false =>
        simp only [Bool.false_eq_true, if_false]
        split <;> exact ⟨rfl, rfl⟩

theorem Good.exists_log (hs : s.Good limits id pattern) (h : s.searches id = true) :
    ∃ o dropped, s.job.jobs.inner.outputs.lookup id = some o ∧
      o.2.Holds s.job.pushed dropped := by
  unfold searches at h
  obtain ⟨record, hrecord, -⟩ := (Option.any_eq_true _ _).mp h
  obtain ⟨o, ho⟩ := hs.job.jobs.tidy.exists_log hrecord
  obtain ⟨dropped, hholds, -⟩ := hs.job.log o ho
  exact ⟨o, dropped, ho, hholds⟩

/-- The ring holds all that was not searched when nothing behind the cursor was dropped. -/
theorem readFrom_of_holdsUnsearched {o : String × JobOutputLog} {dropped : ℕ}
    (hs : s.Good limits id pattern) (ho : s.job.jobs.inner.outputs.lookup id = some o)
    (hholds : o.2.Holds s.job.pushed dropped) (h : s.holdsUnsearched id = true) :
    readFrom dropped s.scan = s.scan.scanCursor - 1 := by
  rw [holdsUnsearched, ho, all_some, hholds.events, head?_drop] at h
  have hdropped : dropped + 1 ≤ max s.scan.scanCursor 1 := by
    by_cases hlt : dropped < s.job.pushed.length
    · rw [getElem?_eq_getElem hlt, all_some, decide_eq_true_eq,
        hs.job.account.numbered _ _ (getElem?_eq_getElem hlt)] at h
      exact h
    · have hnil : s.job.pushed = [] := by
        by_contra hne
        exact hlt (hholds.retained hne)
      have hle := hholds.le
      rw [hnil, length_nil] at hle
      omega
  rw [readFrom]
  omega

/-- What is carried ends the text in front of the next read. -/
theorem Sound.carry_readFrom {o : String × JobOutputLog} {dropped : ℕ} (hs : s.Sound pattern)
    (hgood : s.Good limits id pattern) (hnone : s.outcome = none)
    (ho : s.job.jobs.inner.outputs.lookup id = some o) (hholds : o.2.Holds s.job.pushed dropped)
    (hseam : s.Seamless id .wake) :
    s.scan.carry <:+ chunkText (s.job.pushed.take (readFrom dropped s.scan)) := by
  have hcarry := hs.carry hnone
  rcases hseam with hnil | hseam
  · rw [hnil]
    exact nil_suffix
  · have hread := @JobOutputLog.read_eq o.2 s.job.pushed dropped hholds hgood.job.account.numbered
      (some s.scan.scanCursor) _ rfl
    rw [ho, all_some, hread, getD_some] at hseam
    simp only [Bool.not_eq_true', Bool.and_eq_false_iff, bne_eq_false_iff_eq,
      decide_eq_false_iff_not] at hseam
    by_cases hzero : s.scan.scanCursor = 0
    · rw [hzero, Nat.zero_sub, take_zero] at hcarry
      rw [suffix_nil.mp hcarry]
      exact nil_suffix
    · have heq : readFrom dropped s.scan = s.scan.scanCursor - 1 := by
        rw [readFrom]
        omega
      rwa [heq]

theorem step_wake (hnone : s.outcome = none) :
    s.step limits genToolJobId id pattern .wake =
      { s with
        scan := (waitCheck s.job.jobs.inner id (some pattern.1) s.scan).2
        outcome := (waitCheck s.job.jobs.inner id (some pattern.1) s.scan).1
        intact := s.intact && (!s.searches id || s.holdsUnsearched id)
        seen := if s.searches id then s.job.pushed.length else s.seen } := by
  simp [step, hnone]

theorem Good.wake (hs : s.Good limits id pattern) :
    Good limits id pattern (s.step limits genToolJobId id pattern .wake) := by
  cases hout : s.outcome with
  | some outcome => simpa [step, hout] using hs
  | none =>
    rw [step_wake hout]
    cases hsearch : s.searches id with
    | false =>
      obtain ⟨outcome, hmatched, hcheck⟩ := @waitCheck_idle id pattern s hsearch s.scan
      rw [hcheck]
      refine ⟨hs.job, (fun h => nomatch h), fun hintact => ?_⟩
      have hexact := hs.exact (by simpa [hsearch] using hintact)
      refine ⟨by simpa using hexact.seen, ?_, (fun h => nomatch h), fun h => nomatch h⟩
      have hold := hexact.matched
      simp only [matched, hout, any_none] at hold
      simpa [matched, hmatched] using hold
    | true =>
      obtain ⟨o, dropped, ho, hholds⟩ := hs.exists_log hsearch
      obtain ⟨hscan, hfound⟩ := @waitCheck_search id pattern s hsearch o ho s.scan
      have hnum := hs.job.account.numbered
      have hcursor := scanLoop_cursor hholds hnum pattern.1 (o.2.events.length + 1) s.scan
      have hmiss : (waitCheck s.job.jobs.inner id (some pattern.1) s.scan).1 = none →
          (scanLoop o.2 pattern.1 (o.2.events.length + 1) s.scan).1 = false := by
        intro h
        rw [← hfound, h]
        rfl
      refine ⟨hs.job, fun _ => ?_, fun hintact => ?_⟩
      · simp only [hscan]
        exact hcursor.2 (hs.reached hout)
      · simp only [Bool.not_true, Bool.false_or, Bool.and_eq_true] at hintact
        have hexact := hs.exact hintact.1
        have hfrom := readFrom_of_holdsUnsearched hs ho hholds hintact.2
        have hseen : readFrom dropped s.scan = s.seen := hfrom.trans (hexact.cursor hout)
        have hnew : ¬ pattern.1 <:+: chunkText (s.job.pushed.take s.seen) := by
          intro h
          have hbad := hexact.matched.mpr h
          simp [matched, hout] at hbad
        have hlen := congrArg List.length hholds.events
        rw [length_drop] at hlen
        have hle := hexact.seen
        obtain ⟨hiff, hrest⟩ := @scanLoop_exact o.2 s.job.pushed dropped pattern.1 hholds hnum
          (o.2.events.length + 1) s.scan (by omega)
          (by rw [hlen]; simp only [readFrom] at hseen ⊢; omega)
          (by rw [hseen]; exact hexact.carry hout) (by rw [hseen]; exact hnew)
        refine ⟨Nat.le_refl _, ?_, fun h => ?_, fun h => ?_⟩
        · simp only [matched, hfound, if_true, take_length]
          exact hiff
        · simp only [hscan, if_true]
          have hend := (hrest (hmiss h)).1
          rcases hcursor.1 with hsame | hpast
          · rw [hsame] at hend ⊢
            omega
          · rw [readFrom] at hend
            omega
        · simp only [hscan, if_true, take_length]
          exact (hrest (hmiss h)).2

theorem Sound.wake (hs : s.Sound pattern) (hgood : s.Good limits id pattern)
    (hseam : s.Seamless id .wake) :
    Sound pattern (s.step limits genToolJobId id pattern .wake) := by
  cases hout : s.outcome with
  | some outcome => simpa [step, hout] using hs
  | none =>
    rw [step_wake hout]
    cases hsearch : s.searches id with
    | false =>
      obtain ⟨outcome, hmatched, hcheck⟩ := @waitCheck_idle id pattern s hsearch s.scan
      rw [hcheck]
      refine ⟨fun h => ?_, fun h => nomatch h⟩
      simp [WaitedJob.matched, hmatched] at h
    | true =>
      obtain ⟨o, dropped, ho, hholds⟩ := hgood.exists_log hsearch
      obtain ⟨hscan, hfound⟩ := @waitCheck_search id pattern s hsearch o ho s.scan
      have hnum := hgood.job.account.numbered
      have hcarry := hs.carry_readFrom hgood hout ho hholds hseam
      have hcursor := (scanLoop_cursor hholds hnum pattern.1 (o.2.events.length + 1) s.scan).1
      obtain ⟨hhit, hmiss⟩ := @scanLoop_sound o.2 s.job.pushed dropped pattern.1 hholds hnum
        (o.2.events.length + 1) s.scan hcarry
      refine ⟨fun h => hhit (hfound ▸ h), fun h => ?_⟩
      have hfalse : (scanLoop o.2 pattern.1 (o.2.events.length + 1) s.scan).1 = false := by
        rw [← hfound]
        simp only at h
        rw [h]
        rfl
      simp only [hscan]
      rcases hcursor with hsame | hpast
      · rw [hsame]
        exact hs.carry hout
      · have hend := hmiss hfalse
        rwa [readFrom, Nat.max_eq_left hpast] at hend

end WaitedJob

/-- Incremental matching against a plain search of the merged output. -/
theorem output_matching_eq_search (limits : JobLimits) (genToolJobId : ℕ → String) (id : String)
    (pattern : {p : Str // p ≠ []}) (ops : List WaitingOp)
    (hops : AllOk (WaitedJob.step limits genToolJobId id pattern) (WaitedJob.Permits genToolJobId)
      .new ops) :
    let s := run (WaitedJob.step limits genToolJobId id pattern) .new ops
    (AllOk (WaitedJob.step limits genToolJobId id pattern) (WaitedJob.Seamless id) .new ops →
      s.matched → pattern.1 <:+: chunkText s.job.pushed) ∧
      (s.intact → (s.matched ↔ pattern.1 <:+: chunkText (s.job.pushed.take s.seen))) := by
  intro s
  have hgood : WaitedJob.Good limits id pattern s :=
    @invariant _ _ (WaitedJob.step limits genToolJobId id pattern)
      (WaitedJob.Permits genToolJobId) (WaitedJob.Good limits id pattern)
      (fun s op hs hop => by
        cases op with
        | other op => exact hs.other op hop
        | wake => exact hs.wake) _ WaitedJob.new_good ops hops
  refine ⟨fun hseam => ?_, fun hintact => (hgood.exact hintact).matched⟩
  have hboth := (allOk_and _ _ _ _ _).mpr ⟨hops, hseam⟩
  have hsound := @invariant _ _ (WaitedJob.step limits genToolJobId id pattern) _
    (fun s => WaitedJob.Good limits id pattern s ∧ WaitedJob.Sound pattern s)
    (fun s op hs hop => by
      cases op with
      | other op => exact ⟨hs.1.other op hop.1, hs.2.other hs.1 op⟩
      | wake => exact ⟨hs.1.wake, hs.2.wake hs.1 hop.2⟩) _
    ⟨WaitedJob.new_good, WaitedJob.new_sound⟩ ops hboth
  exact hsound.2.matched

def push (text : String) : WaitingOp :=
  .other (.registry (.pushOutput (drawnIds 0) .stdout text))

def startJob : List WaitingOp :=
  [.other (.registry (.register inOrder 0 "/ws" none make "args" none)),
    .other (.registry .tryStart)]

def listening : {p : Str // p ≠ []} := ⟨"listening on".toList, by decide⟩

/-- The text arrives in two pieces. -/
def twoPieces : List WaitingOp := startJob ++ [push "srv listen", .wake, push "ing on :80\n", .wake]

theorem output_matching_twoPieces :
    AllOk (WaitedJob.step oneAtATime drawnIds (drawnIds 0) listening)
        (WaitedJob.Permits drawnIds) .new twoPieces ∧
      (run (WaitedJob.step oneAtATime drawnIds (drawnIds 0) listening) .new
        twoPieces).matched = true ∧
      listening.1 <:+: chunkText (run (WaitedJob.step oneAtATime drawnIds (drawnIds 0) listening)
        .new twoPieces).job.pushed := by
  have hok : AllOk (WaitedJob.step oneAtATime drawnIds (drawnIds 0) listening)
      (WaitedJob.Permits drawnIds) .new twoPieces := by
    decide +kernel
  have hmatched : (run (WaitedJob.step oneAtATime drawnIds (drawnIds 0) listening) .new
      twoPieces).matched = true := by
    decide +kernel
  exact ⟨hok, hmatched, (output_matching_eq_search oneAtATime drawnIds (drawnIds 0) listening
    twoPieces hok).1 (by decide +kernel) hmatched⟩

def ab : {p : Str // p ≠ []} := ⟨"ab".toList, by decide⟩

/-- What stood between the two letters is dropped before the second wake-up. -/
def droppedBetween : List WaitingOp :=
  startJob ++ [push "a", .wake, push (String.ofList (List.replicate 64 'x')), push "b", .wake]

/-- A match is reported across a gap. -/
theorem not_output_matching_sound :
    ¬ ∀ (limits : JobLimits) (genToolJobId : ℕ → String) (id : String)
      (pattern : {p : Str // p ≠ []}) (ops : List WaitingOp),
      AllOk (WaitedJob.step limits genToolJobId id pattern) (WaitedJob.Permits genToolJobId) .new
        ops →
      let s := run (WaitedJob.step limits genToolJobId id pattern) .new ops
      s.matched → pattern.1 <:+: chunkText s.job.pushed := by
  intro h
  have hinfix := h oneAtATime drawnIds (drawnIds 0) ab droppedBetween (by decide +kernel)
    (by decide +kernel)
  rw [← contains_iff] at hinfix
  revert hinfix
  decide +kernel

end Runs

end CrabMate
