import CrabMate.Jobs.Invariant
import Mathlib.Algebra.GroupWithZero.Nat

/-! Polling the output of one job. The ring keeps a tail of what was pushed; a reader that passes
on its cursor is shown each element once, or is told that elements are missing. -/
namespace CrabMate
open Run List Option

section Log

/-- The bytes of the elements of one stream. -/
def streamBytes (stream : SessionStream) (events : List OutputEvent) : ℕ :=
  ((events.filter fun e => e.stream = stream).map fun e => e.text.utf8ByteSize).sum

def totalBytes (events : List OutputEvent) : ℕ := (events.map fun e => e.text.utf8ByteSize).sum

namespace JobOutputLog

/-- The counters are the sums over the retained elements. -/
structure CountsBytes (log : JobOutputLog) : Prop where
  bytes : log.bytes = totalBytes log.events
  stdout : log.stdoutBytes = streamBytes .stdout log.events
  stderr : log.stderrBytes = streamBytes .stderr log.events

/-- The ring holds what was pushed but the first `dropped` elements, and not nothing. -/
structure Holds (log : JobOutputLog) (pushed : List OutputEvent) (dropped : ℕ) : Prop where
  written : log.written = pushed.length
  events : log.events = pushed.drop dropped
  le : dropped ≤ pushed.length
  retained : pushed ≠ [] → dropped < pushed.length

end JobOutputLog

/-- The elements are numbered from one on. -/
def Numbered (pushed : List OutputEvent) : Prop :=
  ∀ i e, pushed[i]? = some e → e.seq = i + 1

variable {log : JobOutputLog} {pushed : List OutputEvent} {dropped : ℕ}

theorem Numbered.nil : Numbered [] := by
  intro i e h
  cases h

theorem Numbered.append (h : Numbered pushed) (stream : SessionStream) (text : String) :
    Numbered (pushed ++ [⟨pushed.length + 1, stream, text⟩]) := by
  intro i e hi
  rcases Nat.lt_trichotomy i pushed.length with hlt | rfl | hgt
  · rw [getElem?_append_left hlt] at hi
    exact h i e hi
  · rw [getElem?_append_right (Nat.le_refl _), Nat.sub_self] at hi
    cases hi
    rfl
  · have hlen : (pushed ++ [(⟨pushed.length + 1, stream, text⟩ : OutputEvent)]).length ≤ i := by
      rw [length_append, length_singleton]
      omega
    rw [getElem?_eq_none hlen] at hi
    cases hi

theorem Numbered.seq_pos (h : Numbered pushed) {e : OutputEvent} (he : e ∈ pushed) :
    0 < e.seq ∧ e.seq ≤ pushed.length := by
  obtain ⟨i, hi, rfl⟩ := mem_iff_getElem.mp he
  have hseq := h i _ (getElem?_eq_getElem hi)
  omega

theorem Numbered.mem_drop_iff (h : Numbered pushed) {e : OutputEvent} (he : e ∈ pushed) {n : ℕ} :
    e ∈ pushed.drop n ↔ n < e.seq := by
  obtain ⟨i, hi, rfl⟩ := mem_iff_getElem.mp he
  have hseq := h i _ (getElem?_eq_getElem hi)
  constructor
  · intro hmem
    obtain ⟨j, hj⟩ := mem_iff_getElem?.mp hmem
    rw [getElem?_drop] at hj
    have hseq' := h _ _ hj
    omega
  · intro hlt
    refine mem_iff_getElem?.mpr ⟨i - n, ?_⟩
    rw [getElem?_drop, show n + (i - n) = i by omega]
    exact getElem?_eq_getElem hi

theorem Numbered.mem_slice_iff (h : Numbered pushed) {e : OutputEvent} (he : e ∈ pushed)
    {n k : ℕ} : e ∈ (pushed.drop n).take k ↔ n < e.seq ∧ e.seq ≤ n + k := by
  obtain ⟨i, hi, rfl⟩ := mem_iff_getElem.mp he
  have hseq := h i _ (getElem?_eq_getElem hi)
  constructor
  · intro hmem
    obtain ⟨j, hj⟩ := mem_iff_getElem?.mp hmem
    rw [getElem?_take] at hj
    split at hj
    · rw [getElem?_drop] at hj
      have hseq' := h _ _ hj
      omega
    · cases hj
  · rintro ⟨hlt, hle⟩
    refine mem_iff_getElem?.mpr ⟨i - n, ?_⟩
    rw [getElem?_take, if_pos (by omega), getElem?_drop, show n + (i - n) = i by omega]
    exact getElem?_eq_getElem hi

theorem Numbered.filter_drop (h : Numbered pushed) {n m : ℕ} (hnm : n ≤ m) :
    ((pushed.drop n).filter fun e => m < e.seq) = pushed.drop m := by
  have hsplit : pushed.drop n = (pushed.drop n).take (m - n) ++ pushed.drop m := by
    have hdrop := take_append_drop (m - n) (pushed.drop n)
    rw [drop_drop, show n + (m - n) = m by omega] at hdrop
    exact hdrop.symm
  rw [hsplit, filter_append]
  have hfront : (((pushed.drop n).take (m - n)).filter fun e => m < e.seq) = [] := by
    refine filter_eq_nil_iff.mpr fun e he => ?_
    have hmem : e ∈ pushed := mem_of_mem_drop (mem_of_mem_take he)
    have hle := ((h.mem_slice_iff hmem).mp he).2
    simp only [decide_eq_true_eq]
    omega
  have hback : ((pushed.drop m).filter fun e => m < e.seq) = pushed.drop m := by
    refine filter_eq_self.mpr fun e he => ?_
    rw [decide_eq_true_eq]
    exact (h.mem_drop_iff (mem_of_mem_drop he)).mp he
  rw [hfront, hback, nil_append]

/-- The number behind a slice. -/
theorem Numbered.getLast?_slice (h : Numbered pushed) (n k : ℕ) :
    ((((pushed.drop n).take k).getLast?).map (·.seq + 1)).getD (n + 1) =
      n + 1 + ((pushed.drop n).take k).length := by
  cases hlast : ((pushed.drop n).take k).getLast? with
  | none =>
    rw [getLast?_eq_none_iff.mp hlast]
    rfl
  | some e =>
    rw [getLast?_eq_getElem?, getElem?_take] at hlast
    split at hlast
    · rw [getElem?_drop] at hlast
      have hseq := h _ _ hlast
      rw [map_some, getD_some]
      have hpos : 0 < ((pushed.drop n).take k).length := by
        have hlt := (List.getElem?_eq_some_iff.mp hlast).1
        simp only [length_take, length_drop] at hlt ⊢
        omega
      omega
    · cases hlast

theorem Numbered.sorted_drop (h : Numbered pushed) (n : ℕ) :
    ((pushed.drop n).map (·.seq)).Pairwise (· < ·) := by
  rw [pairwise_map, pairwise_iff_getElem]
  intro i j hi hj hij
  have hseq := h (n + i) _ (by rw [← getElem?_drop]; exact getElem?_eq_getElem hi)
  have hseq' := h (n + j) _ (by rw [← getElem?_drop]; exact getElem?_eq_getElem hj)
  omega

namespace JobOutputLog

theorem default_holds : default.Holds [] 0 :=
  ⟨rfl, rfl, Nat.le_refl _, fun h => absurd rfl h⟩

theorem default_counts : default.CountsBytes := ⟨rfl, rfl, rfl⟩

theorem streamBytes_cons (stream : SessionStream) (e : OutputEvent) (events : List OutputEvent) :
    streamBytes stream (e :: events) =
      (if e.stream = stream then e.text.utf8ByteSize else 0) + streamBytes stream events := by
  by_cases he : e.stream = stream
  · simp [streamBytes, he]
  · simp [streamBytes, he]

theorem popFrontInner_counts (h : log.CountsBytes) : log.popFrontInner.CountsBytes := by
  obtain ⟨events, written, bytes, out, err⟩ := log
  obtain ⟨hbytes, hout, herr⟩ := h
  simp only at hbytes hout herr
  subst hbytes hout herr
  cases events with
  | nil => exact ⟨rfl, rfl, rfl⟩
  | cons e events =>
    obtain ⟨seq, stream, text⟩ := e
    cases stream with
    | stdout => constructor <;> simp [popFrontInner, totalBytes, streamBytes_cons]
    | stderr => constructor <;> simp [popFrontInner, totalBytes, streamBytes_cons]

theorem popFrontInner_events (log : JobOutputLog) :
    log.popFrontInner.events = log.events.tail ∧ log.popFrontInner.written = log.written := by
  unfold popFrontInner
  split
  · next hnil => simp [hnil]
  · next front rest hcons =>
    rw [hcons]
    split
    · exact ⟨rfl, rfl⟩
    · exact ⟨rfl, rfl⟩

theorem trimLoop_counts (exceeds : JobOutputLog → Bool) (rounds : ℕ) (h : log.CountsBytes) :
    (trimLoop exceeds rounds log).1.CountsBytes := by
  induction rounds generalizing log with
  | zero => exact h
  | succ rounds ih =>
    rw [trimLoop]
    split
    · exact ih (popFrontInner_counts h)
    · exact h

theorem trimLoop_holds (exceeds : JobOutputLog → Bool) (rounds : ℕ)
    (h : log.Holds pushed dropped) :
    ∃ dropped', dropped ≤ dropped' ∧ (trimLoop exceeds rounds log).1.Holds pushed dropped' := by
  induction rounds generalizing log dropped with
  | zero => exact ⟨dropped, Nat.le_refl _, h⟩
  | succ rounds ih =>
    rw [trimLoop]
    split
    · next hmore =>
      have hlen : 1 < log.events.length := by
        simp only [Bool.and_eq_true, decide_eq_true_eq] at hmore
        exact hmore.2
      rw [h.events, length_drop] at hlen
      have hpop : log.popFrontInner.Holds pushed (dropped + 1) := {
        written := (popFrontInner_events log).2.trans h.written
        events := by rw [(popFrontInner_events log).1, h.events, tail_drop]
        le := by omega
        retained := fun _ => by omega }
      obtain ⟨dropped', hle, hholds⟩ := ih hpop
      exact ⟨dropped', by omega, hholds⟩
    · exact ⟨dropped, Nat.le_refl _, h⟩

theorem push_counts (h : log.CountsBytes) (stream : SessionStream) (text : String)
    (maxBytes : ℕ) : (log.push stream text maxBytes).1.CountsBytes := by
  rw [push]
  split
  · exact h
  · refine trimLoop_counts _ _ ?_
    cases stream with
    | stdout =>
      constructor <;>
        simp [totalBytes, h.bytes, h.stdout, h.stderr, streamBytes]
    | stderr =>
      constructor <;>
        simp [totalBytes, h.bytes, h.stdout, h.stderr, streamBytes]

theorem push_holds (h : log.Holds pushed dropped) (stream : SessionStream) {text : String}
    (htext : text.isEmpty = false) (maxBytes : ℕ) :
    ∃ dropped', dropped ≤ dropped' ∧ (log.push stream text maxBytes).1.Holds
      (pushed ++ [⟨pushed.length + 1, stream, text⟩]) dropped' := by
  have hle := h.le
  rw [push, htext]
  simp only [Bool.false_eq_true, if_false]
  refine trimLoop_holds _ _ ⟨?_, ?_, ?_, fun _ => ?_⟩
  · cases stream <;> simp [h.written]
  · cases stream <;> simp [h.written, h.events, drop_append_of_le_length h.le]
  · simp only [length_append, length_singleton]
    omega
  · simp only [length_append, length_singleton]
    omega

theorem push_empty (stream : SessionStream) {text : String} (htext : text.isEmpty = true)
    (maxBytes : ℕ) : (log.push stream text maxBytes).1 = log := by
  rw [push, htext]
  rfl

theorem terminalTrim_counts (h : log.CountsBytes) (maxPerStream : ℕ) :
    (log.terminalTrim maxPerStream).1.CountsBytes := trimLoop_counts _ _ h

theorem terminalTrim_holds (h : log.Holds pushed dropped) (maxPerStream : ℕ) :
    ∃ dropped', dropped ≤ dropped' ∧ (log.terminalTrim maxPerStream).1.Holds pushed dropped' :=
  trimLoop_holds _ _ h

/-- A read starts at the cursor or at the first retained element, whichever is later. -/
theorem read_eq (h : log.Holds pushed dropped) (hnum : Numbered pushed) {cursor : Option ℕ}
    {start : ℕ} (hstart : start = max (cursor.getD 0) (dropped + 1)) :
    log.read cursor = {
      items := (pushed.drop (start - 1)).take maxItemsPerResponse
      nextCursor := start + ((pushed.drop (start - 1)).take maxItemsPerResponse).length
      truncated := cursor.getD 0 != 0 && decide (cursor.getD 0 ≤ dropped) } := by
  have hle := h.le
  have hfirst : log.events.head?.map (·.seq) =
      if dropped < pushed.length then some (dropped + 1) else none := by
    rw [h.events, head?_drop]
    split
    · next hlt =>
      rw [getElem?_eq_getElem hlt, map_some,
        hnum dropped _ (getElem?_eq_getElem hlt)]
    · next hge => rw [getElem?_eq_none (by omega), map_none]
  have hearliest : (log.events.head?.map (·.seq)).getD (log.written + 1) = dropped + 1 := by
    rw [hfirst, h.written]
    split
    · rfl
    · rw [getD_none]
      omega
  have hitems : (log.events.filter fun e => start ≤ e.seq) = pushed.drop (start - 1) := by
    rw [h.events]
    have hfilter := hnum.filter_drop (show dropped ≤ start - 1 by omega)
    rw [← hfilter]
    refine filter_congr fun e _ => ?_
    rw [decide_eq_decide]
    omega
  have htruncated : (log.events.head?.any fun e => cursor.getD 0 < e.seq) =
      (decide (dropped < pushed.length) && decide (cursor.getD 0 ≤ dropped)) := by
    have hmap : (log.events.head?.any fun e => decide (cursor.getD 0 < e.seq)) =
        (log.events.head?.map (·.seq)).any fun n => decide (cursor.getD 0 < n) := by
      rw [Option.any_map]
    rw [hmap, hfirst]
    split
    · next hlt =>
      rw [decide_eq_true hlt, Bool.true_and, any_some, decide_eq_decide]
      omega
    · next hge => simp [hge]
  have hnext := hnum.getLast?_slice (start - 1) maxItemsPerResponse
  rw [show start - 1 + 1 = start by omega] at hnext
  simp only [read, hearliest, ← hstart, hitems, hnext, htruncated]
  congr 1
  by_cases hlt : dropped < pushed.length
  · simp [hlt]
  · have hnil : pushed = [] := by
      by_contra hne
      exact hlt (h.retained hne)
    rw [hnil, length_nil] at hle
    have hd : dropped = 0 := by omega
    rw [hnil, hd]
    by_cases hzero : cursor.getD 0 = 0
    · simp [hzero]
    · simp [hzero]

end JobOutputLog

end Log

section Registry

namespace Inner

variable {limits : JobLimits} {g g' : Inner} {id : String}

/-- No log appears or changes. -/
def OutputsFade (g g' : Inner) : Prop := g'.outputs.rows.Sublist g.outputs.rows

theorem OutputsFade.lookup (h : g.OutputsFade g') {o : String × JobOutputLog}
    (ho : g'.outputs.lookup id = some o) : g.outputs.lookup id = some o := by
  rw [Table.lookup_eq_some_iff] at ho ⊢
  exact ⟨h.subset ho.1, ho.2⟩

theorem forget_fades (g : Inner) (id : String) : g.OutputsFade (g.forget id) :=
  filter_sublist

theorem foldl_forget_fades (ids : List String) (g : Inner) :
    g.OutputsFade (ids.foldl forget g) := by
  induction ids generalizing g with
  | nil => exact List.Sublist.refl _
  | cons id ids ih => exact (ih (g.forget id)).trans (forget_fades g id)

theorem makeRoom_fades (g : Inner) (limits : JobLimits) (iteration : JobIteration) :
    g.OutputsFade (g.makeRoom limits iteration).2 := by
  unfold makeRoom
  split
  · unfold evictOneTerminal
    split
    · exact List.Sublist.refl _
    · next heq =>
      split at heq
      · cases heq
      · cases heq
        exact forget_fades g _
  · exact List.Sublist.refl _

theorem getChecked_fades (g : Inner) (limits : JobLimits) (id : String) (now : ℤ) :
    g.OutputsFade (g.getChecked limits id now).2 := by
  unfold getChecked
  split
  · exact List.Sublist.refl _
  · split
    · exact forget_fades g id
    · exact List.Sublist.refl _

theorem pollOutput_fades (g : Inner) (limits : JobLimits) (id : String) (cursor : Option ℕ)
    (now : ℤ) : g.OutputsFade (g.pollOutput limits id cursor now).2 := by
  unfold pollOutput
  split
  · exact List.Sublist.refl _
  · split
    · exact forget_fades g id
    · exact List.Sublist.refl _

theorem outputs_tryStart (g : Inner) (limits : JobLimits) :
    (g.tryStart limits).2.outputs = g.outputs := by
  unfold tryStart
  split
  · rfl
  · split
    · rfl
    · dsimp only
      split <;> rfl

theorem outputs_cancel (g : Inner) (id : String) (now : ℤ) :
    (g.cancel id now).2.2.outputs = g.outputs := by
  unfold cancel
  split
  · rfl
  · split <;> rfl

theorem complete_log {target : String} {outcome : JobOutcome} {workspaceChanged : Bool} {now : ℤ}
    {o' : String × JobOutputLog}
    (ho : (g.complete target outcome workspaceChanged now).2.2.outputs.lookup id = some o') :
    ∃ o, g.outputs.lookup id = some o ∧
      (o'.2 = o.2 ∨ ∃ maxPerStream, o'.2 = (o.2.terminalTrim maxPerStream).1) := by
  unfold complete at ho
  split at ho
  · exact ⟨o', ho, Or.inl rfl⟩
  · next record hr =>
    split at ho
    · exact ⟨o', ho, Or.inl rfl⟩
    · change ((g.outputs.updateWhere (fun o => o.1 = target)
        (fun o => (o.1, (o.2.terminalTrim record.spawn.maxOutputLen).1)) fun _ => rfl).lookup id) =
          some o' at ho
      rw [Table.lookup_updateWhere, map_eq_some_iff] at ho
      obtain ⟨o, ho, rfl⟩ := ho
      refine ⟨o, ho, ?_⟩
      split
      · exact Or.inr ⟨_, rfl⟩
      · exact Or.inl rfl

theorem pushOutput_log {target : String} {stream : SessionStream} {text : String}
    {o' : String × JobOutputLog}
    (ho : (g.pushOutput limits target stream text).2.outputs.lookup id = some o') :
    ∃ o, g.outputs.lookup id = some o ∧
      o'.2 = if target = id then (o.2.push stream text limits.outputBufferBytes).1 else o.2 := by
  unfold pushOutput at ho
  split at ho
  · next hnone =>
    refine ⟨o', ho, ?_⟩
    rw [if_neg]
    rintro rfl
    rw [hnone] at ho
    cases ho
  · next key log hlog =>
    change ((g.outputs.updateWhere (fun o => o.1 = target)
      (fun o => (o.1, (log.push stream text limits.outputBufferBytes).1)) fun _ => rfl).lookup
        id) = some o' at ho
    rw [Table.lookup_updateWhere, map_eq_some_iff] at ho
    obtain ⟨o, ho, rfl⟩ := ho
    refine ⟨o, ho, ?_⟩
    have hkey : o.1 = id := (Table.lookup_eq_some_iff.mp ho).2
    by_cases htarget : target = id
    · subst htarget
      rw [hlog] at ho
      cases ho
      have hk : key = target := hkey
      simp [hk]
    · have hne : ¬ o.1 = target := fun h => htarget (h.symm.trans hkey)
      simp [hne, htarget]

theorem register_log {iteration : JobIteration} {newId : String} {now : ℤ} {workspace : String}
    {sourceTurnJobId : Option ℕ} {spawn : JobSpawn} {argsJson : String}
    {finishedSink : Option JobFinishedSink} {o' : String × JobOutputLog}
    (ho : (g.register limits iteration newId now workspace sourceTurnJobId spawn argsJson
      finishedSink).2.outputs.lookup id = some o') :
    g.outputs.lookup id = some o' ∨ (o'.2 = .default ∧ newId = id) := by
  have hfade := makeRoom_fades g limits iteration
  unfold register at ho
  split at ho
  · next hmake =>
    rw [hmake] at hfade
    exact Or.inl (hfade.lookup ho)
  · next g' hmake =>
    rw [hmake] at hfade
    split at ho
    · exact Or.inl (hfade.lookup ho)
    · simp only [enrol] at ho
      by_cases hid : newId = id
      · subst hid
        have hput := Table.lookup_put_self g'.outputs (newId, JobOutputLog.default)
        cases ho.symm.trans hput
        exact Or.inr ⟨rfl, rfl⟩
      · rw [Table.lookup_put_of_ne _ hid] at ho
        exact Or.inl (hfade.lookup ho)

theorem Tidy.exists_log (h : g.Tidy limits) {r : JobRecord} (hr : g.jobs.lookup id = some r) :
    ∃ o, g.outputs.lookup id = some o := by
  obtain ⟨hmem, rfl⟩ := Table.lookup_eq_some_iff.mp hr
  have hid : r.id ∈ g.outputs.rows.map Prod.fst := by
    rw [h.outputs]
    exact List.mem_map_of_mem hmem
  obtain ⟨o, ho, hkey⟩ := List.mem_map.mp hid
  exact ⟨o, Table.lookup_eq_some_iff.mpr ⟨ho, hkey⟩⟩

/-- An answer is read off the log of the job. -/
theorem pollOutput_found (h : g.Tidy limits) {cursor : Option ℕ} {now : ℤ} {status : JobStatus}
    {workspace : String} {read : OutputLogRead} {eof : Bool}
    (hpoll : g.pollOutput limits id cursor now = (.found status workspace read eof, g')) :
    g' = g ∧ ∃ o, g.outputs.lookup id = some o ∧ read = o.2.read cursor ∧
      eof = (status.isTerminal && decide (o.2.written < (o.2.read cursor).nextCursor)) := by
  unfold pollOutput at hpoll
  split at hpoll
  · split at hpoll <;> cases hpoll
  · next record hr =>
    obtain ⟨⟨key, log⟩, ho⟩ := h.exists_log hr
    split at hpoll
    · cases hpoll
    · simp only [ho] at hpoll
      cases hpoll
      exact ⟨rfl, (key, log), ho, rfl, rfl⟩

end Inner

namespace JobSystem

variable {limits : JobLimits} {genToolJobId : ℕ → String} {s : JobSystem} {id : String}

/-- What one operation may do to the log of `id`. -/
def LogStep (limits : JobLimits) (id : String) (log log' : JobOutputLog) : RegistryOp → Prop
  | .pushOutput target stream text =>
    log' = if target = id then (log.push stream text limits.outputBufferBytes).1 else log
  | _ => log' = log ∨ ∃ maxPerStream, log' = (log.terminalTrim maxPerStream).1

/-- A log is there from the registration of its job on. -/
theorem step_log {op : RegistryOp} {o' : String × JobOutputLog}
    (ho : (s.step limits genToolJobId op).inner.outputs.lookup id = some o') :
    (∃ o, s.inner.outputs.lookup id = some o ∧ LogStep limits id o.2 o'.2 op) ∨
      (o'.2 = .default ∧ ∃ iteration now workspace sourceTurnJobId spawn argsJson finishedSink,
        op = .register iteration now workspace sourceTurnJobId spawn argsJson finishedSink ∧
          genToolJobId s.drawn = id) := by
  cases op with
  | register iteration now workspace sourceTurnJobId spawn argsJson finishedSink =>
    have hregister : (s.inner.register limits iteration (genToolJobId s.drawn) now workspace
        sourceTurnJobId spawn argsJson finishedSink).2.outputs.lookup id = some o' := by
      simp only [step] at ho
      split at ho <;> next heq => rw [heq]; exact ho
    rcases Inner.register_log hregister with hold | ⟨hdefault, hid⟩
    · exact Or.inl ⟨o', hold, Or.inl rfl⟩
    · exact Or.inr ⟨hdefault, iteration, now, workspace, sourceTurnJobId, spawn, argsJson,
        finishedSink, rfl, hid⟩
  | tryStart =>
    refine Or.inl ⟨o', ?_, Or.inl rfl⟩
    rw [← Inner.outputs_tryStart s.inner limits]
    simp only [step] at ho
    split at ho <;> next heq => rw [heq]; exact ho
  | pushOutput target stream text => exact Or.inl (Inner.pushOutput_log ho)
  | cancel target now =>
    refine Or.inl ⟨o', ?_, Or.inl rfl⟩
    rw [← Inner.outputs_cancel s.inner target now]
    exact ho
  | complete target outcome workspaceChanged now => exact Or.inl (Inner.complete_log ho)
  | getChecked target now =>
    exact Or.inl ⟨o', (Inner.getChecked_fades s.inner limits target now).lookup ho, Or.inl rfl⟩
  | pollOutput target cursor now =>
    exact Or.inl ⟨o', (Inner.pollOutput_fades s.inner limits target cursor now).lookup ho,
      Or.inl rfl⟩
  | cleanup iteration now =>
    refine Or.inl ⟨o', Inner.OutputsFade.lookup ?_ ho, Or.inl rfl⟩
    exact Inner.foldl_forget_fades _ s.inner
  | callSink call =>
    refine Or.inl ⟨o', ?_, Or.inl rfl⟩
    simp only [step] at ho
    split at ho <;> exact ho

end JobSystem

end Registry

section Reader

/-- One answer to the reader: the cursor it sent, what it got, and the elements that were retained
then, which it does not see. -/
structure Poll where
  cursor : Option ℕ
  status : JobStatus
  read : OutputLogRead
  eof : Bool
  retained : List OutputEvent
  deriving DecidableEq

/-- The registry and a reader of one job. `pushed` numbers what was pushed to the job. -/
structure PolledJob where
  jobs : JobSystem
  pushed : List OutputEvent
  cursor : Option ℕ
  polls : List Poll
  deriving DecidableEq

inductive PollingOp where
  | registry (op : RegistryOp)
  | poll (now : ℤ)

namespace PolledJob

variable (limits : JobLimits) (genToolJobId : ℕ → String) (id : String) (s : PolledJob)

/-- The reader has not asked yet. -/
def new : PolledJob := ⟨.new, [], none, []⟩

def retained (g : Inner) : List OutputEvent :=
  ((g.outputs.lookup id).map fun o => o.2.events).getD []

/-- What an operation pushes to the job. -/
def pushes : RegistryOp → List OutputEvent
  | .pushOutput target stream text =>
    if target = id ∧ text.isEmpty = false ∧ (s.jobs.inner.outputs.lookup id).isSome then
      [⟨s.pushed.length + 1, stream, text⟩]
    else []
  | _ => []

/-- The reader passes the cursor of the last answer. -/
def step : PollingOp → PolledJob
  | .registry op =>
    { s with jobs := s.jobs.step limits genToolJobId op, pushed := s.pushed ++ s.pushes id op }
  | .poll now =>
    match s.jobs.inner.pollOutput limits id s.cursor now with
    | (.found status _ read eof, g) =>
      { s with
        jobs := { s.jobs with inner := g }
        cursor := some read.nextCursor
        polls := s.polls ++ [⟨s.cursor, status, read, eof, retained id g⟩] }
    | (_, g) => { s with jobs := { s.jobs with inner := g } }

def Permits : PollingOp → Prop
  | .registry op => s.jobs.Permits genToolJobId op
  | .poll _ => True

instance (op : PollingOp) : Decidable (s.Permits genToolJobId op) :=
  match op with
  | .registry op => inferInstanceAs (Decidable (s.jobs.Permits genToolJobId op))
  | .poll _ => .isTrue trivial

/-- The elements of the answers, in the order in which they came. -/
def returned (polls : List Poll) : List OutputEvent := polls.flatMap fun p => p.read.items

/-- The answer holds each element in front of its next cursor that the reader has not passed. -/
def Shows (pushed : List OutputEvent) (p : Poll) : Prop :=
  ∀ e ∈ pushed, p.cursor.getD 0 ≤ e.seq → e.seq < p.read.nextCursor → e ∈ p.read.items

/-- The answer has the first retained elements and says nothing of those that are gone. -/
def StartsAtRetained (p : Poll) : Prop :=
  p.read.truncated = false ∧ p.read.items = p.retained.take maxItemsPerResponse

/-- The end is announced only when the job is over and all that is retained was returned. -/
def EofIsTrue (polls : List Poll) : Prop :=
  ∀ before p after, polls = before ++ p :: after → p.eof = true →
    p.status.isTerminal = true ∧ ∀ e ∈ p.retained, e ∈ returned (before ++ [p])

/-- The reader's past. -/
structure Account (pushed : List OutputEvent) (cursor : Option ℕ) (polls : List Poll) : Prop where
  numbered : Numbered pushed
  started : cursor ≠ some 0
  reached : cursor.getD 0 ≤ pushed.length + 1
  items : ∀ e ∈ returned polls, e ∈ pushed ∧ e.seq < cursor.getD 0
  sorted : ((returned polls).map (·.seq)).Pairwise (· < ·)
  shown : ∀ p ∈ polls, p.read.nextCursor ≤ pushed.length + 1 ∧
    (p.read.truncated = false → p.cursor.isSome = true → Shows pushed p)
  first : ∀ p ∈ polls, p.cursor = none → StartsAtRetained p
  eof : EofIsTrue polls

/-- What the reader has passed was returned to it or is gone from the ring. -/
def Passed (cursor : Option ℕ) (polls : List Poll) (pushed : List OutputEvent) (dropped : ℕ) :
    Prop :=
  ∀ e ∈ pushed, e.seq < cursor.getD 0 → e ∈ returned polls ∨ e.seq ≤ dropped

structure Good : Prop where
  jobs : s.jobs.Good limits
  counts : ∀ other o, s.jobs.inner.outputs.lookup other = some o → o.2.CountsBytes
  account : Account s.pushed s.cursor s.polls
  fresh : id ∉ s.jobs.registeredIds → s.pushed = [] ∧ s.cursor = none
  log : ∀ o, s.jobs.inner.outputs.lookup id = some o →
    ∃ dropped, o.2.Holds s.pushed dropped ∧ Passed s.cursor s.polls s.pushed dropped

end PolledJob

end Reader

section Runs

open PolledJob
open JobSystem (oneAtATime inOrder drawnIds make succeeded)

variable {limits : JobLimits} {genToolJobId : ℕ → String} {id : String} {s : PolledJob}
  {pushed : List OutputEvent} {cursor : Option ℕ} {polls : List Poll}

theorem returned_append (polls : List Poll) (p : Poll) :
    returned (polls ++ [p]) = returned polls ++ p.read.items := by
  simp [returned]

theorem PolledJob.Account.push (h : Account pushed cursor polls) (stream : SessionStream)
    (text : String) :
    Account (pushed ++ [⟨pushed.length + 1, stream, text⟩]) cursor polls where
  numbered := h.numbered.append stream text
  started := h.started
  reached := by
    have hle := h.reached
    simp only [length_append, length_singleton]
    omega
  items := fun e he => ⟨mem_append_left _ (h.items e he).1, (h.items e he).2⟩
  sorted := h.sorted
  shown := by
    intro p hp
    obtain ⟨hnext, hshows⟩ := h.shown p hp
    constructor
    · simp only [length_append, length_singleton]
      omega
    · intro htrunc hsome e he hfrom hto
      rcases mem_append.mp he with he | he
      · exact hshows htrunc hsome e he hfrom hto
      · obtain rfl := mem_singleton.mp he
        simp only at hto
        omega
  first := h.first
  eof := h.eof

/-- The answer has what was pushed, from a number on to its next cursor. -/
structure PolledJob.Stretch (pushed : List OutputEvent) (start : ℕ) (p : Poll) : Prop where
  sub : ∀ e ∈ p.read.items, e ∈ pushed
  mem_iff : ∀ e ∈ pushed, e ∈ p.read.items ↔ start ≤ e.seq ∧ e.seq < p.read.nextCursor
  sorted : (p.read.items.map (·.seq)).Pairwise (· < ·)
  le : start ≤ p.read.nextCursor
  next : p.read.nextCursor ≤ pushed.length + 1

section Answer

variable {log : JobOutputLog} {dropped : ℕ} {p : Poll}

/-- A read gives a stretch from the cursor on, or from the first retained element. -/
theorem PolledJob.stretch_read (hnum : Numbered pushed) (hlog : log.Holds pushed dropped)
    (hreached : cursor.getD 0 ≤ pushed.length + 1) (hp : p.read = log.read cursor) :
    Stretch pushed (max (cursor.getD 0) (dropped + 1)) p := by
  generalize hstart : max (cursor.getD 0) (dropped + 1) = start
  have hread := hp.trans (JobOutputLog.read_eq hlog hnum hstart.symm)
  generalize hitems : (pushed.drop (start - 1)).take maxItemsPerResponse = items at hread
  have hle := hlog.le
  have hgot : p.read.items = items := by rw [hread]
  have hnext : p.read.nextCursor = start + items.length := by rw [hread]
  have hcount : items.length = min maxItemsPerResponse (pushed.length - (start - 1)) := by
    rw [← hitems, length_take, length_drop]
  refine ⟨fun e he => ?_, fun e he => ?_, ?_, by omega, by omega⟩
  · rw [hgot, ← hitems] at he
    exact mem_of_mem_drop (mem_of_mem_take he)
  · have hpos := hnum.seq_pos he
    rw [hnext, hcount, hgot, ← hitems, hnum.mem_slice_iff he]
    omega
  · rw [hgot, ← hitems]
    exact (hnum.sorted_drop (start - 1)).sublist ((take_sublist _ _).map _)

/-- A read without a cursor starts at the first retained element. -/
theorem PolledJob.startsAtRetained_read (hnum : Numbered pushed) (hlog : log.Holds pushed dropped)
    (hread : p.read = log.read none) (hretained : p.retained = log.events) :
    StartsAtRetained p := by
  have heq := hread.trans (JobOutputLog.read_eq hlog hnum rfl)
  constructor
  · rw [heq]
    rfl
  · rw [heq, hretained, hlog.events]
    simp

theorem PolledJob.Passed.poll (h : Passed cursor polls pushed dropped)
    (hp : Stretch pushed (max (cursor.getD 0) (dropped + 1)) p) :
    Passed (some p.read.nextCursor) (polls ++ [p]) pushed dropped := by
  intro e he hlt
  rw [getD_some] at hlt
  rw [returned_append, mem_append]
  by_cases hpast : e.seq < cursor.getD 0
  · exact (h e he hpast).imp_left Or.inl
  · by_cases hgone : e.seq ≤ dropped
    · exact Or.inr hgone
    · exact Or.inl (Or.inr ((hp.mem_iff e he).mpr ⟨by omega, hlt⟩))

theorem PolledJob.EofIsTrue.append (h : EofIsTrue polls)
    (hp : p.eof = true →
      p.status.isTerminal = true ∧ ∀ e ∈ p.retained, e ∈ returned (polls ++ [p])) :
    EofIsTrue (polls ++ [p]) := by
  intro before q after hsplit heof
  rcases eq_nil_or_concat after with rfl | ⟨after, last, rfl⟩
  · obtain ⟨rfl, hq⟩ := append_inj' hsplit rfl
    obtain rfl := (List.cons.inj hq).1
    exact hp heof
  · rw [concat_eq_append, ← cons_append, ← append_assoc] at hsplit
    exact h before q after (append_inj' hsplit rfl).1 heof

/-- One more answer, read off a ring that holds the pushed elements. -/
theorem PolledJob.Account.poll (h : Account pushed cursor polls)
    (hlog : log.Holds pushed dropped) (hpassed : Passed cursor polls pushed dropped)
    (status : JobStatus)
    (hp : p = ⟨cursor, status, log.read cursor,
      status.isTerminal && decide (log.written < (log.read cursor).nextCursor), log.events⟩) :
    Account pushed (some p.read.nextCursor) (polls ++ [p]) ∧
      Passed (some p.read.nextCursor) (polls ++ [p]) pushed dropped := by
  have hread : p.read = log.read cursor := by rw [hp]
  have hstretch := stretch_read h.numbered hlog h.reached hread
  have hpassed' := hpassed.poll hstretch
  have hle := hstretch.le
  refine ⟨⟨h.numbered, ?_, hstretch.next, ?_, ?_, ?_, ?_, h.eof.append fun heof => ?_⟩, hpassed'⟩
  · rw [ne_eq, Option.some.injEq]
    omega
  · intro e he
    rw [getD_some]
    rw [returned_append] at he
    rcases mem_append.mp he with he | he
    · have hold := h.items e he
      exact ⟨hold.1, by omega⟩
    · have hsub := hstretch.sub e he
      exact ⟨hsub, ((hstretch.mem_iff e hsub).mp he).2⟩
  · rw [returned_append, map_append, pairwise_append]
    refine ⟨h.sorted, hstretch.sorted, ?_⟩
    intro a ha b hb
    obtain ⟨e, he, rfl⟩ := List.mem_map.mp ha
    obtain ⟨e', he', rfl⟩ := List.mem_map.mp hb
    have hold := (h.items e he).2
    have hnew := ((hstretch.mem_iff e' (hstretch.sub e' he')).mp he').1
    omega
  · intro q hq
    rcases mem_append.mp hq with hq | hq
    · exact h.shown q hq
    · obtain rfl := mem_singleton.mp hq
      refine ⟨hstretch.next, fun htrunc hsome e he hfrom hto => ?_⟩
      have hcursor : q.cursor = cursor := by rw [hp]
      obtain ⟨c, hc⟩ := isSome_iff_exists.mp hsome
      rw [hcursor] at hc hfrom
      have hne := h.started
      rw [hc, ne_eq, Option.some.injEq] at hne
      rw [hread, JobOutputLog.read_eq hlog h.numbered rfl, hc] at htrunc
      simp only [getD_some, Bool.and_eq_false_iff, bne_eq_false_iff_eq,
        decide_eq_false_iff_not] at htrunc
      refine (hstretch.mem_iff e he).mpr ⟨?_, hto⟩
      rw [hc, getD_some] at hfrom ⊢
      omega
  · intro q hq hnone
    rcases mem_append.mp hq with hq | hq
    · exact h.first q hq hnone
    · obtain rfl := mem_singleton.mp hq
      obtain rfl : cursor = none := by
        rw [hp] at hnone
        exact hnone
      exact startsAtRetained_read h.numbered hlog hread (by rw [hp])
  · rw [hp] at heof
    simp only [Bool.and_eq_true, decide_eq_true_eq] at heof
    rw [← hread, hlog.written] at heof
    refine ⟨by rw [hp]; exact heof.1, fun e he => ?_⟩
    have hretained : e ∈ pushed.drop dropped := by
      rw [← hlog.events]
      rw [hp] at he
      exact he
    have hin := mem_of_mem_drop hretained
    have hgt := (h.numbered.mem_drop_iff hin).mp hretained
    have hbound := h.numbered.seq_pos hin
    refine (hpassed' e hin ?_).resolve_right (by omega)
    rw [getD_some]
    omega

end Answer

theorem PolledJob.new_good : Good limits id PolledJob.new := by
  refine ⟨⟨Inner.new_tidy, JobSystem.new_accounts⟩, ?_, ?_, fun _ => ⟨rfl, rfl⟩, ?_⟩
  · intro other o ho
    cases ho
  · exact ⟨Numbered.nil, by simp [PolledJob.new], Nat.zero_le _,
      by simp [PolledJob.new, returned], List.Pairwise.nil, by simp [PolledJob.new],
      by simp [PolledJob.new], by
        intro before p after hsplit
        simp [PolledJob.new] at hsplit⟩
  · intro o ho
    cases ho

theorem PolledJob.Passed.mono {dropped dropped' : ℕ} (h : Passed cursor polls pushed dropped)
    (hle : dropped ≤ dropped') : Passed cursor polls pushed dropped' := by
  intro e he hlt
  exact (h e he hlt).imp id fun hgone => Nat.le_trans hgone hle

theorem PolledJob.Passed.push {dropped : ℕ} (h : Passed cursor polls pushed dropped)
    (hreached : cursor.getD 0 ≤ pushed.length + 1) (stream : SessionStream) (text : String) :
    Passed cursor polls (pushed ++ [⟨pushed.length + 1, stream, text⟩]) dropped := by
  intro e he hlt
  rcases mem_append.mp he with he | he
  · exact h e he hlt
  · obtain rfl := mem_singleton.mp he
    simp only at hlt
    omega

theorem PolledJob.Good.fade (hs : s.Good limits id) {g : Inner}
    (hkeeps : s.jobs.inner.Keeps limits g) (hfade : s.jobs.inner.OutputsFade g) :
    Good limits id { s with jobs := { s.jobs with inner := g } } where
  jobs := hs.jobs.keeps hkeeps
  counts := fun other o ho => hs.counts other o (hfade.lookup ho)
  account := hs.account
  fresh := hs.fresh
  log := fun o ho => hs.log o (hfade.lookup ho)

theorem PolledJob.Good.registered (hs : s.Good limits id) {o : String × JobOutputLog}
    (ho : s.jobs.inner.outputs.lookup id = some o) : id ∈ s.jobs.registeredIds := by
  obtain ⟨hmem, rfl⟩ := Table.lookup_eq_some_iff.mp ho
  refine hs.jobs.accounts.live.subset ?_
  rw [← hs.jobs.tidy.outputs]
  exact List.mem_map_of_mem hmem

theorem registeredIds_step (s : JobSystem) (op : RegistryOp) (h : id ∈ s.registeredIds) :
    id ∈ (s.step limits genToolJobId op).registeredIds := by
  cases op with
  | register iteration now workspace sourceTurnJobId spawn argsJson finishedSink =>
    simp only [JobSystem.step]
    split
    · simp only [JobSystem.registeredIds, map_append, mem_append]
      exact Or.inl h
    · exact h
  | tryStart =>
    simp only [JobSystem.step]
    split <;> exact h
  | callSink call =>
    simp only [JobSystem.step]
    split <;> exact h
  | _ => exact h

theorem pushes_of_none (h : s.jobs.inner.outputs.lookup id = none) (op : RegistryOp) :
    s.pushes id op = [] := by
  cases op with
  | pushOutput target stream text => simp [pushes, h]
  | _ => rfl

theorem PolledJob.Good.registry_counts (hs : s.Good limits id) (op : RegistryOp) {other : String}
    {o' : String × JobOutputLog}
    (ho' : (s.jobs.step limits genToolJobId op).inner.outputs.lookup other = some o') :
    o'.2.CountsBytes := by
  rcases JobSystem.step_log ho' with ⟨o, ho, hstep⟩ | ⟨hdefault, -⟩
  · have hold := hs.counts other o ho
    cases op with
    | pushOutput target stream text =>
      rw [show o'.2 = _ from hstep]
      split
      · exact JobOutputLog.push_counts hold stream text _
      · exact hold
    | _ =>
      rcases hstep with hsame | ⟨maxPerStream, htrim⟩
      · rwa [hsame]
      · rw [htrim]
        exact JobOutputLog.terminalTrim_counts hold maxPerStream
  · rw [hdefault]
    exact JobOutputLog.default_counts

theorem PolledJob.Good.registry_account (hs : s.Good limits id) (op : RegistryOp) :
    Account (s.pushed ++ s.pushes id op) s.cursor s.polls := by
  cases op with
  | pushOutput target stream text =>
    simp only [pushes]
    split
    · exact hs.account.push stream text
    · rw [append_nil]
      exact hs.account
  | _ =>
    simp only [pushes, append_nil]
    exact hs.account

theorem PolledJob.Good.registry_fresh (hs : s.Good limits id) (op : RegistryOp)
    (hnew : id ∉ (s.jobs.step limits genToolJobId op).registeredIds) :
    s.pushed ++ s.pushes id op = [] ∧ s.cursor = none := by
  have hold : id ∉ s.jobs.registeredIds := fun h => hnew (registeredIds_step s.jobs op h)
  have hnone : s.jobs.inner.outputs.lookup id = none := by
    by_contra hne
    obtain ⟨o, ho⟩ := ne_none_iff_exists'.mp hne
    exact hold (hs.registered ho)
  obtain ⟨hpushed, hcursor⟩ := hs.fresh hold
  exact ⟨by rw [hpushed, pushes_of_none hnone, nil_append], hcursor⟩

/-- The log behind one push: to this job or another one, of a text or of nothing. -/
theorem PolledJob.Good.pushOutput_log (hs : s.Good limits id) {o o' : String × JobOutputLog}
    (ho : s.jobs.inner.outputs.lookup id = some o) {target text : String}
    {stream : SessionStream}
    (hlog : o'.2 = if target = id then (o.2.push stream text limits.outputBufferBytes).1
      else o.2) :
    ∃ dropped, o'.2.Holds (s.pushed ++ s.pushes id (.pushOutput target stream text)) dropped ∧
      Passed s.cursor s.polls (s.pushed ++ s.pushes id (.pushOutput target stream text))
        dropped := by
  obtain ⟨dropped, hholds, hpassed⟩ := hs.log o ho
  simp only [pushes, ho, isSome_some, and_true]
  by_cases htarget : target = id
  · rw [if_pos htarget] at hlog
    cases htext : text.isEmpty with
    | true =>
      rw [JobOutputLog.push_empty stream htext] at hlog
      exact ⟨dropped, by simpa [hlog] using hholds, by simpa using hpassed⟩
    | false =>
      obtain ⟨dropped', hle, hholds'⟩ :=
        JobOutputLog.push_holds hholds stream htext limits.outputBufferBytes
      refine ⟨dropped', ?_, ?_⟩
      · simpa [htarget, hlog] using hholds'
      · simpa [htarget] using (hpassed.mono hle).push hs.account.reached stream text
  · rw [if_neg htarget] at hlog
    exact ⟨dropped, by simpa [htarget, hlog] using hholds, by simpa [htarget] using hpassed⟩

theorem PolledJob.Good.registry_log (hs : s.Good limits id) (op : RegistryOp)
    (hop : s.jobs.Permits genToolJobId op) {o' : String × JobOutputLog}
    (ho' : (s.jobs.step limits genToolJobId op).inner.outputs.lookup id = some o') :
    ∃ dropped, o'.2.Holds (s.pushed ++ s.pushes id op) dropped ∧
      Passed s.cursor s.polls (s.pushed ++ s.pushes id op) dropped := by
  rcases JobSystem.step_log ho' with ⟨o, ho, hstep⟩ | ⟨hdefault, iteration, now, workspace,
    sourceTurnJobId, spawn, argsJson, finishedSink, rfl, hid⟩
  · cases op with
    | pushOutput target stream text => exact hs.pushOutput_log ho hstep
    | _ =>
      obtain ⟨dropped, hholds, hpassed⟩ := hs.log o ho
      simp only [pushes, append_nil]
      rcases hstep with hsame | ⟨maxPerStream, htrim⟩
      · rw [hsame]
        exact ⟨dropped, hholds, hpassed⟩
      · obtain ⟨dropped', hle, hholds'⟩ := JobOutputLog.terminalTrim_holds hholds maxPerStream
        rw [htrim]
        exact ⟨dropped', hholds', hpassed.mono hle⟩
  · have hnew : id ∉ s.jobs.registeredIds := by
      rw [← hid]
      exact hop
    obtain ⟨hpushed, hcursor⟩ := hs.fresh hnew
    simp only [pushes, append_nil, hpushed, hcursor]
    refine ⟨0, ?_, ?_⟩
    · rw [hdefault]
      exact JobOutputLog.default_holds
    · intro e he
      cases he

theorem PolledJob.Good.registry (hs : s.Good limits id) (op : RegistryOp)
    (hop : s.jobs.Permits genToolJobId op) :
    Good limits id (s.step limits genToolJobId id (.registry op)) where
  jobs := JobSystem.step_good hs.jobs op hop
  counts := fun _ _ ho' => hs.registry_counts op ho'
  account := hs.registry_account op
  fresh := hs.registry_fresh op
  log := fun _ ho' => hs.registry_log op hop ho'

theorem PolledJob.step_good (hs : s.Good limits id) (op : PollingOp)
    (hop : s.Permits genToolJobId op) : (s.step limits genToolJobId id op).Good limits id := by
  cases op with
  | registry op => exact hs.registry op hop
  | poll now =>
    have hfaded := hs.fade (Inner.pollOutput_keeps hs.jobs.tidy id s.cursor now)
      (Inner.pollOutput_fades s.jobs.inner limits id s.cursor now)
    simp only [PolledJob.step]
    split
    · next status workspace read eof g hpoll =>
      obtain ⟨rfl, o, ho, rfl, rfl⟩ := Inner.pollOutput_found hs.jobs.tidy hpoll
      obtain ⟨dropped, hholds, hpassed⟩ := hs.log o ho
      have hretained : retained id s.jobs.inner = o.2.events := by
        rw [retained, ho]
        rfl
      rw [hretained]
      obtain ⟨haccount, hpassed'⟩ := hs.account.poll hholds hpassed status rfl
      refine ⟨hs.jobs, hs.counts, haccount, fun hnew => ?_, fun o' ho' => ?_⟩
      · exact absurd (hs.registered ho) hnew
      · cases ho.symm.trans ho'
        exact ⟨dropped, hholds, hpassed'⟩
    · next hpoll =>
      rw [hpoll] at hfaded
      exact hfaded

/-- Output polling neither repeats nor hides output. The first answer starts at the first
retained element without saying so; every later one says when it leaves elements out. -/
theorem polling_returns_output (limits : JobLimits) (genToolJobId : ℕ → String) (id : String)
    (ops : List PollingOp)
    (hops : AllOk (PolledJob.step limits genToolJobId id) (PolledJob.Permits genToolJobId) .new
      ops) :
    let s := run (PolledJob.step limits genToolJobId id) .new ops
    ((returned s.polls).map (·.seq)).Pairwise (· < ·) ∧
      (∀ p ∈ s.polls, p.read.truncated = false → p.cursor.isSome = true → Shows s.pushed p) ∧
      (∀ p ∈ s.polls, p.cursor = none → StartsAtRetained p) ∧
      EofIsTrue s.polls ∧
      ∀ other o, s.jobs.inner.outputs.lookup other = some o → o.2.CountsBytes := by
  intro s
  have hgood : Good limits id s := @invariant _ _ (PolledJob.step limits genToolJobId id)
    (PolledJob.Permits genToolJobId) (Good limits id)
    (fun _ op hs hop => PolledJob.step_good hs op hop) _ PolledJob.new_good ops hops
  exact ⟨hgood.account.sorted, fun p hp => (hgood.account.shown p hp).2, hgood.account.first,
    hgood.account.eof, hgood.counts⟩

/-- The job of the witnesses writes four times into a ring of 64 bytes. -/
def chatty : List PollingOp :=
  [.registry (.register inOrder 0 "/ws" none make "args" none), .registry .tryStart,
    .registry (.pushOutput (drawnIds 0) .stdout "one"), .poll 1,
    .registry (.pushOutput (drawnIds 0) .stderr (String.ofList (List.replicate 40 'a'))),
    .registry (.pushOutput (drawnIds 0) .stdout (String.ofList (List.replicate 40 'b'))),
    .poll 2, .registry (.complete (drawnIds 0) succeeded false 3), .poll 4]

theorem polling_returns_output_chatty :
    AllOk (PolledJob.step oneAtATime drawnIds (drawnIds 0)) (PolledJob.Permits drawnIds) .new
        chatty ∧
      let s := run (PolledJob.step oneAtATime drawnIds (drawnIds 0)) .new chatty
      ((returned s.polls).map (·.seq)).Pairwise (· < ·) ∧
        (returned s.polls).map (·.seq) = [1, 3] ∧
        s.polls.map (fun p => (p.read.truncated, p.eof)) =
          [(false, false), (true, false), (false, true)] := by
  have hok : AllOk (PolledJob.step oneAtATime drawnIds (drawnIds 0)) (PolledJob.Permits drawnIds)
      .new chatty := by
    decide +kernel
  exact ⟨hok, (polling_returns_output oneAtATime drawnIds (drawnIds 0) chatty hok).1,
    by decide +kernel, by decide +kernel⟩

/-- A reader that comes late. -/
def lateReader : List PollingOp :=
  [.registry (.register inOrder 0 "/ws" none make "args" none), .registry .tryStart,
    .registry (.pushOutput (drawnIds 0) .stdout (String.ofList (List.replicate 40 'a'))),
    .registry (.pushOutput (drawnIds 0) .stdout (String.ofList (List.replicate 40 'b'))), .poll 1]

/-- The first answer leaves out what is gone and says nothing of it. -/
theorem not_first_answer_complete :
    ¬ ∀ (limits : JobLimits) (genToolJobId : ℕ → String) (id : String) (ops : List PollingOp),
      AllOk (PolledJob.step limits genToolJobId id) (PolledJob.Permits genToolJobId) .new ops →
        let s := run (PolledJob.step limits genToolJobId id) .new ops
        ∀ p ∈ s.polls, p.read.truncated = false → Shows s.pushed p := by
  intro h
  have hok : AllOk (PolledJob.step oneAtATime drawnIds (drawnIds 0)) (PolledJob.Permits drawnIds)
      .new lateReader := by
    decide +kernel
  have hall := h oneAtATime drawnIds (drawnIds 0) lateReader hok
  revert hall
  unfold Shows
  decide +kernel

end Runs

end CrabMate
