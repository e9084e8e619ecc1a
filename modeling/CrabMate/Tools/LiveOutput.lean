import CrabMate.Lib.Utf8Stream
import CrabMate.Jobs.Output

/-! The live output of a child process: bytes read from its pipes, queued, and sent as texts by a
sink that may reject them. -/
namespace CrabMate
open RustStr List Option Function
open Utf8

def SessionStream.asSseLabel : SessionStream → Str
  | .stdout => "stdout".toList
  | .stderr => "stderr".toList

section Text

/-- The loop of `take_utf8_text`, for some rounds; none also where its `expect` would fail. -/
def takeUtf8Loop (finish : Bool) : ℕ → List UInt8 → Str → Option (Str × List UInt8)
  | 0, _, _ => none
  | rounds + 1, pending, out =>
    match fromUtf8Strict pending with
    | .ok s => some (out ++ s, [])
    | .error e =>
      if 0 < e.validUpTo then
        match fromUtf8Strict (pending.take e.validUpTo) with
        | .ok valid => takeUtf8Loop finish rounds (pending.drop e.validUpTo) (out ++ valid)
        | .error _ => none
      else
        match e.errorLen with
        | some n =>
          takeUtf8Loop finish rounds (pending.drop (min (max n 1) pending.length))
            (out ++ [replacement])
        | none =>
          if finish && !pending.isEmpty then some (out ++ [replacement], [])
          else some (out, pending)

def takeUtf8Text (pending incoming : List UInt8) (finish : Bool) : Option (Str × List UInt8) :=
  takeUtf8Loop finish ((pending ++ incoming).length + 1) (pending ++ incoming) []

/-- The text taken is the decoding of what is not left over, whatever follows. -/
def Takes (finish : Bool) (bytes : List UInt8) (text : Str) (left : List UInt8) : Prop :=
  if finish then left = [] ∧ text = fromUtf8Lossy bytes
  else ∀ zs, fromUtf8Lossy (bytes ++ zs) = text ++ fromUtf8Lossy (left ++ zs)

theorem Takes.of_front {finish : Bool} {bytes rest left : List UInt8} {front text : Str}
    (hfront : ∀ zs, fromUtf8Lossy (bytes ++ zs) = front ++ fromUtf8Lossy (rest ++ zs))
    (h : Takes finish rest text left) : Takes finish bytes (front ++ text) left := by
  cases finish with
  | true =>
    obtain ⟨hleft, htext⟩ := h
    refine ⟨hleft, ?_⟩
    have hall := hfront []
    rwa [append_nil, append_nil, ← htext, eq_comm] at hall
  | false =>
    intro zs
    rw [hfront, h zs, append_assoc]

theorem fromUtf8Strict_eq_error_iff {bytes : List UInt8} {e : Utf8Error} :
    fromUtf8Strict bytes = .error e ↔ fromUtf8Error? bytes = some e := by
  rw [fromUtf8Strict]
  cases fromUtf8Error? bytes <;> simp

/-- Each round but the last takes a byte away. -/
theorem takeUtf8Loop_spec (finish : Bool) (bytes : List UInt8) :
    ∃ text left, Takes finish bytes text left ∧ ∀ rounds > bytes.length, ∀ out,
      takeUtf8Loop finish rounds bytes out = some (out ++ text, left) := by
  induction hn : bytes.length using Nat.strong_induction_on generalizing bytes with
  | _ n ih =>
    subst hn
    cases hread : fromUtf8Strict bytes with
    | ok s =>
      obtain ⟨hvalid, rfl⟩ := fromUtf8Strict_eq_ok_iff.mp hread
      refine ⟨fromUtf8Lossy bytes, [], ?_, fun rounds hrounds out => ?_⟩
      · cases finish with
        | true => exact ⟨rfl, rfl⟩
        | false => exact fun zs => hvalid.fromUtf8Lossy_append zs
      · obtain ⟨rounds, rfl⟩ := Nat.exists_eq_add_of_lt hrounds
        rw [takeUtf8Loop, hread]
    | error e =>
      have herror := fromUtf8Strict_eq_error_iff.mp hread
      obtain ⟨front, rest, rfl, hlen, hfront, hrest⟩ := split_of_error herror
      by_cases hvalid : 0 < e.validUpTo
      · obtain ⟨text, left, htakes, hloop⟩ := ih rest.length (by simp; omega) rest rfl
        refine ⟨fromUtf8Lossy front ++ text, left, htakes.of_front fun zs => ?_,
          fun rounds hrounds out => ?_⟩
        · rw [append_assoc, hfront.fromUtf8Lossy_append]
        · obtain ⟨rounds, rfl⟩ := Nat.exists_eq_add_of_lt hrounds
          have hok := fromUtf8Strict_eq_ok_iff.mpr ⟨hfront, rfl⟩
          rw [takeUtf8Loop, hread]
          dsimp only
          rw [if_pos hvalid, ← hlen, take_left, hok, drop_left]
          dsimp only
          rw [hloop _ (by simp; omega), append_assoc]
      · obtain rfl : front = [] := eq_nil_of_length_eq_zero (by omega)
        rw [nil_append] at hread ih ⊢
        cases hbad : e.errorLen with
        | some n =>
          rw [hbad] at hrest
          obtain ⟨bad, tail, rfl, hbadlen, hpos, hreplaced⟩ := replaced_of_error hrest
          obtain ⟨text, left, htakes, hloop⟩ := ih tail.length (by simp; omega) tail rfl
          refine ⟨[replacement] ++ text, left, htakes.of_front hreplaced,
            fun rounds hrounds out => ?_⟩
          obtain ⟨rounds, rfl⟩ := Nat.exists_eq_add_of_lt hrounds
          have hdrop : min (max n 1) (bad ++ tail).length = bad.length := by
            rw [length_append]
            omega
          rw [takeUtf8Loop, hread]
          dsimp only
          rw [if_neg hvalid, hbad]
          dsimp only
          rw [hdrop, drop_left, hloop _ (by simp; omega), append_assoc]
        | none =>
          rw [hbad] at hrest
          have hne : rest.isEmpty = false := by
            cases rest with
            | nil => cases hrest
            | cons b rest => rfl
          have hround : ∀ rounds > rest.length, ∀ out, takeUtf8Loop finish rounds rest out =
              if finish then some (out ++ [replacement], []) else some (out, rest) := by
            intro rounds hrounds out
            obtain ⟨rounds, rfl⟩ := Nat.exists_eq_add_of_lt hrounds
            rw [takeUtf8Loop, hread]
            dsimp only
            rw [if_neg hvalid, hbad, hne, Bool.not_false, Bool.and_true]
          cases finish with
          | true => exact ⟨[replacement], [], ⟨rfl, (cut_of_error hrest).symm⟩, hround⟩
          | false =>
            refine ⟨[], rest, fun zs => rfl, fun rounds hrounds out => ?_⟩
            rw [hround rounds hrounds, append_nil]
            rfl

theorem takeUtf8Text_spec (pending incoming : List UInt8) (finish : Bool) :
    ∃ text left, takeUtf8Text pending incoming finish = some (text, left) ∧
      Takes finish (pending ++ incoming) text left := by
  obtain ⟨text, left, htakes, hloop⟩ := takeUtf8Loop_spec finish (pending ++ incoming)
  exact ⟨text, left, hloop _ (Nat.lt_succ_self _) [], htakes⟩

end Text

section Sink

structure ToolOutputChunkBody where
  toolCallId : Str
  name : Option Str
  seq : ℕ
  chunk : Str
  stream : Option Str

/-- The sink of one tool call: the last sequence number, the bytes held back for each stream, and
the chunks that were accepted, with their streams. -/
structure SinkState where
  seq : ℕ
  utf8Pending : SessionStream → List UInt8
  accepted : List (SessionStream × ToolOutputChunkBody)

def SinkState.empty : SinkState := ⟨0, fun _ => [], []⟩

variable (toolCallId : Str)

/-- `accept` is the answer of the channel. A rejected chunk leaves the sink as it was. -/
def emitRunCommandToolOutputChunk (accept : Bool) (stream : SessionStream) (bytes : List UInt8)
    (s : SinkState) : Option (Bool × SinkState) :=
  match takeUtf8Text (s.utf8Pending stream) bytes bytes.isEmpty with
  | none => none
  | some (text, left) =>
    let utf8Pending := Function.update s.utf8Pending stream left
    if text.isEmpty then some (true, { s with utf8Pending })
    else
      let n := s.seq + 1
      let chunk := ⟨toolCallId, some "run_command".toList, n, text, some stream.asSseLabel⟩
      if accept then some (true, ⟨n, utf8Pending, s.accepted ++ [(stream, chunk)]⟩)
      else some (false, s)

structure DrainEvent where
  stream : SessionStream
  bytes : List UInt8

/-- The queue between the readers and the sink, and what the readers keep for the result. -/
structure Live where
  sink : SinkState
  queue : List DrainEvent
  kept : SessionStream → List UInt8

def Live.empty : Live := ⟨.empty, [], fun _ => []⟩

def appendCaptured (maxBytes : ℕ) (uncappedLive : Bool) (stream : SessionStream)
    (chunk : List UInt8) (l : Live) : Live :=
  let g := l.kept stream
  let room := maxBytes - g.length
  let n := min chunk.length room
  let kept := Function.update l.kept stream (g ++ chunk.take n)
  let toLive := if uncappedLive then chunk else chunk.take n
  if toLive.isEmpty then { l with kept }
  else { l with kept, queue := l.queue ++ [⟨stream, toLive⟩] }

/-- One round of the loop of `flush_live_chunks`: the readers may push between two rounds, and a
rejected event goes back to the front. -/
def flushRound (accept : Bool) (l : Live) : Option Live :=
  match l.queue with
  | [] => some l
  | ev :: rest =>
    if ev.bytes.isEmpty then some { l with queue := rest }
    else
      match emitRunCommandToolOutputChunk toolCallId accept ev.stream ev.bytes l.sink with
      | none => none
      | some (true, sink) => some { l with sink, queue := rest }
      | some (false, sink) => some { l with sink, queue := ev :: rest }

/-- The flush at the end, when no reader is left and every send is accepted. -/
def drainLiveChunksAfterReap : List DrainEvent → SinkState → Option SinkState
  | [], s => some s
  | ev :: rest, s =>
    if ev.bytes.isEmpty then drainLiveChunksAfterReap rest s
    else
      (emitRunCommandToolOutputChunk toolCallId true ev.stream ev.bytes s).bind fun r =>
        drainLiveChunksAfterReap rest r.2

def finishChunkSink (s : SinkState) : Option SinkState :=
  (emitRunCommandToolOutputChunk toolCallId true .stdout [] s).bind fun r =>
    (emitRunCommandToolOutputChunk toolCallId true .stderr [] r.2).map Prod.snd

/-- The sink of a background job: the bytes held back and the texts told. -/
structure OutputState where
  pending : SessionStream → List UInt8
  texts : List (SessionStream × Str)

def OutputState.empty : OutputState := ⟨fun _ => [], []⟩

def chunkSinkFromOutput (stream : SessionStream) (bytes : List UInt8) (s : OutputState) :
    Option OutputState :=
  match takeUtf8Text (s.pending stream) bytes bytes.isEmpty with
  | none => none
  | some (text, left) =>
    some ⟨Function.update s.pending stream left,
      if text.isEmpty then s.texts else s.texts ++ [(stream, text)]⟩

/-- The events of a job, none of which is rejected, and the end of both streams. -/
def outputSession : List DrainEvent → OutputState → Option OutputState
  | [], s => (chunkSinkFromOutput .stdout [] s).bind (chunkSinkFromOutput .stderr [])
  | ev :: rest, s =>
    if ev.bytes.isEmpty then outputSession rest s
    else (chunkSinkFromOutput ev.stream ev.bytes s).bind (outputSession rest)

/-- A sink without the numbers. -/
def SinkState.output (s : SinkState) : OutputState :=
  ⟨s.utf8Pending, s.accepted.map fun c => (c.1, c.2.chunk)⟩

theorem chunkSinkFromOutput_eq (stream : SessionStream) (bytes : List UInt8) (s : SinkState) :
    chunkSinkFromOutput stream bytes s.output =
      (emitRunCommandToolOutputChunk toolCallId true stream bytes s).map fun r => r.2.output := by
  rw [chunkSinkFromOutput, emitRunCommandToolOutputChunk]
  show (match takeUtf8Text (s.utf8Pending stream) bytes bytes.isEmpty with
    | none => none
    | some (text, left) => _) = _
  cases takeUtf8Text (s.utf8Pending stream) bytes bytes.isEmpty with
  | none => rfl
  | some r =>
    dsimp only
    cases r.1.isEmpty <;> simp [SinkState.output]

theorem outputSession_eq (queue : List DrainEvent) (s : SinkState) :
    outputSession queue s.output =
      ((drainLiveChunksAfterReap toolCallId queue s).bind (finishChunkSink toolCallId)).map
        SinkState.output := by
  induction queue generalizing s with
  | nil =>
    rw [outputSession, drainLiveChunksAfterReap, bind_some, finishChunkSink,
      chunkSinkFromOutput_eq toolCallId]
    cases emitRunCommandToolOutputChunk toolCallId true .stdout [] s with
    | none => rfl
    | some r =>
      rw [map_some, bind_some, bind_some, chunkSinkFromOutput_eq toolCallId,
        Option.map_map]
      rfl
  | cons ev rest ih =>
    rw [outputSession, drainLiveChunksAfterReap]
    split
    · exact ih s
    · rw [chunkSinkFromOutput_eq toolCallId]
      cases emitRunCommandToolOutputChunk toolCallId true ev.stream ev.bytes s with
      | none => rfl
      | some r => exact ih r.2

end Sink

section Session

inductive LiveOp
  | read (stream : SessionStream) (chunk : List UInt8)
  | flush (accept : Bool)

variable (toolCallId : Str) (maxBytes : ℕ) (uncappedLive : Bool)

def liveStep (l : Live) : LiveOp → Option Live
  | .read stream chunk => some (appendCaptured maxBytes uncappedLive stream chunk l)
  | .flush accept => flushRound toolCallId accept l

/-- A session: reads and sends in any order, and then the end of it. -/
def liveSession (ops : List LiveOp) : Option SinkState := do
  let l ← ops.foldlM (liveStep toolCallId maxBytes uncappedLive) Live.empty
  let s ← drainLiveChunksAfterReap toolCallId l.queue l.sink
  finishChunkSink toolCallId s

/-- The bytes read from a stream. -/
def bytesRead (stream : SessionStream) (ops : List LiveOp) : List UInt8 :=
  ops.flatMap fun
    | .read st chunk => if st = stream then chunk else []
    | .flush _ => []

/-- The bytes that are meant to be seen live: all of them, or what the result keeps. -/
def liveBytes (bytes : List UInt8) : List UInt8 :=
  if uncappedLive then bytes else bytes.take maxBytes

/-- The texts accepted for a stream, put together. -/
def acceptedText (stream : SessionStream) (s : SinkState) : Str :=
  s.accepted.flatMap fun c => if c.1 = stream then c.2.chunk else []

def queuedBytes (stream : SessionStream) (queue : List DrainEvent) : List UInt8 :=
  queue.flatMap fun ev => if ev.stream = stream then ev.bytes else []

/-- The accepted chunks carry the numbers from one on. -/
def SeqNumbered (s : SinkState) : Prop :=
  s.accepted.map (fun c => c.2.seq) = List.range' 1 s.seq

/-- A text was taken and, unless it is empty, accepted. -/
structure Sent (stream : SessionStream) (text : Str) (left : List UInt8) (s s' : SinkState) :
    Prop where
  pending : s'.utf8Pending = Function.update s.utf8Pending stream left
  accepted : ∀ st, acceptedText st s' = acceptedText st s ++ if stream = st then text else []
  numbered : SeqNumbered s → SeqNumbered s'

theorem emit_cases (accept : Bool) (stream : SessionStream) (bytes : List UInt8) (s : SinkState) :
    ∃ text left, Takes bytes.isEmpty (s.utf8Pending stream ++ bytes) text left ∧
      ((∃ s', emitRunCommandToolOutputChunk toolCallId accept stream bytes s = some (true, s') ∧
        Sent stream text left s s') ∨
      (accept = false ∧
        emitRunCommandToolOutputChunk toolCallId accept stream bytes s = some (false, s))) := by
  obtain ⟨text, left, htake, htakes⟩ :=
    takeUtf8Text_spec (s.utf8Pending stream) bytes bytes.isEmpty
  refine ⟨text, left, htakes, ?_⟩
  rw [emitRunCommandToolOutputChunk, htake]
  by_cases hempty : text = []
  · subst hempty
    refine Or.inl ⟨_, rfl, rfl, fun st => ?_, id⟩
    rw [ite_self, append_nil]
    rfl
  · have htext : text.isEmpty = false := by rwa [isEmpty_eq_false_iff]
    cases accept with
    | true =>
      refine Or.inl ⟨⟨s.seq + 1, Function.update s.utf8Pending stream left, s.accepted ++
        [(stream, ⟨toolCallId, some "run_command".toList, s.seq + 1, text,
          some stream.asSseLabel⟩)]⟩, ?_, rfl, fun st => ?_, fun hnum => ?_⟩
      · simp [htext]
      · simp [acceptedText]
      · rw [SeqNumbered] at hnum ⊢
        rw [map_append, hnum, range'_concat]
        simp [Nat.add_comm]
    | false =>
      refine Or.inr ⟨rfl, ?_⟩
      simp [htext]

/-- With the bytes that wait in `rest`, nothing of `total` is lost or told twice. -/
structure SinkInv (total rest : SessionStream → List UInt8) (s : SinkState) : Prop where
  owes : ∀ st zs, fromUtf8Lossy (total st ++ zs) =
    acceptedText st s ++ fromUtf8Lossy (s.utf8Pending st ++ (rest st ++ zs))
  numbered : SeqNumbered s

theorem sinkInv_empty (rest : SessionStream → List UInt8) :
    SinkInv rest rest SinkState.empty :=
  ⟨fun _ _ => rfl, rfl⟩

/-- Bytes taken from the front of what waits. -/
theorem SinkInv.sent {total rest rest' : SessionStream → List UInt8} {s s' : SinkState}
    {stream : SessionStream} {bytes left : List UInt8} {text : Str} (h : SinkInv total rest s)
    (hrest : ∀ st, rest st = (if stream = st then bytes else []) ++ rest' st)
    (htakes : Takes false (s.utf8Pending stream ++ bytes) text left)
    (hsent : Sent stream text left s s') : SinkInv total rest' s' := by
  refine ⟨fun st zs => ?_, hsent.numbered h.numbered⟩
  rw [h.owes, hsent.accepted, hsent.pending, hrest]
  by_cases hst : stream = st
  · subst hst
    rw [if_pos rfl, if_pos rfl, update_self, append_assoc, ← append_assoc _ bytes,
      htakes, append_assoc]
  · rw [if_neg hst, if_neg hst, update_of_ne (Ne.symm hst), append_nil, nil_append]

theorem SinkInv.read {total rest : SessionStream → List UInt8} {s : SinkState}
    (h : SinkInv total rest s) (more : SessionStream → List UInt8) :
    SinkInv (fun st => total st ++ more st) (fun st => rest st ++ more st) s := by
  refine ⟨fun st zs => ?_, h.numbered⟩
  rw [append_assoc, append_assoc]
  exact h.owes st (more st ++ zs)

structure LiveInv (ops : List LiveOp) (l : Live) : Prop where
  kept : ∀ st, l.kept st = (bytesRead st ops).take maxBytes
  sink : SinkInv (fun st => liveBytes maxBytes uncappedLive (bytesRead st ops))
    (fun st => queuedBytes st l.queue) l.sink

variable {maxBytes uncappedLive}

theorem bytesRead_concat (stream : SessionStream) (ops : List LiveOp) (op : LiveOp) :
    bytesRead stream (ops ++ [op]) = bytesRead stream ops ++ bytesRead stream [op] :=
  flatMap_append

theorem queuedBytes_concat (stream : SessionStream) (queue : List DrainEvent) (ev : DrainEvent) :
    queuedBytes stream (queue ++ [ev]) =
      queuedBytes stream queue ++ if ev.stream = stream then ev.bytes else [] := by
  simp [queuedBytes]

/-- What a read adds to the live bytes of its stream. -/
def liveChunk (maxBytes : ℕ) (uncappedLive : Bool) (bytes chunk : List UInt8) : List UInt8 :=
  if uncappedLive then chunk else chunk.take (maxBytes - bytes.length)

theorem liveBytes_append (bytes chunk : List UInt8) :
    liveBytes maxBytes uncappedLive (bytes ++ chunk) =
      liveBytes maxBytes uncappedLive bytes ++ liveChunk maxBytes uncappedLive bytes chunk := by
  cases uncappedLive with
  | true => rfl
  | false => exact take_append

theorem liveInv_read {ops : List LiveOp} {l : Live} (h : LiveInv maxBytes uncappedLive ops l)
    (stream : SessionStream) (chunk : List UInt8) :
    LiveInv maxBytes uncappedLive (ops ++ [.read stream chunk])
      (appendCaptured maxBytes uncappedLive stream chunk l) := by
  have hroom : maxBytes - (l.kept stream).length = maxBytes - (bytesRead stream ops).length := by
    rw [h.kept, length_take]
    omega
  have htake : ∀ n, chunk.take (min chunk.length n) = chunk.take n := fun n => by
    rw [Nat.min_comm, ← take_eq_take_min]
  have hread : ∀ st, bytesRead st [.read stream chunk] = if stream = st then chunk else [] :=
    fun st => by simp [bytesRead]
  have hlive : ∀ st, liveBytes maxBytes uncappedLive (bytesRead st (ops ++ [.read stream chunk])) =
      liveBytes maxBytes uncappedLive (bytesRead st ops) ++
        if stream = st then liveChunk maxBytes uncappedLive (bytesRead stream ops) chunk else [] := by
    intro st
    rw [bytesRead_concat, liveBytes_append, hread]
    by_cases hst : stream = st
    · rw [if_pos hst, if_pos hst, hst]
    · rw [if_neg hst, if_neg hst]
      cases uncappedLive <;> simp [liveChunk]
  have hsink := h.sink.read fun st =>
    if stream = st then liveChunk maxBytes uncappedLive (bytesRead stream ops) chunk else []
  have hchunk : (if uncappedLive then chunk else chunk.take (min chunk.length
      (maxBytes - (l.kept stream).length))) =
      liveChunk maxBytes uncappedLive (bytesRead stream ops) chunk := by
    rw [hroom, htake]
    rfl
  have hkept : ∀ st, Function.update l.kept stream (l.kept stream ++
      chunk.take (min chunk.length (maxBytes - (l.kept stream).length))) st =
      (bytesRead st (ops ++ [.read stream chunk])).take maxBytes := by
    intro st
    rw [hroom, htake, bytesRead_concat, hread, take_append]
    by_cases hst : stream = st
    · subst hst
      rw [update_self, h.kept, if_pos rfl]
    · rw [update_of_ne (Ne.symm hst), h.kept, if_neg hst, take_nil, append_nil]
  rw [appendCaptured, hchunk]
  split
  · next hempty =>
    rw [List.isEmpty_iff] at hempty
    refine ⟨hkept, ?_⟩
    simp only [hlive, hempty, ite_self, append_nil]
    exact h.sink
  · refine ⟨hkept, ?_⟩
    simp only [hlive, queuedBytes_concat]
    exact hsink

theorem liveInv_flush {ops : List LiveOp} {l : Live} (h : LiveInv maxBytes uncappedLive ops l)
    (accept : Bool) :
    ∃ l', flushRound toolCallId accept l = some l' ∧
      LiveInv maxBytes uncappedLive (ops ++ [.flush accept]) l' := by
  have hops : ∀ st, bytesRead st (ops ++ [.flush accept]) = bytesRead st ops := fun st => by
    simp [bytesRead]
  obtain ⟨sink, queue, kept⟩ := l
  rw [flushRound]
  cases queue with
  | nil => exact ⟨_, rfl, by simpa only [hops] using h.kept, by simpa only [hops] using h.sink⟩
  | cons ev rest =>
    dsimp only
    split
    · next hempty =>
      rw [List.isEmpty_iff] at hempty
      have hqueue : ∀ st, queuedBytes st (ev :: rest) = queuedBytes st rest := fun st => by
        simp [queuedBytes, hempty]
      refine ⟨_, rfl, by simpa only [hops] using h.kept, ?_⟩
      simpa only [hops, hqueue] using h.sink
    · next hne =>
      obtain ⟨text, left, htakes, hcases⟩ := emit_cases toolCallId accept ev.stream ev.bytes sink
      rcases hcases with ⟨sink', hemit, hsent⟩ | ⟨-, hemit⟩
      · rw [hemit]
        rw [Bool.not_eq_true] at hne
        rw [hne] at htakes
        refine ⟨_, rfl, by simpa only [hops] using h.kept, ?_⟩
        simp only [hops]
        exact h.sink.sent (fun st => by simp [queuedBytes]) htakes hsent
      · rw [hemit]
        exact ⟨_, rfl, by simpa only [hops] using h.kept, by simpa only [hops] using h.sink⟩

variable (maxBytes uncappedLive)

/-- No read and no answer of the channel loses anything. -/
theorem liveInv_run (ops : List LiveOp) :
    ∃ l, ops.foldlM (liveStep toolCallId maxBytes uncappedLive) Live.empty = some l ∧
      LiveInv maxBytes uncappedLive ops l := by
  induction ops using List.reverseRecOn with
  | nil =>
    have hnone : ∀ st, liveBytes maxBytes uncappedLive (bytesRead st []) = [] := fun st => by
      cases uncappedLive <;> simp [liveBytes, bytesRead]
    refine ⟨Live.empty, rfl, fun st => take_nil.symm, ?_⟩
    simp only [hnone]
    exact sinkInv_empty fun _ => []
  | append_singleton ops op ih =>
    obtain ⟨l, hrun, hinv⟩ := ih
    rw [foldlM_append, hrun]
    cases op with
    | read stream chunk => exact ⟨_, rfl, liveInv_read hinv stream chunk⟩
    | flush accept =>
      obtain ⟨l', hflush, hinv'⟩ := liveInv_flush toolCallId hinv accept
      refine ⟨l', ?_, hinv'⟩
      show (flushRound toolCallId accept l).bind _ = _
      rw [hflush]
      rfl

/-- The flush at the end empties the queue. -/
theorem sinkInv_drain {total : SessionStream → List UInt8} (queue : List DrainEvent)
    {s : SinkState} (h : SinkInv total (fun st => queuedBytes st queue) s) :
    ∃ s', drainLiveChunksAfterReap toolCallId queue s = some s' ∧ SinkInv total (fun _ => []) s' := by
  induction queue generalizing s with
  | nil => exact ⟨s, rfl, h⟩
  | cons ev rest ih =>
    rw [drainLiveChunksAfterReap]
    split
    · next hempty =>
      rw [List.isEmpty_iff] at hempty
      refine ih ?_
      have hqueue : ∀ st, queuedBytes st (ev :: rest) = queuedBytes st rest := fun st => by
        simp [queuedBytes, hempty]
      simpa only [hqueue] using h
    · next hne =>
      obtain ⟨text, left, htakes, hcases⟩ := emit_cases toolCallId true ev.stream ev.bytes s
      rcases hcases with ⟨s', hemit, hsent⟩ | ⟨hfalse, -⟩
      · rw [Bool.not_eq_true] at hne
        rw [hne] at htakes
        rw [hemit]
        exact ih (h.sent (fun st => by simp [queuedBytes]) htakes hsent)
      · cases hfalse

/-- What a stream is told at its end is the rest of its decoding. -/
theorem emit_finish (stream : SessionStream) (s : SinkState) :
    ∃ s', emitRunCommandToolOutputChunk toolCallId true stream [] s = some (true, s') ∧
      Sent stream (fromUtf8Lossy (s.utf8Pending stream)) [] s s' := by
  obtain ⟨text, left, htakes, hcases⟩ := emit_cases toolCallId true stream [] s
  rw [append_nil] at htakes
  obtain ⟨rfl, rfl⟩ := htakes
  rcases hcases with hsent | ⟨hfalse, -⟩
  · exact hsent
  · cases hfalse

theorem finishChunkSink_spec {total : SessionStream → List UInt8} {s : SinkState}
    (h : SinkInv total (fun _ => []) s) :
    ∃ s', finishChunkSink toolCallId s = some s' ∧ SeqNumbered s' ∧
      ∀ st, acceptedText st s' = fromUtf8Lossy (total st) := by
  obtain ⟨s₁, hout, hsent₁⟩ := emit_finish toolCallId .stdout s
  obtain ⟨s₂, herr, hsent₂⟩ := emit_finish toolCallId .stderr s₁
  refine ⟨s₂, ?_, hsent₂.numbered (hsent₁.numbered h.numbered), fun st => ?_⟩
  · rw [finishChunkSink, hout, bind_some, herr]
    rfl
  · have howes := h.owes st []
    rw [hsent₂.accepted, hsent₁.accepted, hsent₁.pending]
    cases st with
    | stdout => simpa using howes.symm
    | stderr => simpa using howes.symm

theorem SeqNumbered.eq_range' {s : SinkState} (h : SeqNumbered s) :
    s.accepted.map (fun c => c.2.seq) = List.range' 1 s.accepted.length := by
  have hlength := congrArg List.length h
  rw [List.length_map, length_range'] at hlength
  rw [hlength]
  exact h

/-- Whatever the chunks and the rejections, the accepted texts of a stream are the decoding of its
live bytes, in chunks numbered without a gap. -/
theorem live_output_lossless :
    (∀ ops, ∃ s, liveSession toolCallId maxBytes uncappedLive ops = some s ∧
      s.accepted.map (fun c => c.2.seq) = List.range' 1 s.accepted.length ∧
      ∀ stream, acceptedText stream s =
        fromUtf8Lossy (if uncappedLive then bytesRead stream ops
          else (bytesRead stream ops).take maxBytes)) ∧
    (∀ reads, ∃ s, outputSession reads OutputState.empty = some s ∧
      ∀ stream, (s.texts.flatMap fun t => if t.1 = stream then t.2 else []) =
        fromUtf8Lossy (queuedBytes stream reads)) ∧
    ∀ pending incoming finish, ∃ r, ∀ rounds > (pending ++ incoming).length,
      takeUtf8Loop finish rounds (pending ++ incoming) [] = some r := by
  refine ⟨?_, ?_, ?_⟩
  · intro ops
    obtain ⟨l, hrun, hinv⟩ := liveInv_run toolCallId maxBytes uncappedLive ops
    obtain ⟨s, hdrain, hsink⟩ := sinkInv_drain toolCallId l.queue hinv.sink
    obtain ⟨s', hfinish, hnum, htext⟩ := finishChunkSink_spec toolCallId hsink
    refine ⟨s', ?_, hnum.eq_range', htext⟩
    rw [liveSession, hrun, bind_eq_bind, bind_some, hdrain, bind_eq_bind,
      bind_some, hfinish]
  · intro reads
    obtain ⟨s, hdrain, hsink⟩ := sinkInv_drain toolCallId reads (sinkInv_empty fun st =>
      queuedBytes st reads)
    obtain ⟨s', hfinish, -, htext⟩ := finishChunkSink_spec toolCallId hsink
    refine ⟨s'.output, ?_, fun stream => ?_⟩
    · have hempty : OutputState.empty = SinkState.empty.output := rfl
      rw [hempty, outputSession_eq toolCallId, hdrain, bind_some, hfinish, map_some]
    · rw [← htext, acceptedText, SinkState.output, flatMap_map]
  · intro pending incoming finish
    obtain ⟨text, left, -, hloop⟩ := takeUtf8Loop_spec finish (pending ++ incoming)
    exact ⟨(text, left), fun rounds hrounds => hloop rounds hrounds []⟩

/-- A sink that keeps one byte shows one byte live. -/
theorem not_all_output_live :
    ¬ ∀ (toolCallId : Str) (maxBytes : ℕ) (uncappedLive : Bool) (ops : List LiveOp),
      ∃ s, liveSession toolCallId maxBytes uncappedLive ops = some s ∧
        ∀ stream, acceptedText stream s = fromUtf8Lossy (bytesRead stream ops) := by
  intro h
  obtain ⟨s, hs, htext⟩ := h [] 1 false [.read .stdout [0x61, 0x62]]
  have hsession : (liveSession [] 1 false [.read .stdout [0x61, 0x62]]).map
      (acceptedText .stdout) = some ['a'] := by decide
  rw [hs, map_some, htext] at hsession
  exact absurd hsession (by decide)

end Session

end CrabMate
