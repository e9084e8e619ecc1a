import Mathlib.Data.List.Basic

/-! The output ring of one background job. -/
namespace CrabMate

inductive SessionStream where
  | stdout
  | stderr
  deriving DecidableEq

structure OutputEvent where
  seq : ℕ
  stream : SessionStream
  text : String
  deriving DecidableEq

structure OutputLogRead where
  items : List OutputEvent
  nextCursor : ℕ
  truncated : Bool
  deriving DecidableEq

def maxOutputItems : ℕ := 8192

def maxItemsPerResponse : ℕ := 500

structure JobOutputLog where
  events : List OutputEvent
  written : ℕ
  bytes : ℕ
  stdoutBytes : ℕ
  stderrBytes : ℕ
  deriving DecidableEq

namespace JobOutputLog

def default : JobOutputLog := ⟨[], 0, 0, 0, 0⟩

/-- Drops the oldest event and takes its bytes off the counters. -/
def popFrontInner (log : JobOutputLog) : JobOutputLog :=
  match log.events with
  | [] => log
  | front :: rest =>
    let len := front.text.utf8ByteSize
    let log := { log with events := rest, bytes := log.bytes - len }
    match front.stream with
    | .stdout => { log with stdoutBytes := log.stdoutBytes - len }
    | .stderr => { log with stderrBytes := log.stderrBytes - len }

/-- The trimming loop, with the number of events as a bound on its rounds; one event stays. The
second component counts the dropped events. -/
def trimLoop (exceeds : JobOutputLog → Bool) : ℕ → JobOutputLog → JobOutputLog × ℕ
  | 0, log => (log, 0)
  | rounds + 1, log =>
    if exceeds log && 1 < log.events.length then
      let (trimmed, dropped) := trimLoop exceeds rounds log.popFrontInner
      (trimmed, dropped + 1)
    else (log, 0)

def push (log : JobOutputLog) (stream : SessionStream) (text : String) (maxBytes : ℕ) :
    JobOutputLog × ℕ :=
  if text.isEmpty then (log, 0)
  else
    let len := text.utf8ByteSize
    let log := { log with written := log.written + 1, bytes := log.bytes + len }
    let log := match stream with
      | .stdout => { log with stdoutBytes := log.stdoutBytes + len }
      | .stderr => { log with stderrBytes := log.stderrBytes + len }
    let log := { log with events := log.events ++ [⟨log.written, stream, text⟩] }
    trimLoop (fun log => maxBytes < log.bytes || maxOutputItems < log.events.length)
      log.events.length log

def terminalTrim (log : JobOutputLog) (maxPerStream : ℕ) : JobOutputLog × ℕ :=
  trimLoop (fun log => maxPerStream < log.stdoutBytes || maxPerStream < log.stderrBytes)
    log.events.length log

def read (log : JobOutputLog) (cursor : Option ℕ) : OutputLogRead :=
  let requested := cursor.getD 0
  let earliest := (log.events.head?.map (·.seq)).getD (log.written + 1)
  let truncated := requested != 0 && log.events.head?.any fun e => requested < e.seq
  let start := max requested earliest
  let items := (log.events.filter fun e => start ≤ e.seq).take maxItemsPerResponse
  ⟨items, (items.getLast?.map (·.seq + 1)).getD start, truncated⟩

end JobOutputLog
end CrabMate
