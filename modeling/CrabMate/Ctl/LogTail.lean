import CrabMate.Lib.Utf8Lines
import Mathlib.Algebra.Group.Nat.Defs

/-! The tail of a log file. The file is read backwards in blocks until it has more newlines than
lines are wanted, and only what has been read is decoded. -/
namespace CrabMate
open List
namespace LogTail

open RustStr
open Utf8

/-- How the system answers a read: a signal interrupts it, or it gives at most so many bytes. -/
inductive Answer where
  | interrupted
  | upTo (n : ℕ)
  deriving DecidableEq

/-- An open file, with the answers to the next reads; later ones give all they can. -/
structure LogFile where
  bytes : List UInt8
  pos : ℕ := 0
  answers : List Answer := []
  deriving DecidableEq

namespace LogFile

def seek (file : LogFile) (pos : ℕ) : LogFile := { file with pos }

/-- `File::read` into room for so many bytes. It gives none at the end of the file only. -/
def read (file : LogFile) (room : ℕ) : Option (List UInt8) × LogFile :=
  let available := (file.bytes.drop file.pos).take room
  match file.answers with
  | [] => (some available, { file with pos := file.pos + available.length })
  | .interrupted :: answers => (none, { file with answers })
  | .upTo n :: answers =>
    let got := available.take (max n 1)
    (some got, { file with pos := file.pos + got.length, answers })

end LogFile

/-- The loop of `read_fully`, for some rounds: what has been read, and the file behind it. -/
def readFullyLoop : ℕ → LogFile → ℕ → List UInt8 → Option (List UInt8 × LogFile)
  | 0, _, _, _ => none
  | rounds + 1, file, room, filled =>
    if room = 0 then some (filled, file)
    else
      match file.read room with
      | (none, file) => readFullyLoop rounds file room filled
      | (some [], file) => some (filled, file)
      | (some (b :: got), file) =>
        readFullyLoop rounds file (room - (b :: got).length) (filled ++ b :: got)

/-- Each round reads a byte or takes an answer. -/
def readFully (file : LogFile) (room : ℕ) : Option (List UInt8 × LogFile) :=
  readFullyLoop (room + file.answers.length + 1) file room []

/-- What a call leaves: no answer after all its rounds, a panic, or its result. -/
inductive Outcome (α : Type) where
  | stuck
  | panic
  | done (a : α)
  deriving DecidableEq

def usizeMax : ℕ := 2 ^ 64 - 1

/-- `want + 1`: a build with overflow checks panics, one without them wraps around. -/
def addOne (checks : Bool) (want : ℕ) : Option ℕ :=
  if want < usizeMax then some (want + 1) else if checks then none else some 0

/-- The loop of `tail_lines`: `stop` is where the bytes read so far begin. -/
def tailLoop (checks : Bool) (chunkBytes want : ℕ) :
    ℕ → LogFile → ℕ → List UInt8 → ℕ → Outcome (List UInt8)
  | 0, _, _, _, _ => .stuck
  | rounds + 1, file, stop, buf, newlines =>
    if stop = 0 then .done buf
    else
      match addOne checks want with
      | none => .panic
      | some limit =>
        if newlines < limit then
          let start := stop - chunkBytes
          match readFully (file.seek start) (stop - start) with
          | none => .stuck
          | some (chunk, file) =>
            tailLoop checks chunkBytes want rounds file start (chunk ++ buf)
              (newlines + chunk.count 0x0A)
        else .done buf

/-- The last `want` lines of a decoded text, joined. -/
def lastJoined (want : ℕ) (bytes : List UInt8) : Str :=
  ['\n'].intercalate (lastLines want (fromUtf8Lossy bytes))

def tailLines (checks : Bool) (chunkBytes : ℕ) (file : LogFile) (n : UInt64) : Outcome Str :=
  let want := max n.toNat 1
  match tailLoop checks chunkBytes want (file.bytes.length + 1) file file.bytes.length [] 0 with
  | .stuck => .stuck
  | .panic => .panic
  | .done buf => .done (lastJoined want buf)

section Read

variable {file : LogFile}

/-- What is in reach of a read. -/
def LogFile.block (file : LogFile) (room : ℕ) : List UInt8 := (file.bytes.drop file.pos).take room

theorem take_drop_of_prefix {l got : List UInt8} {pos room : ℕ}
    (h : got <+: (l.drop pos).take room) :
    (l.drop pos).take room = got ++ (l.drop (pos + got.length)).take (room - got.length) := by
  have hlen : got.length ≤ room := h.length_le.trans (length_take_le _ _)
  have hgot : got = (l.drop pos).take got.length :=
    prefix_iff_eq_take.mp (h.trans (List.take_prefix _ _))
  calc (l.drop pos).take room = (l.drop pos).take (got.length + (room - got.length)) := by
        rw [Nat.add_sub_of_le hlen]
    _ = (l.drop pos).take got.length ++ ((l.drop pos).drop got.length).take (room - got.length) :=
        take_add ..
    _ = got ++ (l.drop (pos + got.length)).take (room - got.length) := by
        rw [← hgot, drop_drop]

/-- A read takes an answer away, or gives a part of what is in reach, no bytes at the end only. -/
theorem LogFile.read_cases (file : LogFile) (room : ℕ) :
    (∃ later, file.read room = (none, later) ∧ later.bytes = file.bytes ∧
      later.block room = file.block room ∧ later.answers.length < file.answers.length) ∨
    ∃ got later, file.read room = (some got, later) ∧ later.bytes = file.bytes ∧
      later.answers.length ≤ file.answers.length ∧ (got = [] → file.block room = []) ∧
      file.block room = got ++ later.block (room - got.length) := by
  obtain ⟨bytes, pos, answers⟩ := file
  cases answers with
  | nil =>
    exact Or.inr ⟨_, _, rfl, rfl, Nat.le_refl _, id, take_drop_of_prefix (prefix_refl _)⟩
  | cons answer answers =>
    cases answer with
    | interrupted => exact Or.inl ⟨_, rfl, rfl, rfl, Nat.lt_succ_self _⟩
    | upTo n =>
      refine Or.inr ⟨_, _, rfl, rfl, Nat.le_succ _, fun hnil => ?_,
        take_drop_of_prefix (List.take_prefix _ _)⟩
      rcases take_eq_nil_iff.mp hnil with hzero | hnil
      · exact absurd hzero (by omega)
      · exact hnil

theorem readFullyLoop_eq {rounds room : ℕ} {filled : List UInt8}
    (h : room + file.answers.length < rounds) :
    ∃ later, readFullyLoop rounds file room filled = some (filled ++ file.block room, later) ∧
      later.bytes = file.bytes := by
  induction rounds generalizing file room filled with
  | zero => omega
  | succ rounds ih =>
    unfold readFullyLoop
    split_ifs with hroom
    · subst hroom
      exact ⟨file, by simp [LogFile.block], rfl⟩
    · rcases file.read_cases room with
        ⟨next, hread, hbytes, hblock, hless⟩ | ⟨got, next, hread, hbytes, hle, hend, hblock⟩
      · obtain ⟨later, hloop, hlater⟩ := @ih next room filled (by omega)
        exact ⟨later, by rw [hread, ← hblock]; exact hloop, hlater.trans hbytes⟩
      · cases got with
        | nil =>
          refine ⟨next, ?_, hbytes⟩
          rw [hread, hend rfl, append_nil]
        | cons b got =>
          obtain ⟨later, hloop, hlater⟩ :=
            @ih next (room - (b :: got).length) (filled ++ b :: got) (by
              rw [length_cons]
              omega)
          refine ⟨later, ?_, hlater.trans hbytes⟩
          rw [hread, hblock, ← append_assoc]
          exact hloop

theorem readFully_eq (file : LogFile) (room : ℕ) :
    ∃ later, readFully file room = some (file.block room, later) ∧ later.bytes = file.bytes := by
  obtain ⟨later, hloop, hlater⟩ := @readFullyLoop_eq file _ room [] (Nat.lt_succ_self _)
  exact ⟨later, hloop, hlater⟩

end Read

section Tail

variable {checks : Bool} {chunkBytes want : ℕ} {file : LogFile} {n : UInt64}

/-- The end of a file that has been read: all of it, or one newline more than lines are wanted. -/
def Enough (want : ℕ) (bytes buf : List UInt8) : Prop :=
  buf = bytes ∨ ∃ front, bytes = front ++ buf ∧ want < buf.count 0x0A

@[simp] theorem lastJoined_nil (want : ℕ) : lastJoined want [] = [] := by
  simp [lastJoined, lastLines]

theorem lastJoined_of_enough {bytes buf : List UInt8} (h : Enough want bytes buf) :
    lastJoined want buf = lastJoined want bytes := by
  rcases h with rfl | ⟨front, rfl, hcount⟩
  · rfl
  · rw [lastJoined, lastJoined, lastLines_of_suffix hcount]

theorem take_append_block {start stop : ℕ} (h : start ≤ stop) :
    file.bytes.take start ++ (file.seek start).block (stop - start) = file.bytes.take stop := by
  have hsum : start + (stop - start) = stop := Nat.add_sub_of_le h
  calc file.bytes.take start ++ (file.seek start).block (stop - start)
      = file.bytes.take (start + (stop - start)) := take_add.symm
    _ = file.bytes.take stop := by rw [hsum]

/-- Each round moves `stop` to the front; what is behind it has been read and counted. -/
theorem tailLoop_eq (hchunk : 1 ≤ chunkBytes) (hwant : want < usizeMax) {rounds stop : ℕ}
    {buf : List UInt8} (hrounds : stop < rounds) (hbuf : file.bytes = file.bytes.take stop ++ buf) :
    ∃ all, tailLoop checks chunkBytes want rounds file stop buf (buf.count 0x0A) = .done all ∧
      Enough want file.bytes all := by
  induction rounds generalizing file stop buf with
  | zero => omega
  | succ rounds ih =>
    have hlimit : addOne checks want = some (want + 1) := if_pos hwant
    unfold tailLoop
    rw [hlimit]
    dsimp only
    split_ifs with hstop hmore
    · subst hstop
      exact ⟨buf, rfl, Or.inl (by simpa using hbuf.symm)⟩
    · obtain ⟨later, hread, hlater⟩ :=
        readFully_eq (file.seek (stop - chunkBytes)) (stop - (stop - chunkBytes))
      have hbytes : later.bytes = file.bytes := hlater
      have hcons : later.bytes = later.bytes.take (stop - chunkBytes) ++
          ((file.seek (stop - chunkBytes)).block (stop - (stop - chunkBytes)) ++ buf) := by
        rw [hbytes, ← append_assoc, take_append_block (Nat.sub_le _ _)]
        exact hbuf
      obtain ⟨all, hloop, henough⟩ := ih (by omega) hcons
      refine ⟨all, ?_, hbytes ▸ henough⟩
      rw [hread, ← hloop, count_append, Nat.add_comm]
    · exact ⟨buf, rfl, Or.inr ⟨_, hbuf, by omega⟩⟩

/-- Short of the largest number of lines, the blocks give what the whole file gives. -/
theorem tailLines_eq (hchunk : 1 ≤ chunkBytes) (hn : n.toNat < usizeMax) :
    tailLines checks chunkBytes file n = .done (lastJoined (max n.toNat 1) file.bytes) := by
  have hwant : max n.toNat 1 < usizeMax := Nat.max_lt.mpr ⟨hn, by decide⟩
  obtain ⟨all, hloop, henough⟩ := @tailLoop_eq checks chunkBytes _ file hchunk hwant
    (file.bytes.length + 1) file.bytes.length [] (Nat.lt_succ_self _) (by simp)
  unfold tailLines
  dsimp only
  rw [count_nil] at hloop
  rw [hloop]
  exact congrArg Outcome.done (lastJoined_of_enough henough)

/-- At the largest number, no block is read. -/
theorem tailLines_usizeMax (hn : ¬ n.toNat < usizeMax) (hne : file.bytes ≠ []) :
    tailLines checks chunkBytes file n = if checks then .panic else .done [] := by
  have hwant : ¬ max n.toNat 1 < usizeMax := fun h => hn (Nat.max_lt.mp h).1
  have hstop : file.bytes.length ≠ 0 := fun h => hne (eq_nil_of_length_eq_zero h)
  have hloop : tailLoop checks chunkBytes (max n.toNat 1) (file.bytes.length + 1) file
      file.bytes.length [] 0 = if checks then .panic else .done [] := by
    rw [tailLoop, if_neg hstop, addOne, if_neg hwant]
    cases checks <;> rfl
  unfold tailLines
  dsimp only
  rw [hloop]
  cases checks with
  | true => rfl
  | false => simp only [Bool.false_eq_true, if_false, lastJoined_nil]

theorem tailLines_nil (hnil : file.bytes = []) (n : UInt64) :
    tailLines checks chunkBytes file n = .done [] := by
  unfold tailLines
  rw [hnil]
  exact congrArg Outcome.done (lastJoined_nil _)

theorem join_eq_nil_iff (ls : List Str) : ['\n'].intercalate ls = [] ↔ ls = [] ∨ ls = [[]] := by
  cases ls with
  | nil => simp
  | cons line rest => cases rest <;> simp

/-- Where two lines are wanted, nothing comes of no lines and of one blank line only. -/
theorem lastJoined_eq_nil_iff (hwant : 2 ≤ want) (bytes : List UInt8) :
    lastJoined want bytes = [] ↔
      lines (fromUtf8Lossy bytes) = [] ∨ lines (fromUtf8Lossy bytes) = [[]] := by
  rw [lastJoined, join_eq_nil_iff, lastLines]
  generalize lines (fromUtf8Lossy bytes) = ls
  by_cases hlen : ls.length ≤ want
  · rw [Nat.sub_eq_zero_of_le hlen, drop_zero]
  · refine iff_of_false ?_ ?_
    · intro h
      have hle : (ls.drop (ls.length - want)).length ≤ 1 := by
        rcases h with h | h <;> simp [h]
      rw [length_drop] at hle
      omega
    · rintro (rfl | rfl)
      · exact hlen (Nat.zero_le _)
      · exact hlen (Nat.le_of_succ_le hwant)

/-- Reading the blocks from the end gives what reading the whole file gives, unless the largest
number of lines is asked for: a build with overflow checks panics then, and one without them reads
nothing. -/
theorem tailLines_iff (checks : Bool) (chunkBytes : ℕ) (hchunk : 1 ≤ chunkBytes) (file : LogFile)
    (n : UInt64) :
    tailLines checks chunkBytes file n = .done (lastJoined (max n.toNat 1) file.bytes) ↔
      n.toNat < usizeMax ∨ file.bytes = [] ∨
        checks = false ∧ lines (fromUtf8Lossy file.bytes) = [[]] := by
  by_cases hn : n.toNat < usizeMax
  · exact iff_of_true (tailLines_eq hchunk hn) (Or.inl hn)
  by_cases hnil : file.bytes = []
  · refine iff_of_true ?_ (Or.inr (Or.inl hnil))
    rw [tailLines_nil hnil, hnil, lastJoined_nil]
  have hwant : 2 ≤ max n.toNat 1 := by
    unfold usizeMax at hn
    omega
  have hlines : lines (fromUtf8Lossy file.bytes) ≠ [] := by
    rwa [ne_eq, lines_eq_nil_iff, fromUtf8Lossy_eq_nil_iff]
  rw [tailLines_usizeMax hn hnil, or_iff_right hn, or_iff_right hnil]
  cases checks with
  | true => simp
  | false =>
    rw [if_neg Bool.false_ne_true, Outcome.done.injEq, eq_comm, lastJoined_eq_nil_iff hwant,
      or_iff_right hlines, and_iff_right rfl]

/-- A file of two lines that is read in blocks of three bytes, after an interruption. -/
def shortLog : LogFile where
  bytes := [0x61, 0x0A, 0xE2, 0x82, 0xAC, 0x0A]
  answers := [.interrupted, .upTo 2]

theorem tailLines_shortLog : tailLines true 3 shortLog 1 = .done ['€'] :=
  ((tailLines_iff true 3 (by decide) shortLog 1).mpr (Or.inl (by decide))).trans (by decide)

def oneLine : LogFile where
  bytes := [0x61, 0x0A]

/-- `logs --tail 18446744073709551615`. -/
theorem tailLines_overflows :
    tailLines true 8192 oneLine 18446744073709551615 = .panic ∧
      tailLines false 8192 oneLine 18446744073709551615 = .done [] ∧
      lastJoined (max (18446744073709551615 : UInt64).toNat 1) oneLine.bytes = ['a'] := by
  decide

end Tail

end LogTail
end CrabMate
