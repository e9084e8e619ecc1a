import Mathlib.Data.List.Basic
import Mathlib.Data.List.Range

/-! The SSE hub entry of one streaming job: sequence numbers, the replay ring and the live
receivers. Other tasks may run between the three steps of `publish`; a bridge that is the only
publisher, with nobody who reads the ring, takes the number and stores the event in one step. -/
namespace CrabMate
open List

/-- Sequence number and payload. -/
abbrev SseEvent := ℕ × String

def sseResumeRingCap : ℕ := 512

/-- The size asked of the broadcast channel by `register_job`. -/
def broadcastCapacity : ℕ := max (sseResumeRingCap * 2) 64

/-- A broadcast receiver; the oldest event is overwritten when it lags. -/
structure LiveReceiver where
  queue : List SseEvent
  lost : ℕ
  deriving DecidableEq

namespace LiveReceiver

def new : LiveReceiver := ⟨[], 0⟩

def send (r : LiveReceiver) (e : SseEvent) : LiveReceiver :=
  if r.queue.length < broadcastCapacity then { r with queue := r.queue ++ [e] }
  else ⟨r.queue.tail ++ [e], r.lost + 1⟩

variable {r : LiveReceiver} {e : SseEvent}

theorem send_of_not_lost (h : (r.send e).lost = 0) :
    r.lost = 0 ∧ (r.send e).queue = r.queue ++ [e] := by
  unfold send at h ⊢
  split at h
  · next hroom =>
    rw [if_pos hroom]
    exact ⟨h, rfl⟩
  · cases h

theorem mem_send {x : SseEvent} (h : x ∈ (r.send e).queue) : x ∈ r.queue ∨ x = e := by
  unfold send at h
  split at h
  · simpa using h
  · exact (mem_append.mp h).imp mem_of_mem_tail mem_singleton.mp

end LiveReceiver

structure StreamEntry where
  nextSeq : ℕ
  ring : List SseEvent
  deriving DecidableEq

/-- The loop that pops the oldest events above the cap. -/
def trimRing : List SseEvent → List SseEvent
  | [] => []
  | e :: rest => if sseResumeRingCap < (e :: rest).length then trimRing rest else e :: rest

theorem trimRing_eq_drop (ring : List SseEvent) :
    trimRing ring = ring.drop (ring.length - sseResumeRingCap) := by
  induction ring with
  | nil => rfl
  | cons e rest ih =>
    rw [trimRing]
    split
    · next h =>
      rw [length_cons] at h ⊢
      have hlen : rest.length + 1 - sseResumeRingCap = (rest.length - sseResumeRingCap) + 1 := by
        omega
      rw [ih, hlen, drop_succ_cons]
    · next h =>
      have hlen : (e :: rest).length - sseResumeRingCap = 0 := by omega
      rw [hlen, drop_zero]

/-- Trimming after each push keeps the newest `cap` of all pushed events. -/
theorem drop_snoc_drop {α : Type*} (xs : List α) (x : α) (cap : ℕ) :
    (xs.drop (xs.length - cap) ++ [x]).drop ((xs.drop (xs.length - cap) ++ [x]).length - cap) =
      (xs ++ [x]).drop ((xs ++ [x]).length - cap) := by
  have hsnoc : xs.drop (xs.length - cap) ++ [x] = (xs ++ [x]).drop (xs.length - cap) :=
    (drop_append_of_le_length (Nat.sub_le _ _)).symm
  rw [hsnoc, drop_drop, length_drop]
  congr 1
  rw [length_append, length_singleton]
  omega

namespace StreamEntry

def new : StreamEntry := ⟨0, []⟩

/-- `fetch_add`: the number of the next event. -/
def takeSeq (e : StreamEntry) : ℕ × StreamEntry :=
  (e.nextSeq + 1, { e with nextSeq := e.nextSeq + 1 })

def pushRing (e : StreamEntry) (event : SseEvent) : StreamEntry :=
  { e with ring := trimRing (e.ring ++ [event]) }

def replayAfter (e : StreamEntry) (afterSeq : ℕ) : List SseEvent :=
  e.ring.filter fun event => afterSeq < event.1

end StreamEntry

/-- The events of `published` behind `afterSeq`. -/
def eventsAfter (afterSeq : ℕ) (published : List SseEvent) : List SseEvent :=
  published.filter fun event => afterSeq < event.1

theorem eventsAfter_append (afterSeq : ℕ) (xs ys : List SseEvent) :
    eventsAfter afterSeq (xs ++ ys) = eventsAfter afterSeq xs ++ eventsAfter afterSeq ys :=
  filter_append ..

theorem eventsAfter_cons (afterSeq : ℕ) (e : SseEvent) (es : List SseEvent) :
    eventsAfter afterSeq (e :: es) =
      if afterSeq < e.1 then e :: eventsAfter afterSeq es else eventsAfter afterSeq es := by
  simp only [eventsAfter, filter_cons, decide_eq_true_eq]

/-- Numbered from 1 without a gap. -/
def Consecutive (published : List SseEvent) : Prop :=
  published.map Prod.fst = List.range' 1 published.length

namespace Consecutive

variable {published : List SseEvent}

theorem nil : Consecutive [] := rfl

theorem snoc (h : Consecutive published) (payload : String) :
    Consecutive (published ++ [(published.length + 1, payload)]) := by
  unfold Consecutive at h ⊢
  rw [map_append, h, length_append, length_singleton, range'_concat]
  simp [Nat.add_comm]

theorem seq_le (h : Consecutive published) {e : SseEvent} (he : e ∈ published) :
    1 ≤ e.1 ∧ e.1 ≤ published.length := by
  have hmem : e.1 ∈ published.map Prod.fst := mem_map_of_mem he
  rw [h, mem_range'_1] at hmem
  omega

theorem getElem_fst (h : Consecutive published) (i : ℕ) (hi : i < published.length) :
    published[i].1 = i + 1 := by
  have hget : (published.map Prod.fst)[i]? = (List.range' 1 published.length)[i]? := by rw [h]
  rw [getElem?_map, getElem?_eq_getElem hi, getElem?_range' (by simpa using hi)] at hget
  simpa [Nat.add_comm] using hget

theorem eventsAfter_increasing (h : Consecutive published) (afterSeq : ℕ) :
    (eventsAfter afterSeq published).Pairwise fun a b => a.1 < b.1 := by
  have hall : published.Pairwise fun a b => a.1 < b.1 := by
    have hmap : (published.map Prod.fst).Pairwise (· < ·) := by
      rw [h]
      exact pairwise_lt_range' 1
    exact pairwise_map.mp hmap
  exact hall.filter _

/-- The newest events: dropping the first `n` leaves what is numbered above `n`. -/
theorem eventsAfter_drop (h : Consecutive published) {n afterSeq : ℕ} (hn : n ≤ afterSeq) :
    eventsAfter afterSeq (published.drop n) = eventsAfter afterSeq published := by
  have hsplit : eventsAfter afterSeq published =
      eventsAfter afterSeq (published.take n) ++ eventsAfter afterSeq (published.drop n) := by
    rw [← eventsAfter_append, take_append_drop]
  have hold : eventsAfter afterSeq (published.take n) = [] := by
    rw [eventsAfter, filter_eq_nil_iff]
    intro e he
    obtain ⟨i, hi, rfl⟩ := mem_iff_getElem.mp he
    rw [length_take] at hi
    rw [getElem_take, h.getElem_fst i (by omega)]
    simp
    omega
  rw [hsplit, hold, nil_append]

theorem eventsAfter_last (h : Consecutive published) (afterSeq : ℕ) :
    ((eventsAfter afterSeq published).getLast?.map Prod.fst).getD afterSeq =
      max afterSeq published.length := by
  obtain rfl | ⟨older, e, rfl⟩ := published.eq_nil_or_concat'
  · simp [eventsAfter]
  · have hlast : e.1 = (older ++ [e]).length := by
      have hget := h.getElem_fst older.length (by simp)
      simpa using hget
    rw [← hlast]
    by_cases hlt : afterSeq < e.1
    · simp [eventsAfter, hlt, hlt.le]
    · have hnone : eventsAfter afterSeq (older ++ [e]) = [] := by
        rw [eventsAfter, filter_eq_nil_iff]
        intro x hx
        have hle := (h.seq_le hx).2
        simp only [decide_eq_true_eq]
        omega
      rw [hnone]
      simp
      omega

end Consecutive
end CrabMate
