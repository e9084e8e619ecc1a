import CrabMate.Lib.Run
import CrabMate.Lib.Table

/-! Tickets with a number each, some of them entered on a board with a flag of their own. Whoever
knows a number can strike the flag that stands under it on the board; the holder of the ticket
reads the flag. -/
namespace Board
open List

/-- A ticket with its number, and the place of its flag once it is entered on the board. -/
abbrev Ticket := ℕ × Option ℕ

structure State where
  next : ℕ
  tickets : List Ticket
  board : Table (Prod.fst : ℕ × ℕ → ℕ)
  flags : List Bool
  struck : List ℕ

/-- One move; the tickets are known up to their order. -/
inductive Move (s : State) : State → Prop
  | rearrange {t : List Ticket} (h : t.Perm s.tickets) : Move s { s with tickets := t }
  | draw {t : List Ticket} (h : t.Perm ((s.next, none) :: s.tickets)) :
    Move s { s with next := s.next + 1, tickets := t }
  | drop {n : ℕ} {t : List Ticket} (h : s.tickets.Perm ((n, none) :: t)) :
    Move s { s with tickets := t }
  | enter {n : ℕ} {rest t : List Ticket} (h : s.tickets.Perm ((n, none) :: rest))
    (ht : t.Perm ((n, some s.flags.length) :: rest)) :
    Move s { s with
      tickets := t, board := s.board.put (n, s.flags.length), flags := s.flags ++ [false] }
  | withdraw {n f : ℕ} {t : List Ticket} (h : s.tickets.Perm ((n, some f) :: t)) :
    Move s { s with tickets := t, board := s.board.deleteWhere fun row => row.1 = n }
  | strike {n f : ℕ} {t : List Ticket} (h : (n, some f) ∈ s.tickets) (ht : t.Perm s.tickets) :
    Move s { s with tickets := t, flags := s.flags.set f true, struck := s.struck ++ [n] }

/-- The board lists the entered tickets, each with a flag of its own, and a flag is up when its
number was struck. -/
structure Sound (s : State) : Prop where
  numbers : (s.tickets.map Prod.fst).Nodup
  drawn : ∀ t ∈ s.tickets, t.1 < s.next
  listed : ∀ n f, s.board.lookup n = some (n, f) ↔ (n, some f) ∈ s.tickets
  placed : ∀ n f, (n, some f) ∈ s.tickets → f < s.flags.length
  apart : ∀ n n' f, (n, some f) ∈ s.tickets → (n', some f) ∈ s.tickets → n = n'
  raised : ∀ n f, (n, some f) ∈ s.tickets → (s.flags[f]? = some true ↔ n ∈ s.struck)
  untouched : ∀ n, (n, none) ∈ s.tickets → n ∉ s.struck
  past : ∀ n ∈ s.struck, n < s.next

namespace Sound

variable {s s' : State}

theorem eq_of_number (h : Sound s) {n : ℕ} {a b : Option ℕ} (ha : (n, a) ∈ s.tickets)
    (hb : (n, b) ∈ s.tickets) : a = b :=
  congrArg Prod.snd (inj_on_of_nodup_map h.numbers ha hb rfl)

theorem number_ne (h : Sound s) {n m : ℕ} {a b : Option ℕ} {rest : List Ticket}
    (hs : s.tickets = (n, a) :: rest) (hm : (m, b) ∈ rest) : m ≠ n := by
  rintro rfl
  have hnum := h.numbers
  rw [hs, map_cons, nodup_cons] at hnum
  exact hnum.1 (mem_map.mpr ⟨(m, b), hm, rfl⟩)

theorem rearrange (h : Sound s) {t : List Ticket} (ht : t.Perm s.tickets) :
    Sound { s with tickets := t } where
  numbers := (ht.map Prod.fst).nodup_iff.mpr h.numbers
  drawn x hx := h.drawn x (ht.mem_iff.mp hx)
  listed n f := (h.listed n f).trans ht.mem_iff.symm
  placed n f hn := h.placed n f (ht.mem_iff.mp hn)
  apart n n' f hn hn' := h.apart n n' f (ht.mem_iff.mp hn) (ht.mem_iff.mp hn')
  raised n f hn := h.raised n f (ht.mem_iff.mp hn)
  untouched n hn := h.untouched n (ht.mem_iff.mp hn)
  past := h.past

theorem draw (h : Sound s) :
    Sound { s with next := s.next + 1, tickets := (s.next, none) :: s.tickets } where
  numbers := by
    refine nodup_cons.mpr ⟨fun hmem => ?_, h.numbers⟩
    obtain ⟨t, ht, heq⟩ := mem_map.mp hmem
    have hlt := h.drawn t ht
    have heq' : t.1 = s.next := heq
    omega
  drawn x hx := by
    rcases mem_cons.mp hx with rfl | hx
    · exact Nat.lt_succ_self s.next
    · exact Nat.lt_succ_of_lt (h.drawn x hx)
  listed n f := by simpa using h.listed n f
  placed n f hn := h.placed n f (by simpa using hn)
  apart n n' f hn hn' := h.apart n n' f (by simpa using hn) (by simpa using hn')
  raised n f hn := h.raised n f (by simpa using hn)
  untouched n hn hstruck := by
    rcases mem_cons.mp hn with heq | hn
    · have hlt := h.past n hstruck
      have heq' : n = s.next := congrArg Prod.fst heq
      omega
    · exact h.untouched n hn hstruck
  past n hn := Nat.lt_succ_of_lt (h.past n hn)

/-- A ticket that is not entered may be thrown away. -/
theorem drop (h : Sound s) {n : ℕ} {t : List Ticket} (ht : s.tickets = (n, none) :: t) :
    Sound { s with tickets := t } where
  numbers := by
    have hn := h.numbers
    rw [ht, map_cons, nodup_cons] at hn
    exact hn.2
  drawn x hx := h.drawn x (by rw [ht]; exact mem_cons_of_mem _ hx)
  listed m f := by
    rw [h.listed, ht]
    simp
  placed m f hm := h.placed m f (by rw [ht]; exact mem_cons_of_mem _ hm)
  apart m m' f hm hm' :=
    h.apart m m' f (by rw [ht]; exact mem_cons_of_mem _ hm)
      (by rw [ht]; exact mem_cons_of_mem _ hm')
  raised m f hm := h.raised m f (by rw [ht]; exact mem_cons_of_mem _ hm)
  untouched m hm := h.untouched m (by rw [ht]; exact mem_cons_of_mem _ hm)
  past := h.past

theorem enter (h : Sound s) {n : ℕ} {rest : List Ticket} (hs : s.tickets = (n, none) :: rest) :
    Sound { s with
      tickets := (n, some s.flags.length) :: rest
      board := s.board.put (n, s.flags.length)
      flags := s.flags ++ [false] } := by
  have hnum := h.numbers
  rw [hs, map_cons] at hnum
  have hold : ∀ t ∈ rest, t ∈ s.tickets := fun t ht => by
    rw [hs]; exact mem_cons_of_mem _ ht
  have hn : (n, none) ∈ s.tickets := by rw [hs]; exact mem_cons_self
  refine ⟨?_, ?_, ?_, ?_, ?_, ?_, ?_, h.past⟩
  · exact hnum
  · intro t ht
    rcases mem_cons.mp ht with rfl | ht
    · exact h.drawn (n, none) hn
    · exact h.drawn t (hold t ht)
  · intro m f
    by_cases hm : m = n
    · subst hm
      have hput := s.board.lookup_put_self (m, s.flags.length)
      rw [show (s.board.put (m, s.flags.length)).lookup m = some (m, s.flags.length) from hput]
      constructor
      · intro heq
        have hf : s.flags.length = f := congrArg Prod.snd (Option.some.inj heq)
        rw [hf]
        exact mem_cons_self
      · intro hmem
        rcases mem_cons.mp hmem with heq | hmem
        · have hf : some f = some s.flags.length := congrArg Prod.snd heq
          rw [Option.some.inj hf]
        · exact absurd rfl (h.number_ne hs hmem)
    · have hother : Table.lookup (s.board.put (n, s.flags.length)) m = s.board.lookup m :=
        s.board.lookup_put_of_ne (Ne.symm hm)
      rw [hother, h.listed, hs]
      simp [hm]
  · intro m f hm
    rw [length_append]
    rcases mem_cons.mp hm with heq | hm
    · have hf : some f = some s.flags.length := congrArg Prod.snd heq
      have hf' := Option.some.inj hf
      simp only [length_singleton]
      omega
    · have := h.placed m f (hold _ hm)
      omega
  · intro m m' f hm hm'
    rcases mem_cons.mp hm with heq | hm <;> rcases mem_cons.mp hm' with heq' | hm'
    · rw [(Prod.mk.inj heq).1, (Prod.mk.inj heq').1]
    · have hf := Option.some.inj (Prod.mk.inj heq).2
      have := h.placed m' f (hold _ hm')
      omega
    · have hf := Option.some.inj (Prod.mk.inj heq').2
      have := h.placed m f (hold _ hm)
      omega
    · exact h.apart m m' f (hold _ hm) (hold _ hm')
  · intro m f hm
    rcases mem_cons.mp hm with heq | hm
    · obtain ⟨rfl, hf⟩ := Prod.mk.inj heq
      rw [Option.some.inj hf, getElem?_append_right (Nat.le_refl _)]
      simpa using h.untouched m hn
    · rw [getElem?_append_left (h.placed m f (hold _ hm))]
      exact h.raised m f (hold _ hm)
  · intro m hm
    rcases mem_cons.mp hm with heq | hm
    · cases (Prod.mk.inj heq).2
    · exact h.untouched m (hold _ hm)

theorem withdraw (h : Sound s) {n f : ℕ} {t : List Ticket} (hs : s.tickets = (n, some f) :: t) :
    Sound { s with tickets := t, board := s.board.deleteWhere fun row => row.1 = n } := by
  have hnum := h.numbers
  rw [hs, map_cons, nodup_cons] at hnum
  have hold : ∀ k ∈ t, k ∈ s.tickets := fun k hk => by rw [hs]; exact mem_cons_of_mem _ hk
  refine ⟨hnum.2, fun k hk => h.drawn k (hold k hk), ?_, fun m g hm => h.placed m g (hold _ hm),
    fun m m' g hm hm' => h.apart m m' g (hold _ hm) (hold _ hm'),
    fun m g hm => h.raised m g (hold _ hm), fun m hm => h.untouched m (hold _ hm), h.past⟩
  intro m g
  by_cases hm : m = n
  · subst hm
    rw [Table.lookup_deleteWhere_of (by simp)]
    exact ⟨fun heq => (Option.some_ne_none _ heq.symm).elim,
      fun hmem => absurd rfl (h.number_ne hs hmem)⟩
  · rw [Table.lookup_deleteWhere_of_not (by simpa using hm), h.listed, hs]
    simp [hm]

theorem strike (h : Sound s) {n f : ℕ} (hmem : (n, some f) ∈ s.tickets) :
    Sound { s with flags := s.flags.set f true, struck := s.struck ++ [n] } := by
  refine ⟨h.numbers, h.drawn, h.listed, fun m g hm => ?_, h.apart, fun m g hm => ?_,
    fun m hm => ?_, fun m hm => ?_⟩
  · simpa using h.placed m g hm
  · simp only [mem_append, mem_singleton]
    by_cases hg : f = g
    · subst hg
      rw [getElem?_set_self (h.placed m f hm)]
      simp [h.apart m n f hm hmem]
    · have hmn : m ≠ n := by
        rintro rfl
        have hf := (h.listed m f).mpr hmem
        rw [(h.listed m g).mpr hm] at hf
        exact hg (congrArg Prod.snd (Option.some.inj hf)).symm
      rw [getElem?_set_ne hg, h.raised m g hm]
      simp [hmn]
  · have hne : m ≠ n := by
      rintro rfl
      cases h.eq_of_number hm hmem
    simpa [hne] using h.untouched m hm
  · rcases mem_append.mp hm with hm | hm
    · exact h.past m hm
    · rw [mem_singleton.mp hm]
      exact h.drawn _ hmem

theorem move (h : Sound s) (hmove : Move s s') : Sound s' := by
  cases hmove with
  | rearrange ht => exact h.rearrange ht
  | draw ht => exact h.draw.rearrange ht
  | drop ht => exact (h.rearrange ht.symm).drop rfl
  | enter hs ht => exact ((h.rearrange hs.symm).enter rfl).rearrange ht
  | withdraw hs => exact (h.rearrange hs.symm).withdraw rfl
  | strike hmem ht => exact (h.strike hmem).rearrange ht

end Sound

end Board
