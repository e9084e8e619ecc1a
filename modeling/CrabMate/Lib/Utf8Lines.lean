import CrabMate.Lib.Lines
import CrabMate.Lib.Utf8Stream

/-! Lines of UTF-8 bytes: cutting the bytes at newlines cuts the text at newlines. -/
namespace Utf8
open RustStr List

/-- What a loop of `BufRead::read_line` reads, each line with its newline. -/
def rawByteLines : List UInt8 → List (List UInt8)
  | [] => []
  | b :: bytes =>
    if b = 0x0A then [b] :: rawByteLines bytes
    else
      match rawByteLines bytes with
      | [] => [[b]]
      | line :: rest => (b :: line) :: rest

section Newline

theorem le_of_continuation {count : ℕ} {range : ℕ × ℕ} {acc v : ℕ} {bytes left : List UInt8}
    (h : continuation count range acc bytes = (some v, left)) : acc ≤ v := by
  induction count generalizing range acc bytes with
  | zero =>
    cases h
    exact Nat.le_refl _
  | succ count ih =>
    cases bytes with
    | nil => cases h
    | cons b bytes =>
      rw [continuation] at h
      split at h
      · have hle := ih h
        omega
      · cases h

theorem continuation_cons {count : ℕ} {range : ℕ × ℕ} {acc v : ℕ} {b : UInt8}
    {bytes left : List UInt8}
    (h : continuation (count + 1) range acc (b :: bytes) = (some v, left)) :
    range.1 ≤ b.toNat ∧ b.toNat ≤ range.2 ∧
      continuation count (0x80, 0xBF) (acc * 64 + b.toNat % 64) bytes = (some v, left) := by
  rw [continuation] at h
  split at h
  · next hb => exact ⟨hb.1, hb.2, h⟩
  · cases h

/-- The bytes behind the first of a sequence are no newlines. -/
theorem newline_not_mem_continuation {count : ℕ} {range : ℕ × ℕ} {acc v : ℕ}
    {pre zs : List UInt8} (hrange : 0x80 ≤ range.1) (hlen : pre.length = count)
    (h : continuation count range acc (pre ++ zs) = (some v, zs)) : (0x0A : UInt8) ∉ pre := by
  induction pre generalizing count range acc with
  | nil => exact not_mem_nil
  | cons b pre ih =>
    obtain rfl := hlen
    obtain ⟨hlow, -, hrest⟩ := continuation_cons h
    rw [mem_cons, not_or]
    refine ⟨?_, ih (Nat.le_refl _) rfl hrest⟩
    rintro rfl
    exact absurd (Nat.le_trans hrange hlow) (by decide)

theorem le_secondRange (first : ℕ) : 0x80 ≤ (secondRange first).1 := by
  unfold secondRange
  split_ifs <;> decide

theorem width_cases {n more : ℕ} (hw : width n = more + 2) :
    (0xC2 ≤ n ∧ n ≤ 0xDF ∧ more = 0) ∨ (0xE0 ≤ n ∧ n ≤ 0xEF ∧ more = 1) ∨
      (0xF0 ≤ n ∧ n ≤ 0xF4 ∧ more = 2) := by
  unfold width at hw
  split_ifs at hw <;> omega

/-- The first two bytes of a sequence of several leave no room for small numbers. -/
theorem lead_pos {n more d : ℕ} (hw : width n = more + 2) (hlow : (secondRange n).1 ≤ d)
    (hhigh : d ≤ (secondRange n).2) :
    0 < leadBits n * 64 + d % 64 ∧ (more = 0 → 64 ≤ leadBits n * 64 + d % 64) := by
  rcases width_cases hw with ⟨hn, hn', rfl⟩ | ⟨hn, hn', rfl⟩ | ⟨hn, hn', rfl⟩ <;>
    simp only [leadBits, hw, secondRange] at hlow hhigh ⊢ <;> split_ifs at hlow hhigh <;> omega

theorem ne_newline_of_continuation {b : UInt8} {more v : ℕ} {pre zs : List UInt8}
    (hw : width b.toNat = more + 2) (hlen : pre.length = more + 1)
    (h : continuation (more + 1) (secondRange b.toNat) (leadBits b.toNat) (pre ++ zs) =
      (some v, zs)) : 64 ≤ v := by
  cases pre with
  | nil => cases hlen
  | cons d pre =>
    obtain ⟨hlow, hhigh, hrest⟩ := continuation_cons h
    obtain ⟨hpos, hsmall⟩ := lead_pos hw hlow hhigh
    have hle := le_of_continuation hrest
    cases more with
    | zero => exact Nat.le_trans (hsmall rfl) hle
    | succ more =>
      cases pre with
      | nil => cases hlen
      | cons e pre =>
        have hle' := le_of_continuation (continuation_cons hrest).2.2
        omega

theorem ofNat_ne_newline {v : ℕ} (h : v ≠ 10) : Char.ofNat v ≠ '\n' := by
  intro heq
  have htoNat : (Char.ofNat v).toNat = 10 := congrArg Char.toNat heq
  unfold Char.ofNat at htoNat
  by_cases hvalid : v.isValidChar
  · rw [dif_pos hvalid] at htoNat
    exact h htoNat
  · rw [dif_neg hvalid] at htoNat
    cases htoNat

/-- A newline is the one sequence with the byte of a newline. -/
theorem IsChar.newline {b : UInt8} {pre : List UInt8} {c : Char} (h : IsChar b pre c) :
    (b = 0x0A ∧ pre = [] ∧ c = '\n') ∨ (b ≠ 0x0A ∧ (0x0A : UInt8) ∉ pre ∧ c ≠ '\n') := by
  obtain ⟨hw, hnext⟩ := h
  have hread := hnext []
  rw [next, ← hw] at hread
  dsimp only at hread
  rw [Prod.mk.injEq, Option.map_eq_some_iff] at hread
  obtain ⟨⟨v, hv, rfl⟩, hleft⟩ := hread
  have hcont : continuation pre.length (secondRange b.toNat) (leadBits b.toNat) (pre ++ []) =
      (some v, []) := Prod.ext hv hleft
  have hmem := newline_not_mem_continuation (le_secondRange _) rfl hcont
  cases pre with
  | nil =>
    have hlead : leadBits b.toNat = v := by
      simpa [continuation] using hv
    have hv : v = b.toNat := by rw [← hlead, leadBits, ← hw]; rfl
    by_cases hb : b = 0x0A
    · subst hb
      exact Or.inl ⟨rfl, rfl, by rw [hv]; rfl⟩
    · refine Or.inr ⟨hb, hmem, ofNat_ne_newline fun hten => hb ?_⟩
      rw [← UInt8.toNat_inj, ← hv, hten]
      rfl
  | cons d pre =>
    have hbig := @ne_newline_of_continuation b pre.length v (d :: pre) [] hw.symm rfl hcont
    refine Or.inr ⟨?_, hmem, ofNat_ne_newline (by omega)⟩
    rintro rfl
    cases hw

end Newline

section Lines

theorem rawByteLines_newline (ys : List UInt8) :
    rawByteLines (0x0A :: ys) = [0x0A] :: rawByteLines ys := by
  rw [rawByteLines, if_pos rfl]

/-- Bytes without a newline belong to the line that follows. -/
theorem rawByteLines_append {front : List UInt8} (hne : front ≠ [])
    (hfront : (0x0A : UInt8) ∉ front) (ys : List UInt8) :
    rawByteLines (front ++ ys) =
      match rawByteLines ys with
      | [] => [front]
      | line :: rest => (front ++ line) :: rest := by
  induction front with
  | nil => exact absurd rfl hne
  | cons b front ih =>
    rw [mem_cons, not_or] at hfront
    rw [cons_append, rawByteLines, if_neg (Ne.symm hfront.1)]
    by_cases hnil : front = []
    · subst hnil
      rfl
    · rw [ih hnil hfront.2]
      cases rawByteLines ys <;> rfl

theorem rawLines_of_valid {bytes : List UInt8} (h : Valid bytes) :
    (rawByteLines bytes).map fromUtf8Lossy = rawLines (fromUtf8Lossy bytes) ∧
      ∀ line ∈ rawByteLines bytes, Valid line := by
  induction bytes, h using valid_induction with
  | nil => exact ⟨rfl, fun line hline => nomatch hline⟩
  | char b pre ys c hchar hys h ih =>
    obtain ⟨hlines, hvalid⟩ := ih
    have hfront : Valid (b :: pre) := by
      have herr := hchar.fromUtf8Error?_eq []
      rwa [append_nil] at herr
    have hlossy : fromUtf8Lossy (b :: pre) = [c] := by
      have hone := hchar.fromUtf8Lossy_eq []
      rwa [append_nil] at hone
    rw [hchar.fromUtf8Lossy_eq]
    rcases hchar.newline with ⟨rfl, rfl, rfl⟩ | ⟨hb, hpre, hc⟩
    · rw [nil_append, rawByteLines_newline, map_cons, hlines, hlossy]
      refine ⟨rfl, fun line hline => ?_⟩
      rcases mem_cons.mp hline with rfl | hline
      · exact hfront
      · exact hvalid line hline
    · have hmem : (0x0A : UInt8) ∉ b :: pre := by
        rw [mem_cons, not_or]
        exact ⟨Ne.symm hb, hpre⟩
      rw [← cons_append, rawByteLines_append (cons_ne_nil _ _) hmem, rawLines, if_neg hc,
        ← hlines]
      cases hys : rawByteLines ys with
      | nil => exact ⟨by rw [map_singleton, hlossy]; rfl, by simpa using hfront⟩
      | cons line rest =>
        rw [hys] at hvalid
        refine ⟨?_, ?_⟩
        · rw [map_cons, map_cons, hfront.fromUtf8Lossy_append, hlossy]
          rfl
        · intro l hl
          rcases mem_cons.mp hl with rfl | hl
          · rw [hfront.valid_append_iff]
            exact hvalid line mem_cons_self
          · exact hvalid l (mem_cons_of_mem _ hl)

end Lines

section Last

/-- An ASCII byte is no continuation byte: it breaks off a sequence that lacks bytes. -/
theorem continuation_ascii {count : ℕ} {range : ℕ × ℕ} {acc : ℕ} {pre : List UInt8} {c : UInt8}
    (hc : c.toNat < 0x80) (hrange : 0x80 ≤ range.1)
    (h : continuation count range acc pre = (none, [])) (zs : List UInt8) :
    continuation count range acc (pre ++ c :: zs) = (none, c :: zs) := by
  induction count generalizing range acc pre with
  | zero => cases h
  | succ count ih =>
    cases pre with
    | nil =>
      have hout : ¬ (range.1 ≤ c.toNat ∧ c.toNat ≤ range.2) := by omega
      rw [nil_append, continuation, if_neg hout]
    | cons b pre =>
      rw [continuation] at h
      rw [cons_append, continuation]
      split_ifs at h ⊢ with hb
      · exact ih (Nat.le_refl _) h
      · cases h

theorem IsCut.isBad_ascii {b c : UInt8} {pre : List UInt8} (hc : c.toNat < 0x80) (h : IsCut b pre)
    (ys : List UInt8) : IsBad b pre (c :: ys) := by
  obtain ⟨hlen, hnext⟩ := h
  obtain ⟨more, hw⟩ := Nat.exists_eq_succ_of_ne_zero (Nat.ne_of_gt (Nat.zero_lt_of_lt hlen))
  have hread : continuation more (secondRange b.toNat) (leadBits b.toNat) pre = (none, []) := by
    rw [next, hw] at hnext
    simpa [Prod.ext_iff] using hnext
  refine ⟨Or.inr ⟨by omega, cons_ne_nil _ _⟩, fun zs => ?_⟩
  rw [next, hw, cons_append]
  dsimp only
  rw [continuation_ascii hc (le_secondRange _) hread]
  rfl

theorem isChar_ascii {c : UInt8} (hc : c.toNat < 0x80) : IsChar c [] (Char.ofNat c.toNat) := by
  have hw : width c.toNat = 0 + 1 := by rw [width, if_pos hc]
  refine ⟨by rw [hw]; rfl, fun ys => ?_⟩
  rw [next, hw]
  simp [continuation, leadBits, hw]

/-- Malformed sequences do not reach across an ASCII byte. -/
theorem fromUtf8Lossy_ascii {c : UInt8} (hc : c.toNat < 0x80) (x ys : List UInt8) :
    fromUtf8Lossy (x ++ c :: ys) = fromUtf8Lossy x ++ Char.ofNat c.toNat :: fromUtf8Lossy ys := by
  induction x using utf8_induction with
  | nil => exact (isChar_ascii hc).fromUtf8Lossy_eq ys
  | char b pre zs c hchar ih =>
    rw [cons_append, append_assoc, hchar.fromUtf8Lossy_eq, ih, hchar.fromUtf8Lossy_eq,
      cons_append]
  | bad b pre zs hbad ih =>
    rw [cons_append, append_assoc, (hbad.append _).fromUtf8Lossy_eq, ih,
      hbad.fromUtf8Lossy_eq, cons_append]
  | cut b pre hcut =>
    rw [cons_append, (hcut.isBad_ascii hc ys).fromUtf8Lossy_eq, hcut.fromUtf8Lossy_eq]
    exact congrArg (replacement :: ·) ((isChar_ascii hc).fromUtf8Lossy_eq ys)

theorem fromUtf8Lossy_newline (x ys : List UInt8) :
    fromUtf8Lossy (x ++ 0x0A :: ys) = fromUtf8Lossy x ++ '\n' :: fromUtf8Lossy ys :=
  fromUtf8Lossy_ascii (by decide) x ys

theorem count_newline_le (bytes : List UInt8) :
    bytes.count 0x0A ≤ (fromUtf8Lossy bytes).count '\n' := by
  induction hn : bytes.length using Nat.strong_induction_on generalizing bytes with
  | _ n ih =>
    by_cases hmem : (0x0A : UInt8) ∈ bytes
    · obtain ⟨front, rest, rfl, hfront⟩ := eq_append_cons_of_mem hmem
      have hrest := ih rest.length (by simp at hn; omega) rest rfl
      rw [fromUtf8Lossy_newline, count_append, count_append,
        count_eq_zero_of_not_mem hfront, count_cons_self, count_cons_self]
      omega
    · rw [count_eq_zero_of_not_mem hmem]
      exact Nat.zero_le _

theorem lastLines_of_suffix {n : ℕ} {front window : List UInt8} (h : n < window.count 0x0A) :
    lastLines n (fromUtf8Lossy (front ++ window)) = lastLines n (fromUtf8Lossy window) := by
  have hmem : (0x0A : UInt8) ∈ window := count_pos_iff.mp (Nat.zero_lt_of_lt h)
  obtain ⟨first, rest, rfl, hfirst⟩ := eq_append_cons_of_mem hmem
  have hcount : n ≤ rest.count 0x0A := by
    rw [count_append, count_eq_zero_of_not_mem hfirst, count_cons_self] at h
    omega
  have hlines : n ≤ (lines (fromUtf8Lossy rest)).length := by
    rw [length_lines]
    exact (hcount.trans (count_newline_le rest)).trans (Nat.le_add_right _ _)
  have hlast : ∀ x : List UInt8, lastLines n (fromUtf8Lossy (x ++ 0x0A :: rest)) =
      lastLines n (fromUtf8Lossy rest) := by
    intro x
    rw [fromUtf8Lossy_newline, lastLines_append_newline hlines]
  rw [← append_assoc, hlast, hlast]

theorem fromUtf8Lossy_eq_nil_iff (bytes : List UInt8) : fromUtf8Lossy bytes = [] ↔ bytes = [] := by
  induction bytes using utf8_induction with
  | nil => simp
  | char b pre ys c hchar ih => simp [hchar.fromUtf8Lossy_eq]
  | bad b pre ys hbad ih => simp [hbad.fromUtf8Lossy_eq]
  | cut b pre hcut => simp [hcut.fromUtf8Lossy_eq]

end Last

end Utf8
