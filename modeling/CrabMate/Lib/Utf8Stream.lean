import CrabMate.Lib.Utf8

/-! UTF-8 sequence by sequence: what the sequence at the front of a byte list depends on. -/
namespace Utf8
open RustStr (Str)
open List Option

/-- The sequence that `b` opens, and the bytes behind it. -/
def next (b : UInt8) (rest : List UInt8) : Option Char × List UInt8 :=
  match width b.toNat with
  | 0 => (none, rest)
  | more + 1 =>
    let read := continuation more (secondRange b.toNat) (leadBits b.toNat) rest
    (read.1.map Char.ofNat, read.2)

/-- A continuation is complete, or broken off by a byte that is not one, or cut by the end. -/
theorem continuation_cases (count : ℕ) (range : ℕ × ℕ) (acc : ℕ) (rest : List UInt8) :
    (∃ pre left v, rest = pre ++ left ∧ pre.length = count ∧
      ∀ zs, continuation count range acc (pre ++ zs) = (some v, zs)) ∨
    (∃ pre d left, rest = pre ++ d :: left ∧
      ∀ zs, continuation count range acc (pre ++ d :: zs) = (none, d :: zs)) ∨
    (continuation count range acc rest = (none, []) ∧ rest.length < count) := by
  induction count generalizing range acc rest with
  | zero => exact Or.inl ⟨[], rest, acc, rfl, rfl, fun _ => rfl⟩
  | succ count ih =>
    cases rest with
    | nil => exact Or.inr (Or.inr ⟨rfl, Nat.succ_pos _⟩)
    | cons b rest =>
      by_cases hb : range.1 ≤ b.toNat ∧ b.toNat ≤ range.2
      · have hstep : ∀ zs, continuation (count + 1) range acc (b :: zs) =
            continuation count (0x80, 0xBF) (acc * 64 + b.toNat % 64) zs := fun zs => by
          rw [continuation, if_pos hb]
        rcases ih (0x80, 0xBF) (acc * 64 + b.toNat % 64) rest with
          ⟨pre, left, v, rfl, hlen, hread⟩ | ⟨pre, d, left, rfl, hread⟩ | ⟨hread, hlen⟩
        · refine Or.inl ⟨b :: pre, left, v, rfl, ?_, fun zs => ?_⟩
          · rw [length_cons, hlen]
          · rw [cons_append, hstep, hread]
        · refine Or.inr (Or.inl ⟨b :: pre, d, left, rfl, fun zs => ?_⟩)
          rw [cons_append, hstep, hread]
        · refine Or.inr (Or.inr ⟨by rw [hstep, hread], ?_⟩)
          rw [length_cons]
          omega
      · refine Or.inr (Or.inl ⟨[], b, rest, rfl, fun zs => ?_⟩)
        rw [nil_append, continuation, if_neg hb]

/-- A whole sequence, whatever follows it. -/
def IsChar (b : UInt8) (pre : List UInt8) (c : Char) : Prop :=
  pre.length + 1 = width b.toNat ∧ ∀ zs, next b (pre ++ zs) = (some c, zs)

/-- A malformed sequence that ends where `ys` begins, whatever follows. -/
def IsBad (b : UInt8) (pre ys : List UInt8) : Prop :=
  (width b.toNat = 0 ∧ pre = [] ∨ width b.toNat ≠ 0 ∧ ys ≠ []) ∧
    ∀ zs, next b (pre ++ (ys ++ zs)) = (none, ys ++ zs)

/-- A sequence that only lacks bytes at its end. -/
def IsCut (b : UInt8) (pre : List UInt8) : Prop :=
  pre.length + 1 < width b.toNat ∧ next b pre = (none, [])

theorem next_cases (b : UInt8) (rest : List UInt8) :
    (∃ pre ys c, rest = pre ++ ys ∧ IsChar b pre c) ∨
    (∃ pre ys, rest = pre ++ ys ∧ IsBad b pre ys) ∨ IsCut b rest := by
  cases hw : width b.toNat with
  | zero =>
    refine Or.inr (Or.inl ⟨[], rest, rfl, Or.inl ⟨hw, rfl⟩, fun zs => ?_⟩)
    rw [nil_append, next, hw]
  | succ more =>
    have hnext : ∀ zs, next b zs =
        ((continuation more (secondRange b.toNat) (leadBits b.toNat) zs).1.map Char.ofNat,
          (continuation more (secondRange b.toNat) (leadBits b.toNat) zs).2) := fun zs => by
      rw [next, hw]
    rcases continuation_cases more (secondRange b.toNat) (leadBits b.toNat) rest with
      ⟨pre, left, v, rfl, hlen, hread⟩ | ⟨pre, d, left, rfl, hread⟩ | ⟨hread, hlen⟩
    · refine Or.inl ⟨pre, left, Char.ofNat v, rfl, by rw [hlen, hw], fun zs => ?_⟩
      rw [hnext, hread]
      rfl
    · have hne : width b.toNat ≠ 0 := by omega
      refine Or.inr (Or.inl ⟨pre, d :: left, rfl, Or.inr ⟨hne, cons_ne_nil _ _⟩, fun zs => ?_⟩)
      rw [cons_append, hnext, hread]
      rfl
    · refine Or.inr (Or.inr ⟨by omega, ?_⟩)
      rw [hnext, hread]
      rfl

/-- Sequence by sequence. -/
@[elab_as_elim]
theorem utf8_induction {motive : List UInt8 → Prop} (nil : motive [])
    (char : ∀ b pre ys c, IsChar b pre c → motive ys → motive (b :: (pre ++ ys)))
    (bad : ∀ b pre ys, IsBad b pre ys → motive ys → motive (b :: (pre ++ ys)))
    (cut : ∀ b pre, IsCut b pre → motive (b :: pre)) (bytes : List UInt8) : motive bytes := by
  induction hn : bytes.length using Nat.strong_induction_on generalizing bytes with
  | _ n ih =>
    cases bytes with
    | nil => exact nil
    | cons b rest =>
      rcases next_cases b rest with ⟨pre, ys, c, rfl, hchar⟩ | ⟨pre, ys, rfl, hbad⟩ | hcut
      · refine char b pre ys c hchar (ih ys.length ?_ ys rfl)
        rw [← hn, length_cons, length_append]
        omega
      · refine bad b pre ys hbad (ih ys.length ?_ ys rfl)
        rw [← hn, length_cons, length_append]
        omega
      · exact cut b rest hcut

section Decode

variable {b : UInt8} {pre ys : List UInt8} {c : Char}

theorem IsChar.next_eq (h : IsChar b pre c) (ys : List UInt8) : next b (pre ++ ys) = (some c, ys) :=
  h.2 ys

theorem IsBad.next_eq (h : IsBad b pre ys) : next b (pre ++ ys) = (none, ys) := by
  have hnext := h.2 []
  rwa [append_nil] at hnext

theorem IsBad.append (h : IsBad b pre ys) (zs : List UInt8) : IsBad b pre (ys ++ zs) := by
  refine ⟨h.1.imp id fun hne => ⟨hne.1, ?_⟩, fun ws => ?_⟩
  · exact append_ne_nil_of_left_ne_nil hne.2 zs
  · rw [append_assoc]
    exact h.2 (zs ++ ws)

theorem decode_succ (rounds : ℕ) (b : UInt8) (rest : List UInt8) :
    decode (rounds + 1) (b :: rest) = (next b rest).1 :: decode rounds (next b rest).2 := by
  rw [decode, next]
  cases width b.toNat <;> rfl

theorem decode_nil (rounds : ℕ) : decode rounds [] = [] := by cases rounds <;> rfl

/-- More rounds than bytes are of no use. -/
theorem decode_eq {rounds : ℕ} {bytes : List UInt8} (h : bytes.length ≤ rounds) :
    decode rounds bytes = decode bytes.length bytes := by
  induction bytes using utf8_induction generalizing rounds with
  | nil => rw [decode_nil, decode_nil]
  | char b pre ys c hchar ih =>
    obtain ⟨rounds, rfl⟩ := Nat.exists_eq_add_of_le' (Nat.le_trans (Nat.succ_pos _) h)
    rw [length_cons, length_append] at h
    rw [length_cons, decode_succ, decode_succ, hchar.next_eq, ih (by omega),
      @ih (pre ++ ys).length (by simp)]
  | bad b pre ys hbad ih =>
    obtain ⟨rounds, rfl⟩ := Nat.exists_eq_add_of_le' (Nat.le_trans (Nat.succ_pos _) h)
    rw [length_cons, length_append] at h
    rw [length_cons, decode_succ, decode_succ, hbad.next_eq, ih (by omega),
      @ih (pre ++ ys).length (by simp)]
  | cut b pre hcut =>
    obtain ⟨rounds, rfl⟩ := Nat.exists_eq_add_of_le' (Nat.le_trans (Nat.succ_pos _) h)
    rw [length_cons, decode_succ, decode_succ, hcut.2, decode_nil, decode_nil]

@[simp] theorem fromUtf8Lossy_nil : fromUtf8Lossy [] = [] := rfl

/-- What stands for a malformed sequence. -/
def replacement : Char := Char.ofNat 0xFFFD

/-- What is read strictly is read lossily as well. -/
theorem eq_fromUtf8Lossy {bytes : List UInt8} {text : Str} (h : fromUtf8 bytes = some text) :
    text = fromUtf8Lossy bytes := by
  rw [fromUtf8] at h
  rw [fromUtf8Lossy]
  generalize decode bytes.length bytes = cs at h ⊢
  induction cs generalizing text with
  | nil => exact (Option.some.inj h).symm
  | cons c cs ih =>
    cases c with
    | none => simp at h
    | some c =>
      cases hcs : cs.mapM id with
      | none => simp [hcs] at h
      | some rest =>
        have htext : c :: rest = text := by simpa [hcs] using h
        rw [← htext, map_cons, ← ih hcs, getD_some]

theorem fromUtf8Lossy_cons (b : UInt8) (rest : List UInt8)
    (h : (next b rest).2.length ≤ rest.length) :
    fromUtf8Lossy (b :: rest) =
      (next b rest).1.getD replacement :: fromUtf8Lossy (next b rest).2 := by
  rw [fromUtf8Lossy, length_cons, decode_succ, map_cons, decode_eq h]
  rfl

theorem IsChar.fromUtf8Lossy_eq (h : IsChar b pre c) (ys : List UInt8) :
    fromUtf8Lossy (b :: (pre ++ ys)) = c :: fromUtf8Lossy ys := by
  rw [fromUtf8Lossy_cons b _ (by simp [h.next_eq]), h.next_eq]
  rfl

theorem IsBad.fromUtf8Lossy_eq (h : IsBad b pre ys) :
    fromUtf8Lossy (b :: (pre ++ ys)) = replacement :: fromUtf8Lossy ys := by
  rw [fromUtf8Lossy_cons b _ (by simp [h.next_eq]), h.next_eq]
  rfl

theorem IsCut.fromUtf8Lossy_eq (h : IsCut b pre) : fromUtf8Lossy (b :: pre) = [replacement] := by
  rw [fromUtf8Lossy_cons b _ (by simp [h.2]), h.2]
  rfl

end Decode

section Errors

variable {b : UInt8} {pre ys : List UInt8} {c : Char}

/-- The error behind `n` more bytes. -/
def Utf8Error.shift (e : Utf8Error) (n : ℕ) : Utf8Error :=
  { e with validUpTo := e.validUpTo + n }

theorem error?_succ (rounds pos : ℕ) (b : UInt8) (rest : List UInt8) :
    error? (rounds + 1) pos (b :: rest) =
      match next b rest with
      | (some _, left) => error? rounds (pos + width b.toNat) left
      | (none, left) =>
        if width b.toNat ≠ 0 ∧ left = [] then some ⟨pos, none⟩
        else some ⟨pos, some (1 + (rest.length - left.length))⟩ := by
  rw [error?, next]
  cases width b.toNat with
  | zero => simp
  | succ more =>
    dsimp only
    rcases continuation more (secondRange b.toNat) (leadBits b.toNat) rest with ⟨v, left⟩
    cases v with
    | some v => rfl
    | none => cases left <;> simp

theorem IsChar.error?_eq (h : IsChar b pre c) (rounds pos : ℕ) (ys : List UInt8) :
    error? (rounds + 1) pos (b :: (pre ++ ys)) = error? rounds (pos + (pre.length + 1)) ys := by
  rw [error?_succ, h.next_eq, h.1]

theorem IsBad.error?_eq (h : IsBad b pre ys) (rounds pos : ℕ) :
    error? (rounds + 1) pos (b :: (pre ++ ys)) = some ⟨pos, some (pre.length + 1)⟩ := by
  have hwhole : ¬ (width b.toNat ≠ 0 ∧ ys = []) := by
    rintro ⟨hw, hys⟩
    rcases h.1 with hzero | hne
    · exact hw hzero.1
    · exact hne.2 hys
  rw [error?_succ, h.next_eq]
  dsimp only
  rw [if_neg hwhole, length_append, Nat.add_sub_cancel, Nat.add_comm]

theorem IsCut.error?_eq (h : IsCut b pre) (rounds pos : ℕ) :
    error? (rounds + 1) pos (b :: pre) = some ⟨pos, none⟩ := by
  have hw : width b.toNat ≠ 0 := Nat.ne_of_gt (Nat.lt_of_le_of_lt (Nat.zero_le _) h.1)
  rw [error?_succ, h.2]
  dsimp only
  rw [if_pos ⟨hw, rfl⟩]

theorem error?_eq {rounds : ℕ} (pos : ℕ) {bytes : List UInt8} (h : bytes.length ≤ rounds) :
    error? rounds pos bytes = (fromUtf8Error? bytes).map fun e => e.shift pos := by
  rw [fromUtf8Error?]
  induction bytes using utf8_induction generalizing rounds pos with
  | nil => cases rounds <;> rfl
  | char b pre ys c hchar ih =>
    obtain ⟨rounds, rfl⟩ := Nat.exists_eq_add_of_le' (Nat.le_trans (Nat.succ_pos _) h)
    rw [length_cons, length_append] at h
    rw [length_cons, hchar.error?_eq, hchar.error?_eq, ih _ (by omega),
      @ih (pre ++ ys).length _ (by simp), Option.map_map]
    congr 1
    funext e
    simp only [Function.comp, Utf8Error.shift, Nat.add_assoc, Nat.add_comm pos, Nat.zero_add]
  | bad b pre ys hbad ih =>
    obtain ⟨rounds, rfl⟩ := Nat.exists_eq_add_of_le' (Nat.le_trans (Nat.succ_pos _) h)
    rw [length_cons, hbad.error?_eq, hbad.error?_eq]
    simp [Utf8Error.shift]
  | cut b pre hcut =>
    obtain ⟨rounds, rfl⟩ := Nat.exists_eq_add_of_le' (Nat.le_trans (Nat.succ_pos _) h)
    rw [length_cons, hcut.error?_eq, hcut.error?_eq]
    simp [Utf8Error.shift]

theorem IsChar.fromUtf8Error?_eq (h : IsChar b pre c) (ys : List UInt8) :
    fromUtf8Error? (b :: (pre ++ ys)) =
      (fromUtf8Error? ys).map fun e => e.shift (pre.length + 1) := by
  rw [fromUtf8Error?, length_cons, h.error?_eq, Utf8.error?_eq _ (by simp), Nat.zero_add]

theorem IsBad.fromUtf8Error?_eq (h : IsBad b pre ys) :
    fromUtf8Error? (b :: (pre ++ ys)) = some ⟨0, some (pre.length + 1)⟩ := by
  rw [fromUtf8Error?, length_cons, h.error?_eq]

theorem IsCut.fromUtf8Error?_eq (h : IsCut b pre) :
    fromUtf8Error? (b :: pre) = some ⟨0, none⟩ := by
  rw [fromUtf8Error?, length_cons, h.error?_eq]

end Errors

section Valid

variable {x y : List UInt8}

/-- The bytes are UTF-8. -/
def Valid (bytes : List UInt8) : Prop := fromUtf8Error? bytes = none

instance (bytes : List UInt8) : Decidable (Valid bytes) := inferInstanceAs (Decidable (_ = _))

theorem valid_nil : Valid [] := rfl

theorem fromUtf8Strict_eq_ok_iff {t : Str} :
    fromUtf8Strict x = .ok t ↔ Valid x ∧ t = fromUtf8Lossy x := by
  rw [fromUtf8Strict, Valid]
  cases fromUtf8Error? x with
  | none => simp [eq_comm]
  | some e => simp

/-- Sequence by sequence of valid bytes. -/
@[elab_as_elim]
theorem valid_induction {motive : (bytes : List UInt8) → Valid bytes → Prop}
    (nil : motive [] valid_nil)
    (char : ∀ b pre ys c, IsChar b pre c → ∀ (hys : Valid ys) (h : Valid (b :: (pre ++ ys))),
      motive ys hys → motive (b :: (pre ++ ys)) h) (bytes : List UInt8) (h : Valid bytes) :
    motive bytes h := by
  induction bytes using utf8_induction with
  | nil => exact nil
  | char b pre ys c hchar ih =>
    have hys : Valid ys := by
      rw [Valid, hchar.fromUtf8Error?_eq, map_eq_none_iff] at h
      exact h
    exact char b pre ys c hchar hys h (ih hys)
  | bad b pre ys hbad ih =>
    rw [Valid, hbad.fromUtf8Error?_eq] at h
    cases h
  | cut b pre hcut =>
    rw [Valid, hcut.fromUtf8Error?_eq] at h
    cases h

/-- Valid bytes are decoded whatever follows them. -/
theorem Valid.fromUtf8Lossy_append (hx : Valid x) (y : List UInt8) :
    fromUtf8Lossy (x ++ y) = fromUtf8Lossy x ++ fromUtf8Lossy y := by
  induction x, hx using valid_induction with
  | nil => rfl
  | char b pre ys c hchar hys h ih =>
    rw [cons_append, append_assoc, hchar.fromUtf8Lossy_eq, hchar.fromUtf8Lossy_eq, ih,
      cons_append]

theorem Valid.fromUtf8Error?_append (hx : Valid x) (y : List UInt8) :
    fromUtf8Error? (x ++ y) = (fromUtf8Error? y).map fun e => e.shift x.length := by
  induction x, hx using valid_induction with
  | nil =>
    rw [nil_append]
    cases fromUtf8Error? y <;> rfl
  | char b pre ys c hchar hys h ih =>
    rw [cons_append, append_assoc, hchar.fromUtf8Error?_eq, ih, Option.map_map]
    congr 1
    funext e
    simp only [Function.comp, Utf8Error.shift, length_cons, length_append,
      Utf8Error.mk.injEq, and_true]
    omega

theorem Valid.valid_append_iff (hx : Valid x) : Valid (x ++ y) ↔ Valid y := by
  rw [Valid, hx.fromUtf8Error?_append, map_eq_none_iff, Valid]

theorem split_of_error {e : Utf8Error} (h : fromUtf8Error? x = some e) :
    ∃ front rest, x = front ++ rest ∧ front.length = e.validUpTo ∧ Valid front ∧
      fromUtf8Error? rest = some ⟨0, e.errorLen⟩ := by
  induction x using utf8_induction generalizing e with
  | nil => cases h
  | char b pre ys c hchar ih =>
    rw [hchar.fromUtf8Error?_eq, map_eq_some_iff] at h
    obtain ⟨e, he, rfl⟩ := h
    obtain ⟨front, rest, rfl, hlen, hfront, hrest⟩ := ih he
    refine ⟨b :: (pre ++ front), rest, ?_, ?_, ?_, hrest⟩
    · rw [cons_append, append_assoc]
    · simp only [Utf8Error.shift, length_cons, length_append, hlen]
      omega
    · rw [Valid, hchar.fromUtf8Error?_eq, hfront, map_none]
  | bad b pre ys hbad ih =>
    have herr := hbad.fromUtf8Error?_eq
    rw [herr] at h
    cases h
    exact ⟨[], _, rfl, rfl, valid_nil, herr⟩
  | cut b pre hcut =>
    have herr := hcut.fromUtf8Error?_eq
    rw [herr] at h
    cases h
    exact ⟨[], _, rfl, rfl, valid_nil, herr⟩

/-- No error is reported in front of a character. -/
theorem IsChar.validUpTo_pos {b : UInt8} {pre ys : List UInt8} {c : Char} (hchar : IsChar b pre c)
    {e : Utf8Error} (h : fromUtf8Error? (b :: (pre ++ ys)) = some e) : 0 < e.validUpTo := by
  rw [hchar.fromUtf8Error?_eq, map_eq_some_iff] at h
  obtain ⟨e', -, rfl⟩ := h
  rw [Utf8Error.shift]
  exact Nat.add_pos_right _ (Nat.succ_pos _)

/-- A malformed part at the front is replaced, whatever follows. -/
theorem replaced_of_error {n : ℕ} (h : fromUtf8Error? x = some ⟨0, some n⟩) :
    ∃ front rest, x = front ++ rest ∧ front.length = n ∧ 0 < n ∧
      ∀ zs, fromUtf8Lossy (x ++ zs) = replacement :: fromUtf8Lossy (rest ++ zs) := by
  induction x using utf8_induction with
  | nil => cases h
  | char b pre ys c hchar ih =>
    have hpos := hchar.validUpTo_pos h
    exact absurd hpos (Nat.lt_irrefl 0)
  | bad b pre ys hbad ih =>
    rw [hbad.fromUtf8Error?_eq] at h
    cases h
    refine ⟨b :: pre, ys, rfl, rfl, Nat.succ_pos _, fun zs => ?_⟩
    rw [cons_append, append_assoc, (hbad.append zs).fromUtf8Lossy_eq]
  | cut b pre hcut =>
    rw [hcut.fromUtf8Error?_eq] at h
    cases h

theorem cut_of_error (h : fromUtf8Error? x = some ⟨0, none⟩) : fromUtf8Lossy x = [replacement] := by
  induction x using utf8_induction with
  | nil => cases h
  | char b pre ys c hchar ih =>
    have hpos := hchar.validUpTo_pos h
    exact absurd hpos (Nat.lt_irrefl 0)
  | bad b pre ys hbad ih =>
    rw [hbad.fromUtf8Error?_eq] at h
    cases h
  | cut b pre hcut => exact hcut.fromUtf8Lossy_eq

end Valid

end Utf8
