import CrabMate.Ctl.Pacing

/-! The documented curve of the backoff, and for which attempts the code follows it: the exponent is
clamped, and a time that is too far away is none. -/
namespace CrabMate.Ctl
namespace Backoff

variable {initial max n : ℕ} {now : ℤ}

/-- `min(initial * 2^(n-1), max)`, for the durations that a supervisor is given. -/
def curve (initial max n : ℕ) : ℕ :=
  Nat.min (Nat.max initial nanosPerSec * 2 ^ (n - 1)) (Nat.max max (Nat.max initial nanosPerSec))

/-- The delay of an attempt is that of the curve, no shorter than the delays before it, and the next
attempt is its whole seconds away. -/
structure Follows (b : Backoff) (initial max : ℕ) (now : ℤ) (n : ℕ) : Prop where
  delay : b.delay n = curve initial max n
  mono : ∀ m ≤ n, b.delay m ≤ b.delay n
  next : b.nextFrom now n = .ok (now + secs (b.delaySecs n))

section Delay

variable {b : Backoff}

theorem delay_eq (b : Backoff) (n : ℕ) :
    b.delay n = Nat.min (b.initial * 2 ^ Nat.min (n - 1) 16) b.max := by
  have hcap := b.max_le
  simp only [delay, Nat.shiftLeft_eq, Nat.one_mul, Nat.min_def]
  split_ifs <;> omega

theorem delay_mono_attempt {m : ℕ} (h : m ≤ n) : b.delay m ≤ b.delay n := by
  refine delay_mono (Nat.le_min.mpr ⟨?_, Nat.min_le_right _ _⟩)
  exact (Nat.min_le_left _ _).trans (Nat.sub_le_sub_right h 1)

/-- The clamped exponent does no harm where the cap is reached before. -/
theorem delay_eq_min_iff (b : Backoff) (n : ℕ) :
    b.delay n = Nat.min (b.initial * 2 ^ (n - 1)) b.max ↔ n ≤ 17 ∨ b.max ≤ b.initial * 2 ^ 16 := by
  rw [delay_eq]
  by_cases hn : n ≤ 17
  · have hshift : Nat.min (n - 1) 16 = n - 1 := Nat.min_eq_left (by omega)
    rw [hshift]
    exact iff_of_true rfl (Or.inl hn)
  · have hshift : Nat.min (n - 1) 16 = 16 := Nat.min_eq_right (by omega)
    have hpos : 0 < b.initial := Nat.lt_of_lt_of_le (by decide) b.initial_pos
    have hpow : b.initial * 2 ^ 16 < b.initial * 2 ^ (n - 1) :=
      Nat.mul_lt_mul_of_pos_left (Nat.pow_lt_pow_right Nat.one_lt_two (by omega)) hpos
    rw [hshift, or_iff_right hn]
    simp only [Nat.min_def]
    split_ifs <;> omega

theorem delay_new_iff (hinitial : initial ≤ durationMax) (hmax : max ≤ durationMax) (n : ℕ) :
    (new initial max hinitial hmax).delay n = curve initial max n ↔
      n ≤ 17 ∨ Nat.max max (Nat.max initial nanosPerSec) ≤
        Nat.max initial nanosPerSec * 2 ^ 16 :=
  delay_eq_min_iff _ n

end Delay

section Next

variable {b : Backoff}

/-- The cast to signed seconds and both bounds of `chrono` are met exactly where the time is one. -/
theorem nextFrom_eq_iff (b : Backoff) (hnow : chronoMin ≤ now) (n : ℕ) :
    b.nextFrom now n = .ok (now + secs (b.delaySecs n)) ↔
      now + secs (b.delaySecs n) ≤ chronoMax := by
  simp only [nextFrom, secs, secsAsI64, chronoMin, chronoMax, nanosPerSec] at hnow ⊢
  split_ifs with hsmall hrange hrange
  · simpa using hrange.2.2
  · refine iff_of_false (by simp) ?_
    omega
  · simp only [Except.ok.injEq]
    omega
  · refine iff_of_false (by simp) ?_
    omega

end Next

/-- The code follows the curve for the first 17 attempts, and further where the cap is at most
2^16 times the initial delay, as long as the time of the next attempt is one of `chrono`. -/
theorem follows_iff (initial max : ℕ) (hinitial : initial ≤ durationMax) (hmax : max ≤ durationMax)
    (now : ℤ) (hnow : chronoMin ≤ now) (n : ℕ) :
    (new initial max hinitial hmax).Follows initial max now n ↔
      (n ≤ 17 ∨ Nat.max max (Nat.max initial nanosPerSec) ≤
        Nat.max initial nanosPerSec * 2 ^ 16) ∧
      now + secs (curve initial max n / nanosPerSec) ≤ chronoMax := by
  have hdelay := delay_new_iff hinitial hmax n
  have hnext := nextFrom_eq_iff (new initial max hinitial hmax) hnow n
  constructor
  · intro h
    refine ⟨hdelay.mp h.delay, ?_⟩
    rw [← h.delay]
    exact hnext.mp h.next
  · rintro ⟨hclamp, htime⟩
    have hcurve := hdelay.mpr hclamp
    refine ⟨hcurve, fun m hm => delay_mono_attempt hm, hnext.mpr ?_⟩
    rw [delaySecs, hcurve]
    exact htime

/-- The default delays, after the tenth attempt. -/
theorem follows_default :
    (new (5 * nanosPerSec) (300 * nanosPerSec) (by decide) (by decide)).Follows
      (5 * nanosPerSec) (300 * nanosPerSec) 0 10 :=
  (follows_iff _ _ _ _ 0 (by decide) 10).mpr (by decide)

/-- `--backoff-initial 1 --backoff-max 200000`: the eighteenth delay is half of that of the curve.
`--backoff-initial 9223372036854775808`: there is no time of the next attempt. -/
theorem curve_is_left :
    (new (1 * nanosPerSec) (200000 * nanosPerSec) (by decide) (by decide)).delay 18 =
        65536 * nanosPerSec ∧
      curve (1 * nanosPerSec) (200000 * nanosPerSec) 18 = 131072 * nanosPerSec ∧
      (new (9223372036854775808 * nanosPerSec) 0 (by decide) (by decide)).nextFrom 0 1 =
        .error (.general "panic" "`DateTime + TimeDelta` overflowed") := by
  refine ⟨by decide, by decide, by decide⟩

end Backoff
end CrabMate.Ctl
