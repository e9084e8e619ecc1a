import Mathlib.Data.Nat.Notation

/-! Numbers written in decimal. -/
namespace Decimal

theorem toDigits_ten_inj {m n : ℕ} (h : Nat.toDigits 10 m = Nat.toDigits 10 n) : m = n := by
  have hvalue := congrArg (Nat.ofDigitChars 10 · 0) h
  simpa only [Nat.ofDigitChars_ten_toDigits] using hvalue

theorem notMem_toDigits {d : Char} (n : ℕ) (hd : d.isDigit = false) : d ∉ Nat.toDigits 10 n := by
  intro hmem
  rw [Nat.isDigit_of_mem_toDigits (by decide) (Nat.le_refl 10) hmem] at hd
  cases hd

end Decimal
