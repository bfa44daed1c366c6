import Bitmine.Lib.ShortestDecimal

namespace Bitmine.Lib.WholeDoubles

open Bitmine.Lib.JsNumber Bitmine.Lib.ShortestDecimal

variable {n d : ℕ}

theorem size_le (h : n < 2 ^ 53) : Nat.size n - 53 = 0 := Nat.sub_eq_zero_of_le (Nat.size_le.mpr h)

theorem lastBit_large (h : 2 ^ 53 ≤ n) : lastBit n = (Nat.size n - 53 : ℕ) := by
  have hlog : 53 ≤ Nat.log 2 n := Nat.le_log_of_pow_le (by decide) h
  have hsize : Nat.size n = Nat.log 2 n + 1 := by
    have hpos : n ≠ 0 := by
      rintro rfl
      omega
    apply le_antisymm
    · exact Nat.size_le.mpr (Nat.lt_pow_succ_log_self (by decide) n)
    · exact Nat.lt_size.mpr (Nat.pow_log_le_self 2 hpos)
  rw [lastBit, Nat.abs_cast, Int.log_natCast, hsize, max_eq_left (by omega)]
  omega

theorem lastBit_weight (h : 2 ^ 53 ≤ n) : 2 ^ 53 * (2 ^ (Nat.size n - 53) : ℕ) ≤ 2 * n := by
  have hsize : 54 ≤ Nat.size n := Nat.lt_size.mpr h
  have hlow : 2 ^ (Nat.size n - 1) ≤ n := Nat.lt_size.mp (by omega)
  calc 2 ^ 53 * 2 ^ (Nat.size n - 53) = 2 * 2 ^ (Nat.size n - 1) := by
        rw [← pow_add, ← pow_succ']
        congr 1
        omega
    _ ≤ 2 * n := Nat.mul_le_mul_left 2 hlow

/-- A whole number is read as a whole number, which is the same one exactly when no more
than its first fifty-three bits are set. -/
theorem roundDouble_whole (hn : n < 2 ^ 1023) : ∃ m : ℤ, roundDouble n = some (m : ℚ) ∧
    (m = n ↔ 2 ^ (Nat.size n - 53) ∣ n) ∧ 2 ^ 53 * |m - n| ≤ n := by
  by_cases hsmall : n < 2 ^ 53
  · refine ⟨n, by exact_mod_cast roundDouble_natCast hsmall, ?_, by simp⟩
    rw [size_le hsmall]
    simp
  have hlarge : 2 ^ 53 ≤ n := not_lt.mp hsmall
  have hweight := lastBit_weight hlarge
  have hlast := lastBit_large hlarge
  let d := Nat.size n - 53
  let q : ℤ := roundHalfEven ((n : ℚ) / 2 ^ d)
  have hvalue : (roundHalfEven ((n : ℚ) / 2 ^ lastBit n) : ℚ) * 2 ^ lastBit n = ((q * 2 ^ d : ℤ) : ℚ) := by
    rw [hlast, zpow_natCast]
    push_cast
    rfl
  have hunit : (0 : ℚ) < 2 ^ d := by positivity
  have herror : |((q * 2 ^ d : ℤ) : ℚ) - n| ≤ 2 ^ d / 2 := by
    have hround := roundHalfEven_error ((n : ℚ) / 2 ^ d)
    calc |((q * 2 ^ d : ℤ) : ℚ) - n| = |(q : ℚ) - n / 2 ^ d| * 2 ^ d := by
          rw [← abs_of_pos hunit, ← abs_mul, abs_of_pos hunit, sub_mul, div_mul_cancel₀ _ hunit.ne']
          push_cast
          rfl
      _ ≤ 1 / 2 * 2 ^ d := mul_le_mul_of_nonneg_right hround hunit.le
      _ = 2 ^ d / 2 := by ring
  have hclose : 2 ^ 53 * |q * 2 ^ d - n| ≤ (n : ℤ) := by
    have hweight' : (2 : ℚ) ^ 53 * 2 ^ d ≤ 2 * n := by exact_mod_cast hweight
    have hscaled : (2 : ℚ) ^ 53 * |((q * 2 ^ d : ℤ) : ℚ) - n| ≤ n := by
      have hmul := mul_le_mul_of_nonneg_left herror (show (0 : ℚ) ≤ 2 ^ 53 by norm_num)
      linarith
    exact_mod_cast hscaled
  have hbound : |((q * 2 ^ d : ℤ) : ℚ)| < 2 ^ 1024 := by
    have hle : |q * 2 ^ d| ≤ 2 * (n : ℤ) := by
      have htriangle := abs_sub_abs_le_abs_sub (q * 2 ^ d) (n : ℤ)
      rw [Nat.abs_cast] at htriangle
      have hsmallError : |q * 2 ^ d - n| ≤ (n : ℤ) := by
        have hnonneg := abs_nonneg (q * 2 ^ d - (n : ℤ))
        omega
      omega
    have hlt : (2 * n : ℕ) < 2 ^ 1024 := by
      rw [pow_succ]
      omega
    calc |((q * 2 ^ d : ℤ) : ℚ)| ≤ ((2 * n : ℕ) : ℚ) := by exact_mod_cast hle
      _ < 2 ^ 1024 := by exact_mod_cast hlt
  refine ⟨q * 2 ^ d, ?_, ?_, hclose⟩
  · simp only [roundDouble, hvalue, if_pos hbound]
  · constructor
    · intro heq
      have hdvd : ((2 ^ d : ℕ) : ℤ) ∣ (n : ℤ) := by
        rw [← heq]
        push_cast
        exact dvd_mul_left _ _
      exact Int.natCast_dvd_natCast.mp hdvd
    · rintro ⟨c, hc⟩
      have hquotient : (n : ℚ) / 2 ^ d = ((c : ℤ) : ℚ) := by
        rw [div_eq_iff hunit.ne']
        have hcast : (n : ℚ) = ((2 ^ d * c : ℕ) : ℚ) := congrArg Nat.cast hc
        rw [hcast]
        push_cast
        ring
      have hq : q = c := by
        show roundHalfEven ((n : ℚ) / 2 ^ d) = c
        rw [hquotient, roundHalfEven_intCast]
      rw [hq, hc]
      push_cast
      ring

end Bitmine.Lib.WholeDoubles
