import Mathlib

namespace Bitmine.Lib.Rounding

def roundHalfUp (x : ℚ) : ℤ := if 0 ≤ x then ⌊x + 1 / 2⌋ else -⌊-x + 1 / 2⌋

def roundPlaces (places : ℕ) (x : ℚ) : ℚ := roundHalfUp (x * 10 ^ places) / 10 ^ places

def roundSig (digits : ℕ) (x : ℚ) : ℚ :=
  if x = 0 then 0
  else
    let scale : ℚ := 10 ^ ((digits : ℤ) - 1 - Int.log 10 |x|)
    roundHalfUp (x * scale) / scale

theorem roundHalfUp_nonneg {x : ℚ} (h : 0 ≤ x) : 0 ≤ roundHalfUp x := by
  rw [roundHalfUp, if_pos h]
  exact Int.floor_nonneg.mpr (by linarith)

theorem roundSig_nonneg (digits : ℕ) {x : ℚ} (h : 0 ≤ x) : 0 ≤ roundSig digits x := by
  rw [roundSig]
  split
  · exact le_rfl
  · have hs : (0 : ℚ) < 10 ^ ((digits : ℤ) - 1 - Int.log 10 |x|) := by positivity
    have hr : (0 : ℚ) ≤ roundHalfUp (x * 10 ^ ((digits : ℤ) - 1 - Int.log 10 |x|)) :=
      Int.cast_nonneg (roundHalfUp_nonneg (mul_nonneg h hs.le))
    exact div_nonneg hr hs.le

theorem roundHalfUp_eq {x : ℚ} {n : ℤ} (hx : 0 ≤ x) (h : n ≤ x + 1 / 2) (h' : x + 1 / 2 < n + 1) :
    roundHalfUp x = n := by
  rw [roundHalfUp, if_pos hx]
  exact Int.floor_eq_iff.mpr ⟨h, h'⟩

theorem roundHalfUp_intCast {n : ℤ} (h : 0 ≤ n) : roundHalfUp n = n :=
  roundHalfUp_eq (Int.cast_nonneg h) (by linarith) (by linarith)

theorem roundHalfUp_le {x : ℚ} (hx : 0 ≤ x) : (roundHalfUp x : ℚ) ≤ x + 1 / 2 := by
  rw [roundHalfUp, if_pos hx]
  exact Int.floor_le _

theorem one_le_roundHalfUp {x : ℚ} (h : 1 / 2 ≤ x) : 1 ≤ roundHalfUp x := by
  rw [roundHalfUp, if_pos (by linarith)]
  apply Int.le_floor.mpr
  push_cast
  linarith

theorem roundHalfUp_nonpos {x : ℚ} (h : x < 1 / 2) : roundHalfUp x ≤ 0 := by
  rw [roundHalfUp]
  split
  · apply Int.lt_add_one_iff.mp
    apply Int.floor_lt.mpr
    push_cast
    linarith
  · apply neg_nonpos.mpr
    apply Int.floor_nonneg.mpr
    linarith

theorem roundPlaces_pos_iff {places : ℕ} {x : ℚ} : 0 < roundPlaces places x ↔ 1 / 2 ≤ x * 10 ^ places := by
  have hpow : (0 : ℚ) < 10 ^ places := by positivity
  rw [roundPlaces, div_pos_iff_of_pos_right hpow, Int.cast_pos]
  constructor
  · intro h
    by_contra hsmall
    have hround := roundHalfUp_nonpos (not_le.mp hsmall)
    omega
  · intro h
    have hround := one_le_roundHalfUp h
    omega

theorem roundSig_eq {digits : ℕ} {x : ℚ} {e : ℤ} (h : 10 ^ e ≤ x) (h' : x < 10 ^ (e + 1)) :
    roundSig digits x =
      roundHalfUp (x * 10 ^ ((digits : ℤ) - 1 - e)) / 10 ^ ((digits : ℤ) - 1 - e) := by
  have hx : 0 < x := lt_of_lt_of_le (zpow_pos (by norm_num) e) h
  have hlog : Int.log 10 x = e := by
    refine le_antisymm (Int.lt_add_one_iff.mp ?_) ?_
    · exact (Int.lt_zpow_iff_log_lt (by norm_num) hx).mp (by exact_mod_cast h')
    · exact (Int.zpow_le_iff_le_log (by norm_num) hx).mp (by exact_mod_cast h)
  rw [roundSig, if_neg hx.ne', abs_of_pos hx, hlog]

theorem roundSig_eq_div {digits : ℕ} {x : ℚ} {e n : ℤ} (h : 10 ^ e ≤ x) (h' : x < 10 ^ (e + 1))
    (hn : n ≤ x * 10 ^ ((digits : ℤ) - 1 - e) + 1 / 2)
    (hn' : x * 10 ^ ((digits : ℤ) - 1 - e) + 1 / 2 < n + 1) :
    roundSig digits x = n / 10 ^ ((digits : ℤ) - 1 - e) := by
  have hx : 0 < x := lt_of_lt_of_le (zpow_pos (by norm_num) e) h
  rw [roundSig_eq h h', roundHalfUp_eq (by positivity) hn hn']

theorem roundSig_zero (digits : ℕ) : roundSig digits 0 = 0 := if_pos rfl

theorem exists_digits {x : ℚ} (h : 0 < x) : ∃ e : ℤ, (10 : ℚ) ^ e ≤ x ∧ x < 10 ^ (e + 1) := by
  refine ⟨Int.log 10 x, ?_, ?_⟩
  · exact_mod_cast Int.zpow_log_le_self (by norm_num) h
  · exact_mod_cast Int.lt_zpow_succ_log_self (by norm_num) x

theorem le_roundSig {digits : ℕ} (hd : 0 < digits) {x : ℚ} {e : ℤ} (h : 10 ^ e ≤ x) :
    10 ^ e ≤ roundSig digits x := by
  have hx : 0 < x := lt_of_lt_of_le (zpow_pos (by norm_num) e) h
  obtain ⟨k, hk, hk'⟩ := exists_digits hx
  have hek : e ≤ k := by
    have hlt : (10 : ℚ) ^ e < 10 ^ (k + 1) := lt_of_le_of_lt h hk'
    rw [zpow_lt_zpow_iff_right₀ (by norm_num)] at hlt
    omega
  have hscale : (0 : ℚ) < 10 ^ ((digits : ℤ) - 1 - k) := by positivity
  have hlead : (((10 ^ (digits - 1) : ℕ) : ℤ) : ℚ) = 10 ^ k * 10 ^ ((digits : ℤ) - 1 - k) := by
    rw [← zpow_add₀ (by norm_num)]
    push_cast
    rw [← zpow_natCast]
    congr 1
    omega
  have hround : ((10 ^ (digits - 1) : ℕ) : ℤ) ≤ roundHalfUp (x * 10 ^ ((digits : ℤ) - 1 - k)) := by
    rw [roundHalfUp, if_pos (by positivity)]
    apply Int.le_floor.mpr
    rw [hlead]
    have hle := mul_le_mul_of_nonneg_right hk hscale.le
    linarith
  rw [roundSig_eq hk hk', le_div_iff₀ hscale]
  calc (10 : ℚ) ^ e * 10 ^ ((digits : ℤ) - 1 - k) ≤ 10 ^ k * 10 ^ ((digits : ℤ) - 1 - k) :=
        mul_le_mul_of_nonneg_right (zpow_le_zpow_right₀ (by norm_num) hek) hscale.le
    _ = (((10 ^ (digits - 1) : ℕ) : ℤ) : ℚ) := hlead.symm
    _ ≤ roundHalfUp (x * 10 ^ ((digits : ℤ) - 1 - k)) := by exact_mod_cast hround

theorem roundSig_pos {digits : ℕ} (hd : 0 < digits) {x : ℚ} (h : 0 < x) : 0 < roundSig digits x := by
  obtain ⟨e, he, _⟩ := exists_digits h
  exact lt_of_lt_of_le (zpow_pos (by norm_num) e) (le_roundSig hd he)

/-- A whole number of units of ten to some power with few enough digits is kept. -/
theorem roundSig_eq_self {digits : ℕ} {x : ℚ} {places : ℕ} {n : ℕ} (hx : x * 10 ^ places = n)
    (hn : n < 10 ^ digits) : roundSig digits x = x := by
  have hten : (0 : ℚ) < 10 ^ places := by positivity
  obtain h | h := eq_or_lt_of_le (Nat.zero_le n)
  · have hzero : x = 0 := by
      rw [← h, Nat.cast_zero] at hx
      exact (mul_eq_zero.mp hx).resolve_right hten.ne'
    rw [hzero, roundSig_zero]
  · have hpos : 0 < x := by
      have : (0 : ℚ) < x * 10 ^ places := by
        rw [hx]
        exact_mod_cast h
      exact (pos_iff_pos_of_mul_pos this).mpr hten
    obtain ⟨e, he, he'⟩ := exists_digits hpos
    -- all digits of the number stand before the last one that is kept
    have hlast : (places : ℤ) ≤ (digits : ℤ) - 1 - e := by
      have hlt : (10 : ℚ) ^ (e + places) < 10 ^ (digits : ℤ) := by
        rw [zpow_add₀ (by norm_num)]
        calc (10 : ℚ) ^ e * 10 ^ (places : ℤ) ≤ x * 10 ^ (places : ℤ) :=
              mul_le_mul_of_nonneg_right he (by positivity)
          _ = n := by rw [zpow_natCast, hx]
          _ < 10 ^ (digits : ℤ) := by exact_mod_cast hn
      have := (zpow_lt_zpow_iff_right₀ (by norm_num)).mp hlt
      omega
    obtain ⟨k, hk⟩ := Int.eq_ofNat_of_zero_le (sub_nonneg.mpr hlast)
    have hscale : (10 : ℚ) ^ ((digits : ℤ) - 1 - e) = 10 ^ places * 10 ^ k := by
      have hsum : (digits : ℤ) - 1 - e = places + k := by omega
      rw [hsum, zpow_add₀ (by norm_num), zpow_natCast, zpow_natCast]
    have hwhole : x * 10 ^ ((digits : ℤ) - 1 - e) = ((n * 10 ^ k : ℕ) : ℤ) := by
      rw [hscale, ← mul_assoc, hx]
      push_cast
      rfl
    rw [roundSig_eq he he', hwhole, roundHalfUp_intCast (Int.natCast_nonneg _), ← hwhole]
    exact mul_div_cancel_right₀ _ (by positivity)

theorem roundSig_le {digits : ℕ} {x : ℚ} (h : 0 ≤ x) :
    roundSig digits x ≤ x + x * 10 ^ (1 - (digits : ℤ)) / 2 := by
  obtain rfl | hpos := h.eq_or_lt
  · simp [roundSig_zero]
  obtain ⟨e, he, he'⟩ := exists_digits hpos
  have hscale : (0 : ℚ) < 10 ^ ((digits : ℤ) - 1 - e) := by positivity
  have hunit : (1 : ℚ) ≤ x * 10 ^ (1 - (digits : ℤ)) * 10 ^ ((digits : ℤ) - 1 - e) := by
    have hpow : (10 : ℚ) ^ (1 - (digits : ℤ)) * 10 ^ ((digits : ℤ) - 1 - e) = 10 ^ (-e) := by
      rw [← zpow_add₀ (by norm_num)]
      congr 1
      ring
    rw [mul_assoc, hpow]
    calc (1 : ℚ) = 10 ^ e * 10 ^ (-e) := by
          rw [← zpow_add₀ (by norm_num), add_neg_cancel, zpow_zero]
      _ ≤ x * 10 ^ (-e) := mul_le_mul_of_nonneg_right he (by positivity)
  rw [roundSig_eq he he', div_le_iff₀ hscale]
  have hround := roundHalfUp_le (x := x * 10 ^ ((digits : ℤ) - 1 - e)) (by positivity)
  nlinarith

end Bitmine.Lib.Rounding
