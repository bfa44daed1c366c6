import Bitmine.Lib.JsNumber

namespace Bitmine.Lib.ShortestDecimal

open Bitmine.Lib.JsNumber

def neighbours (x : ℚ) (e : ℤ) : List ℚ := [⌊x / 10 ^ e⌋ * 10 ^ e, (⌊x / 10 ^ e⌋ + 1) * 10 ^ e]

def closest (x : ℚ) : List ℚ → Option ℚ
  | [a, b] => some (if x - a ≤ b - x then a else b)
  | [a] => some a
  | _ => none

def withDigits (x : ℚ) (digits : ℕ) : List ℚ :=
  (neighbours x (Int.log 10 x + 1 - digits)).filter (fun c => roundDouble c = some x)

/-- The decimal that a positive double is printed as: of those that are read as the
double again, one with the fewest digits, and of these the closest. -/
def shortest (x : ℚ) : Option ℚ :=
  if x = 0 then some 0 else ((List.range' 1 17).map (withDigits x)).findSome? (closest x)

section Rounding

variable {x y c : ℚ}

theorem roundHalfEven_error (x : ℚ) : |(roundHalfEven x : ℚ) - x| ≤ 1 / 2 := by
  have hfloor := Int.floor_le x
  have hnext := Int.lt_floor_add_one x
  rw [roundHalfEven, abs_le]
  split_ifs
  · constructor <;> linarith
  · push_cast
    constructor <;> linarith
  · constructor <;> linarith
  · push_cast
    constructor <;> linarith

theorem roundDouble_error (h : roundDouble c = some x) : |x - c| ≤ 2 ^ lastBit c / 2 := by
  simp only [roundDouble] at h
  split at h
  · cases h
    have hunit : (0 : ℚ) < 2 ^ lastBit c := by positivity
    have hscale : (roundHalfEven (c / 2 ^ lastBit c) : ℚ) * 2 ^ lastBit c - c =
        ((roundHalfEven (c / 2 ^ lastBit c) : ℚ) - c / 2 ^ lastBit c) * 2 ^ lastBit c := by
      rw [sub_mul, div_mul_cancel₀ _ hunit.ne']
    rw [hscale, abs_mul, abs_of_pos hunit]
    have herror := roundHalfEven_error (c / 2 ^ lastBit c)
    nlinarith
  · cases h

theorem lastBit_le {m : ℤ} (hm : -1021 ≤ m) (hc : 0 < c) (hlt : c < 2 ^ m) : lastBit c ≤ m - 53 := by
  apply max_le _ (by omega)
  have hlog := (Int.lt_zpow_iff_log_lt (b := 2) (by decide) hc).mp (by exact_mod_cast hlt)
  rw [abs_of_pos hc]
  omega

theorem read_error {m : ℤ} (hm : -1021 ≤ m) (hc : 0 ≤ c) (hlt : c < 2 ^ m)
    (h : roundDouble c = some x) : |x - c| ≤ 2 ^ (m - 53) / 2 := by
  obtain rfl | hpos := hc.eq_or_lt
  · have hzero : x = 0 := by
      have hread : roundDouble 0 = some 0 := by exact_mod_cast roundDouble_natCast (n := 0) (by decide)
      exact (Option.some.inj (hread.symm.trans h)).symm
    rw [hzero, sub_zero, abs_zero]
    positivity
  · apply (roundDouble_error h).trans
    apply div_le_div_of_nonneg_right _ (by norm_num)
    exact zpow_le_zpow_right₀ (by norm_num) (lastBit_le hm hpos hlt)

end Rounding

section Search

variable {x c : ℚ}

theorem closest_mem {l : List ℚ} (h : closest x l = some c) : c ∈ l := by
  unfold closest at h
  split at h
  · rename_i a b
    by_cases hab : x - a ≤ b - x
    · rw [if_pos hab] at h
      simp [Option.some.inj h]
    · rw [if_neg hab] at h
      simp [Option.some.inj h]
  · simp [Option.some.inj h]
  · cases h

theorem closest_isSome {l : List ℚ} (hne : l ≠ []) (hlen : l.length ≤ 2) : (closest x l).isSome := by
  match l with
  | [a] | [a, b] => rfl

/-- A decimal is printed if it is the only one with at most so many digits that is
read as the double. -/
theorem shortest_eq {digits : ℕ} (hx : x ≠ 0) (hpos : 1 ≤ digits) (hmax : digits ≤ 17)
    (hfound : c ∈ withDigits x digits)
    (honly : ∀ k, 1 ≤ k → k ≤ digits → ∀ d ∈ withDigits x k, d = c) : shortest x = some c := by
  have hsome : (closest x (withDigits x digits)).isSome := by
    apply closest_isSome (List.ne_nil_of_mem hfound)
    exact (List.length_filter_le _ _).trans (le_refl 2)
  obtain ⟨d, hd⟩ := Option.isSome_iff_exists.mp hsome
  -- up to these digits the search finds nothing but the decimal, and there it does
  have hsplit : List.range' 1 17 = List.range' 1 digits ++ List.range' (1 + digits) (17 - digits) := by
    rw [List.range'_append_1]
    congr 1
    omega
  have hearly : ((List.range' 1 digits).map (withDigits x)).findSome? (closest x) = some c := by
    cases hsearch : ((List.range' 1 digits).map (withDigits x)).findSome? (closest x) with
    | none =>
      have hmem : withDigits x digits ∈ (List.range' 1 digits).map (withDigits x) := by
        apply List.mem_map_of_mem
        rw [List.mem_range'_1]
        omega
      rw [List.findSome?_eq_none_iff.mp hsearch _ hmem] at hd
      cases hd
    | some d =>
      obtain ⟨l, hl, hclosest⟩ := List.exists_of_findSome?_eq_some hsearch
      obtain ⟨k, hk, rfl⟩ := List.mem_map.mp hl
      rw [List.mem_range'_1] at hk
      rw [honly k hk.1 (by omega) d (closest_mem hclosest)]
  rw [shortest, if_neg hx, hsplit, List.map_append, List.findSome?_append, hearly, Option.some_or]

end Search

section Grid

variable {x v c : ℚ} {places n : ℕ} {m : ℤ}

theorem eq_of_grid {unit : ℚ} {a b : ℤ} (hunit : 0 < unit) (h : |a * unit - b * unit| < unit) : a = b := by
  have hdiff : |((a - b : ℤ) : ℚ)| < 1 := by
    rw [← sub_mul, abs_mul, abs_of_pos hunit] at h
    push_cast
    exact (mul_lt_iff_lt_one_left hunit).mp h
  have hzero : |a - b| < 1 := by exact_mod_cast hdiff
  have heq := Int.abs_lt_one_iff.mp hzero
  omega

theorem neighbours_grid {e : ℤ} (he : -(places : ℤ) ≤ e) (hc : c ∈ neighbours x e) :
    ∃ k : ℤ, c = k * 10 ^ (-(places : ℤ)) := by
  obtain ⟨d, hd⟩ := Int.eq_ofNat_of_zero_le (show 0 ≤ e + places by omega)
  have hunit : (10 : ℚ) ^ e = 10 ^ d * 10 ^ (-(places : ℤ)) := by
    rw [← zpow_natCast, ← zpow_add₀ (by norm_num)]
    congr 1
    omega
  simp only [neighbours, List.mem_cons, List.not_mem_nil, or_false] at hc
  obtain rfl | rfl := hc
  · refine ⟨⌊x / 10 ^ e⌋ * 10 ^ d, ?_⟩
    push_cast
    rw [mul_assoc, ← hunit]
  · refine ⟨(⌊x / 10 ^ e⌋ + 1) * 10 ^ d, ?_⟩
    push_cast
    rw [mul_assoc, ← hunit]

theorem neighbours_bounds {e : ℤ} (hx : 10 ^ e ≤ x) (hc : c ∈ neighbours x e) : 0 ≤ c ∧ c ≤ 2 * x := by
  have hunit : (0 : ℚ) < 10 ^ e := by positivity
  have hfloor : (⌊x / 10 ^ e⌋ : ℚ) * 10 ^ e ≤ x := (le_div_iff₀ hunit).mp (Int.floor_le _)
  have hnonneg : (0 : ℚ) ≤ ⌊x / 10 ^ e⌋ := by
    apply Int.cast_nonneg
    apply Int.floor_nonneg.mpr
    exact div_nonneg (hunit.le.trans hx) hunit.le
  simp only [neighbours, List.mem_cons, List.not_mem_nil, or_false] at hc
  obtain rfl | rfl := hc
  · constructor
    · positivity
    · linarith
  · constructor
    · positivity
    · linarith

/-- A multiple of the unit that is closer than it is a neighbour. -/
theorem mem_neighbours {k e : ℤ} (h : |x - k * 10 ^ e| < 10 ^ e) :
    (k : ℚ) * 10 ^ e ∈ neighbours x e := by
  have hunit : (0 : ℚ) < 10 ^ e := by positivity
  obtain ⟨hlow, hhigh⟩ := abs_lt.mp h
  simp only [neighbours, List.mem_cons, List.not_mem_nil, or_false]
  by_cases hle : k * 10 ^ e ≤ x
  · left
    have hfloor : ⌊x / 10 ^ e⌋ = k := by
      apply Int.floor_eq_iff.mpr
      constructor
      · exact (le_div_iff₀ hunit).mpr hle
      · rw [div_lt_iff₀ hunit]
        linarith
    rw [hfloor]
  · right
    have hfloor : ⌊x / 10 ^ e⌋ = k - 1 := by
      apply Int.floor_eq_iff.mpr
      constructor
      · rw [le_div_iff₀ hunit]
        push_cast
        linarith
      · rw [div_lt_iff₀ hunit]
        push_cast
        linarith
    rw [hfloor]
    push_cast
    ring

/-- Where the doubles are dense enough, a number with so many decimal places is
printed as itself. -/
theorem shortest_grid (hv : v * 10 ^ places = n) (hdense : 3 * 2 ^ (m - 53) / 2 < (10 : ℚ) ^ (-(places : ℤ)))
    (hm : -1021 ≤ m) (hvm : v < 2 ^ m) (hxm : x < 2 ^ m) (hlow : 10 ^ (-(places : ℤ)) ≤ x)
    (hhigh : x < 10 ^ (17 - (places : ℤ))) (h : roundDouble v = some x) : shortest x = some v := by
  have hunit : (0 : ℚ) < 10 ^ (-(places : ℤ)) := by positivity
  have hx : 0 < x := lt_of_lt_of_le hunit hlow
  have hvunit : v = (n : ℤ) * 10 ^ (-(places : ℤ)) := by
    rw [zpow_neg, zpow_natCast, Int.cast_natCast, ← hv, mul_assoc, mul_inv_cancel₀ (by positivity), mul_one]
  have hv0 : 0 ≤ v := by
    rw [hvunit]
    positivity
  have hpow : (0 : ℚ) < 2 ^ (m - 53) := by positivity
  have herror := read_error hm hv0 hvm h
  have hlog : -(places : ℤ) ≤ Int.log 10 x :=
    (Int.zpow_le_iff_le_log (b := 10) (by decide) hx).mp (by exact_mod_cast hlow)
  have hlog' : Int.log 10 x < 17 - places :=
    (Int.lt_zpow_iff_log_lt (b := 10) (by decide) hx).mp (by exact_mod_cast hhigh)
  obtain ⟨digits, hdigits⟩ := Int.eq_ofNat_of_zero_le (show 0 ≤ Int.log 10 x + 1 + places by omega)
  have hfine : Int.log 10 x + 1 - digits = -(places : ℤ) := by omega
  refine shortest_eq hx.ne' (show 1 ≤ digits by omega) (by omega) ?_ ?_
  · apply List.mem_filter.mpr
    refine ⟨?_, by simpa using h⟩
    rw [hfine, hvunit]
    apply mem_neighbours
    rw [← hvunit]
    linarith
  · intro k hpos hk d hd
    obtain ⟨hd, hread⟩ := List.mem_filter.mp hd
    have hcoarse : (10 : ℚ) ^ (Int.log 10 x + 1 - k) ≤ x := by
      calc (10 : ℚ) ^ (Int.log 10 x + 1 - k) ≤ 10 ^ Int.log 10 x :=
            zpow_le_zpow_right₀ (by norm_num) (by omega)
        _ ≤ x := by exact_mod_cast Int.zpow_log_le_self (b := 10) (by decide) hx
    obtain ⟨hd0, hd2⟩ := neighbours_bounds hcoarse hd
    have hdm : d < 2 ^ (m + 1) := by
      rw [zpow_add_one₀ (by norm_num)]
      linarith
    have hderror := read_error (by omega) hd0 hdm (by simpa using hread)
    have hstep : (2 : ℚ) ^ (m + 1 - 53) = 2 ^ (m - 53) * 2 := by
      rw [← zpow_add_one₀ (by norm_num)]
      congr 1
      ring
    rw [hstep] at hderror
    obtain ⟨j, hj⟩ := neighbours_grid (show -(places : ℤ) ≤ Int.log 10 x + 1 - k by omega) hd
    -- both are multiples of the unit, and each is close to the double
    have hclose : |(j : ℚ) * 10 ^ (-(places : ℤ)) - (n : ℤ) * 10 ^ (-(places : ℤ))| <
        10 ^ (-(places : ℤ)) := by
      rw [← hj, ← hvunit]
      calc |d - v| ≤ |d - x| + |x - v| := abs_sub_le _ _ _
        _ < 10 ^ (-(places : ℤ)) := by
          rw [abs_sub_comm d x]
          linarith
    rw [hj, hvunit, eq_of_grid hunit hclose]

end Grid

end Bitmine.Lib.ShortestDecimal
