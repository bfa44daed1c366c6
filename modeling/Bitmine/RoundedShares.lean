import Bitmine.Apportionment

namespace Bitmine.RoundedShares

open Bitmine.Lib.Rounding Bitmine.Allocation Bitmine.Apportionment

variable {κ : Type} {total : ℤ} {items : List (WeightedItem κ)}

def roundedShare (total : ℤ) (items : List (WeightedItem κ)) (item : WeightedItem κ) : ℚ :=
  decimalRound (decimalRound (total * item.weight) / totalWeight decimalRound items)

/-- The whole units of the rounded shares do not exceed the total. -/
def Fits (total : ℤ) (items : List (WeightedItem κ)) : Prop :=
  (items.map (fun item => ⌊roundedShare total items item⌋)).sum ≤ total

theorem calculated_rounded_amount : (calculated decimalRound total items).map Calculated.amount =
    items.map (fun item => ⌊roundedShare total items item⌋) := by
  apply List.ext_getElem
  · rw [List.length_map, length_calculated, List.length_map]
  · intro i _ _
    simp [calculated, calculate, roundedShare]

theorem foldl_pos (hw : ∀ item ∈ items, 0 < item.weight) {sum : ℚ} (h : 0 < sum) :
    0 < items.foldl (fun sum item => decimalRound (sum + item.weight)) sum := by
  induction items generalizing sum with
  | nil => exact h
  | cons item items ih =>
    have hitem := hw item List.mem_cons_self
    exact ih (fun i hi => hw i (List.mem_cons_of_mem _ hi))
      (roundSig_pos (by norm_num) (by linarith))

theorem totalWeight_pos (hne : items ≠ []) (hw : ∀ item ∈ items, 0 < item.weight) :
    0 < totalWeight decimalRound items := by
  cases items with
  | nil => exact absurd rfl hne
  | cons item items =>
    rw [totalWeight, List.foldl_cons, zero_add]
    exact foldl_pos (fun i hi => hw i (List.mem_cons_of_mem _ hi))
      (roundSig_pos (by norm_num) (hw item List.mem_cons_self))

section Small

/-- Weights that are whole numbers of some decimal place, small enough for their sum. -/
structure Small (places : ℕ) (total : ℤ) (items : List (WeightedItem κ)) : Prop where
  whole : ∀ item ∈ items, ∃ n : ℕ, item.weight * 10 ^ places = n
  bound : total * (weightSum items * 10 ^ places) < 2 * 10 ^ 19

theorem weightSum_nonneg (hw : ∀ item ∈ items, 0 ≤ item.weight) : 0 ≤ weightSum items := by
  refine List.sum_nonneg (fun x hx => ?_)
  obtain ⟨item, hi, rfl⟩ := List.mem_map.mp hx
  exact hw item hi

theorem weight_le_weightSum (hw : ∀ item ∈ items, 0 ≤ item.weight) {item : WeightedItem κ}
    (hi : item ∈ items) : item.weight ≤ weightSum items := by
  refine List.single_le_sum (fun x hx => ?_) _ (List.mem_map_of_mem hi)
  obtain ⟨other, ho, rfl⟩ := List.mem_map.mp hx
  exact hw other ho

theorem weight_nonneg_of_whole {places n : ℕ} {weight : ℚ} (h : weight * 10 ^ places = n) :
    0 ≤ weight := by
  have hten : (0 : ℚ) < 10 ^ places := by positivity
  have hn : (0 : ℚ) ≤ weight * 10 ^ places := h ▸ Nat.cast_nonneg n
  exact nonneg_of_mul_nonneg_left hn hten

/-- As long as the sums stay below twenty digits none of them is rounded. -/
theorem foldl_eq {places : ℕ} (hw : ∀ item ∈ items, ∃ n : ℕ, item.weight * 10 ^ places = n)
    {sum : ℚ} {n : ℕ} (hs : sum * 10 ^ places = n)
    (hb : (sum + weightSum items) * 10 ^ places < 10 ^ 20) :
    items.foldl (fun sum item => decimalRound (sum + item.weight)) sum = sum + weightSum items := by
  induction items generalizing sum n with
  | nil => exact (add_zero sum).symm
  | cons item items ih =>
    obtain ⟨m, hm⟩ := hw item List.mem_cons_self
    have hsplit : sum + weightSum (item :: items) = sum + item.weight + weightSum items := by
      rw [weightSum, List.map_cons, List.sum_cons, weightSum, add_assoc]
    have hnext : (sum + item.weight) * 10 ^ places = ((n + m : ℕ) : ℚ) := by
      rw [add_mul, hs, hm, Nat.cast_add]
    have hrest : 0 ≤ weightSum items := weightSum_nonneg (fun i hi =>
      weight_nonneg_of_whole (hw i (List.mem_cons_of_mem _ hi)).choose_spec)
    have hten : (0 : ℚ) ≤ 10 ^ places := by positivity
    rw [hsplit] at hb ⊢
    have hlt : n + m < 10 ^ 20 := by
      have : ((n + m : ℕ) : ℚ) < 10 ^ 20 := by
        rw [← hnext]
        nlinarith
      exact_mod_cast this
    have hkeep : decimalRound (sum + item.weight) = sum + item.weight := roundSig_eq_self hnext hlt
    rw [List.foldl_cons, hkeep]
    exact ih (fun i hi => hw i (List.mem_cons_of_mem _ hi)) hnext hb

theorem floor_round_le {a A : ℕ} (hA : 0 < A) (ha : a < 2 * 10 ^ 19) :
    ⌊decimalRound ((a : ℚ) / A)⌋ ≤ ⌊(a : ℚ) / A⌋ := by
  have hA' : (0 : ℚ) < A := by exact_mod_cast hA
  have ha' : (a : ℚ) < 2 * 10 ^ 19 := by exact_mod_cast ha
  have hle : decimalRound ((a : ℚ) / A) ≤ (a : ℚ) / A + (a : ℚ) / A * 10 ^ (1 - ((20 : ℕ) : ℤ)) / 2 :=
    roundSig_le (by positivity)
  have hgap : (a : ℚ) / A + 1 / A ≤ ⌊(a : ℚ) / A⌋ + 1 := by
    rw [← add_div, div_le_iff₀ hA']
    have hlt : (a : ℚ) < (⌊(a : ℚ) / A⌋ + 1) * A := (div_lt_iff₀ hA').mp (Int.lt_floor_add_one _)
    have hint : (a : ℤ) < (⌊(a : ℚ) / A⌋ + 1) * A := by exact_mod_cast hlt
    exact_mod_cast Int.add_one_le_iff.mpr hint
  have hsmall : (a : ℚ) / A * 10 ^ (1 - ((20 : ℕ) : ℤ)) / 2 < 1 / A := by
    rw [div_mul_eq_mul_div, div_div, div_lt_div_iff₀ (by positivity) hA']
    have hpow : (a : ℚ) * 10 ^ (1 - ((20 : ℕ) : ℤ)) < 2 := by
      norm_num
      linarith
    nlinarith
  refine Int.lt_add_one_iff.mp (Int.floor_lt.mpr ?_)
  push_cast
  exact lt_of_le_of_lt hle (by linarith)

theorem weightSum_whole {places : ℕ} (hw : ∀ item ∈ items, ∃ n : ℕ, item.weight * 10 ^ places = n) :
    ∃ n : ℕ, weightSum items * 10 ^ places = n := by
  induction items with
  | nil => exact ⟨0, by simp [weightSum]⟩
  | cons item items ih =>
    obtain ⟨m, hm⟩ := hw item List.mem_cons_self
    obtain ⟨n, hn⟩ := ih (fun i hi => hw i (List.mem_cons_of_mem _ hi))
    refine ⟨m + n, ?_⟩
    rw [weightSum, List.map_cons, List.sum_cons, add_mul, hm, ← weightSum, hn, Nat.cast_add]

/-- The whole units of a share are those of the exact share. -/
theorem Small.floor_le {places : ℕ} (h : Small places total items) (ht : 0 < total)
    {item : WeightedItem κ} (hi : item ∈ items) (hpos : 0 < item.weight) :
    ⌊roundedShare total items item⌋ ≤ ⌊exactShare total items item⌋ := by
  obtain ⟨k, rfl⟩ := Int.eq_ofNat_of_zero_le ht.le
  obtain ⟨n, hn⟩ := h.whole item hi
  obtain ⟨N, hN⟩ := weightSum_whole h.whole
  have hten : (0 : ℚ) < 10 ^ places := by positivity
  have hk : 1 ≤ k := by omega
  have hle : item.weight ≤ weightSum items := weight_le_weightSum
    (fun i hi => weight_nonneg_of_whole (h.whole i hi).choose_spec) hi
  have hnN : n ≤ N := by
    have : (n : ℚ) ≤ N := by
      rw [← hn, ← hN]
      exact mul_le_mul_of_nonneg_right hle hten.le
    exact_mod_cast this
  have hN0 : 0 < N := by
    have : (0 : ℚ) < N := by
      rw [← hN]
      exact mul_pos (lt_of_lt_of_le hpos hle) hten
    exact_mod_cast this
  have hkN : k * N < 2 * 10 ^ 19 := by
    have hb := h.bound
    rw [hN] at hb
    exact_mod_cast hb
  have hkn : k * n ≤ k * N := Nat.mul_le_mul_left k hnN
  have hNle : N ≤ k * N := Nat.le_mul_of_pos_left N hk
  have htotal : totalWeight decimalRound items = 0 + weightSum items := by
    apply foldl_eq h.whole (n := 0) (by simp)
    rw [zero_add, hN]
    exact_mod_cast show N < 10 ^ 20 by omega
  have hwhole : ((k : ℤ) : ℚ) * item.weight * 10 ^ places = ((k * n : ℕ) : ℚ) := by
    rw [mul_assoc, hn]
    push_cast
    rfl
  have hproduct : decimalRound (((k : ℤ) : ℚ) * item.weight) = ((k : ℤ) : ℚ) * item.weight :=
    roundSig_eq_self hwhole (by omega)
  have hshare : ((k : ℤ) : ℚ) * item.weight / weightSum items = ((k * n : ℕ) : ℚ) / N := by
    rw [← hN, Nat.cast_mul, ← hn, ← mul_assoc]
    exact (mul_div_mul_right _ _ hten.ne').symm
  rw [roundedShare, exactShare, htotal, zero_add, hproduct, hshare]
  exact floor_round_le hN0 (by omega)

theorem Small.fits {places : ℕ} (h : Small places total items) (ht : 0 ≤ total)
    (hw : ∀ item ∈ items, 0 < item.weight) : Fits total items := by
  obtain rfl | hpos := ht.eq_or_lt
  · have hzero : ∀ item ∈ items, ⌊roundedShare 0 items item⌋ = 0 := by
      intro item _
      simp [roundedShare, decimalRound, roundSig_zero]
    rw [Fits, List.map_congr_left hzero]
    simp
  · by_cases hne : items = []
    · subst hne
      exact ht
    · have hsum : 0 < weightSum items := by
        obtain ⟨item, hi⟩ := List.exists_mem_of_ne_nil items hne
        exact lt_of_lt_of_le (hw item hi) (weight_le_weightSum (fun i hi => (hw i hi).le) hi)
      obtain ⟨hle, _⟩ := sum_floor_bounds (exactShare total items) hne
      rw [sum_exactShare hsum.ne'] at hle
      refine le_trans (List.sum_le_sum (fun item hi => ?_)) (Int.cast_le.mp hle)
      exact h.floor_le hpos hi (hw item hi)

end Small

/-- With twenty significant digits the apportionment keeps the total exactly
when the whole units of the rounded shares fit into it, and they do while the total
times the sum of the weights, both as whole numbers, stays below 2·10¹⁹. -/
theorem conserves_iff_fits (ht : 0 ≤ total)
    (hne : items ≠ []) (hw : ∀ item ∈ items, 0 < item.weight) :
    (Conserves decimalRound total items ↔ Fits total items) ∧
      ∀ places, Small places total items → Fits total items := by
  refine ⟨?_, fun _ hsmall => hsmall.fits ht hw⟩
  rw [conserves_iff decimalRound_nonneg ht hne (fun item hi => (hw item hi).le)
    (totalWeight_pos hne hw), calculated_rounded_amount]
  exact Iff.rfl

section Sample

theorem sampleItems_pos : ∀ item ∈ sampleItems, 0 < item.weight := by
  intro item hi
  fin_cases hi <;> norm_num

theorem sampleItems_small : Small 0 101 sampleItems := by
  refine ⟨fun item hi => ⟨1, ?_⟩, ?_⟩
  · fin_cases hi <;> norm_num
  · norm_num [weightSum, sampleItems]

theorem conserves_iff_fits_sample : Conserves decimalRound 101 sampleItems := by
  obtain ⟨hiff, hfits⟩ := @conserves_iff_fits String 101 sampleItems (by norm_num)
    (by simp [sampleItems]) sampleItems_pos
  exact hiff.mpr (hfits 0 sampleItems_small)

def driftItems : List (WeightedItem String) :=
  [⟨"a", 10 ^ 20⟩, ⟨"b", 34⟩, ⟨"c", 34⟩, ⟨"d", 34⟩, ⟨"e", 34⟩]

theorem totalWeight_driftItems : totalWeight decimalRound driftItems = 10 ^ 20 + 120 := by
  have hadd : ∀ k : ℕ, k < 4 → decimalRound (10 ^ 20 + 30 * k + 34) = 10 ^ 20 + 30 * (k + 1) := by
    intro k hk
    refine (roundSig_eq_div (e := 20) (n := 10 ^ 19 + 3 * (k + 1)) ?_ ?_ ?_ ?_).trans ?_
    all_goals interval_cases k <;> norm_num
  have hfirst : decimalRound (0 + 10 ^ 20) = 10 ^ 20 :=
    (roundSig_eq_div (e := 20) (n := 10 ^ 19) (by norm_num) (by norm_num) (by norm_num)
      (by norm_num)).trans (by norm_num)
  have h0 := hadd 0 (by omega)
  have h1 := hadd 1 (by omega)
  have h2 := hadd 2 (by omega)
  have h3 := hadd 3 (by omega)
  norm_num at hfirst h0 h1 h2 h3
  simp only [totalWeight, driftItems, List.foldl_cons, List.foldl_nil]
  norm_num [hfirst, h0, h1, h2, h3]

theorem share_heavy : ⌊roundedShare (9 * 10 ^ 18) driftItems ⟨"a", 10 ^ 20⟩⌋ = 9 * 10 ^ 18 - 11 := by
  have hproduct : decimalRound (((9 * 10 ^ 18 : ℤ) : ℚ) * 10 ^ 20) = 9 * 10 ^ 38 :=
    (roundSig_eq_div (e := 38) (n := 9 * 10 ^ 19) (by norm_num) (by norm_num) (by norm_num)
      (by norm_num)).trans (by norm_num)
  have hquotient : decimalRound (9 * 10 ^ 38 / (10 ^ 20 + 120)) = 89999999999999999892 / 10 :=
    (roundSig_eq_div (e := 18) (n := 89999999999999999892) (by norm_num) (by norm_num)
      (by norm_num) (by norm_num)).trans (by norm_num)
  rw [roundedShare, hproduct, totalWeight_driftItems, hquotient]
  norm_num [Int.floor_eq_iff]

theorem share_light (key : String) :
    ⌊roundedShare (9 * 10 ^ 18) driftItems ⟨key, 34⟩⌋ = 3 := by
  have hproduct : decimalRound (((9 * 10 ^ 18 : ℤ) : ℚ) * 34) = 306 * 10 ^ 18 :=
    (roundSig_eq_div (e := 20) (n := 306 * 10 ^ 17) (by norm_num) (by norm_num) (by norm_num)
      (by norm_num)).trans (by norm_num)
  have hquotient : decimalRound (306 * 10 ^ 18 / (10 ^ 20 + 120)) =
      30599999999999999963 / 10 ^ 19 :=
    (roundSig_eq_div (e := 0) (n := 30599999999999999963) (by norm_num) (by norm_num)
      (by norm_num) (by norm_num)).trans (by norm_num)
  rw [roundedShare, hproduct, totalWeight_driftItems, hquotient]
  norm_num [Int.floor_eq_iff]

/-- The shares of the light items still count the units that the running sum has
lost, so one unit more than the total is handed out. -/
theorem rounded_sum_overspends : ¬ ∀ (total : ℤ) (items : List (WeightedItem String)), 0 ≤ total →
    items ≠ [] → (∀ item ∈ items, 0 < item.weight) → Conserves decimalRound total items := by
  intro h
  have hw : ∀ item ∈ driftItems, 0 < item.weight := by
    intro item hi
    fin_cases hi <;> norm_num
  have hc := h (9 * 10 ^ 18) driftItems (by norm_num) (by simp [driftItems]) hw
  have hle := (conserves_iff decimalRound_nonneg (by norm_num) (by simp [driftItems])
    (fun item hi => (hw item hi).le) (totalWeight_pos (by simp [driftItems]) hw)).mp hc
  rw [calculated_rounded_amount] at hle
  simp only [driftItems, List.map_cons, List.map_nil, List.sum_cons, List.sum_nil] at hle
  rw [← driftItems, share_heavy, share_light, share_light, share_light, share_light] at hle
  norm_num at hle

end Sample

end Bitmine.RoundedShares
