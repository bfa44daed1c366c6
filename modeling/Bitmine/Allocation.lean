import Bitmine.Lib.Rounding

namespace Bitmine.Allocation

open Bitmine.Lib.Rounding

/-- The library's default configuration keeps twenty significant digits. The
values are rationals; only the results of operations are rounded. -/
def decimalRound : ℚ → ℚ := roundSig 20

structure WeightedItem (κ : Type) where
  key : κ
  weight : ℚ

structure AllocatedItem (κ : Type) where
  key : κ
  amount : ℤ

structure Calculated (κ : Type) where
  key : κ
  amount : ℤ
  remainder : ℚ
  index : ℕ

variable {κ : Type}

section Algorithm

variable (round : ℚ → ℚ)

def totalWeight (items : List (WeightedItem κ)) : ℚ :=
  items.foldl (fun sum item => round (sum + item.weight)) 0

def calculate (total : ℤ) (weight : ℚ) (index : ℕ) (item : WeightedItem κ) : Calculated κ :=
  let exact := round (round (total * item.weight) / weight)
  ⟨item.key, ⌊exact⌋, round (exact - ⌊exact⌋), index⟩

/-- Larger remainders first, ties by position. -/
def before (a b : Calculated κ) : Prop :=
  b.remainder < a.remainder ∨ (a.remainder = b.remainder ∧ a.index ≤ b.index)

instance (a b : Calculated κ) : Decidable (before a b) := inferInstanceAs (Decidable (_ ∨ _))

def topUp : ℕ → ℕ → List (Calculated κ) → List (Calculated κ)
  | 0, _, calculated => calculated
  | missing + 1, index, calculated =>
    topUp missing ((index + 1) % calculated.length)
      (calculated.modify index (fun c => { c with amount := c.amount + 1 }))

def largestRemainder (total : ℤ) (items : List (WeightedItem κ)) :
    Except String (List (AllocatedItem κ)) :=
  if total < 0 then .error "Total cannot be negative"
  else if items.isEmpty then .ok []
  else
    let weight := totalWeight round items
    if weight ≤ 0 then .error "Allocation weight must be positive"
    else
      let calculated := items.mapIdx (calculate round total weight)
      let missing := total - (calculated.map Calculated.amount).sum
      let sorted := topUp missing.toNat 0 (calculated.insertionSort before)
      .ok ((sorted.insertionSort (fun a b => a.index ≤ b.index)).map (fun c => ⟨c.key, c.amount⟩))

end Algorithm

structure Split where
  customer : ℤ
  operator : ℤ

def splitBasisPoints (total customerBps : ℤ) : Except String Split :=
  if customerBps < 0 ∨ 10000 < customerBps then
    .error "customerBps must be an integer between 0 and 10000"
  else
    let customer := (total * customerBps).tdiv 10000
    .ok ⟨customer, total - customer⟩

theorem map_modify_key (l : List (Calculated κ)) (i : ℕ) (f : Calculated κ → Calculated κ)
    (hf : ∀ c, (f c).key = c.key) :
    (l.modify i f).map Calculated.key = l.map Calculated.key := by
  induction l generalizing i with
  | nil => simp
  | cons c l ih => cases i <;> simp [hf, ih]

theorem topUp_keys (missing index : ℕ) (l : List (Calculated κ)) :
    (topUp missing index l).map Calculated.key = l.map Calculated.key := by
  induction missing generalizing index l with
  | zero => rfl
  | succ n ih =>
    rw [topUp, ih]
    exact map_modify_key l index _ (fun _ => rfl)

theorem modify_nonneg (l : List (Calculated κ)) (i : ℕ) (h : ∀ c ∈ l, 0 ≤ c.amount) :
    ∀ c ∈ l.modify i (fun c => { c with amount := c.amount + 1 }), 0 ≤ c.amount := by
  induction l generalizing i with
  | nil => simp
  | cons d l ih =>
    have hd := h d (by simp)
    have hl : ∀ c ∈ l, 0 ≤ c.amount := fun c hc => h c (by simp [hc])
    cases i with
    | zero =>
      intro c hc
      rcases List.mem_cons.mp (by simpa using hc) with rfl | hc
      · show 0 ≤ d.amount + 1
        omega
      · exact hl c hc
    | succ i =>
      intro c hc
      rcases List.mem_cons.mp (by simpa using hc) with rfl | hc
      · exact hd
      · exact ih i hl c hc

theorem topUp_nonneg (missing index : ℕ) (l : List (Calculated κ)) (h : ∀ c ∈ l, 0 ≤ c.amount) :
    ∀ c ∈ topUp missing index l, 0 ≤ c.amount := by
  induction missing generalizing index l with
  | zero => exact h
  | succ n ih => exact ih _ _ (modify_nonneg l index h)

theorem calculate_nonneg {round : ℚ → ℚ} (hr : ∀ x, 0 ≤ x → 0 ≤ round x) {total : ℤ}
    (ht : 0 ≤ total) {weight : ℚ} (hw : 0 < weight) (index : ℕ) (item : WeightedItem κ)
    (hi : 0 ≤ item.weight) : 0 ≤ (calculate round total weight index item).amount := by
  have hp : 0 ≤ round (total * item.weight) :=
    hr _ (mul_nonneg (Int.cast_nonneg ht) hi)
  exact Int.floor_nonneg.mpr (hr _ (div_nonneg hp hw.le))

theorem mapIdx_calculate_keys (round : ℚ → ℚ) (total : ℤ) (weight : ℚ)
    (items : List (WeightedItem κ)) :
    (items.mapIdx (calculate round total weight)).map Calculated.key =
      items.map WeightedItem.key := by
  apply List.ext_getElem
  · simp
  · intro i _ _
    simp [calculate]

/-- What a successful apportionment returns: the same keys, and amounts that
are never negative as long as rounding keeps non-negative values so. -/
theorem largestRemainder_ok {round : ℚ → ℚ} (hr : ∀ x, 0 ≤ x → 0 ≤ round x) {total : ℤ}
    {items : List (WeightedItem κ)} (hw : ∀ i ∈ items, 0 ≤ i.weight)
    {result : List (AllocatedItem κ)} (h : largestRemainder round total items = .ok result) :
    (result.map AllocatedItem.key).Perm (items.map WeightedItem.key) ∧
      ∀ a ∈ result, 0 ≤ a.amount := by
  rw [largestRemainder] at h
  split at h
  · cases h
  rename_i htotal
  split at h
  · rename_i he
    cases h
    simp [List.isEmpty_iff.mp he]
  dsimp only at h
  split at h
  · cases h
  rename_i hweight
  cases h
  refine ⟨?_, ?_⟩
  · rw [List.map_map]
    refine (((List.perm_insertionSort _ _).map Calculated.key).trans ?_)
    rw [topUp_keys]
    apply ((List.perm_insertionSort _ _).map Calculated.key).trans
    rw [mapIdx_calculate_keys]
  · intro a ha
    obtain ⟨c, hc, rfl⟩ := List.mem_map.mp ha
    rw [List.mem_insertionSort] at hc
    refine topUp_nonneg _ _ _ (fun d hd => ?_) c hc
    rw [List.mem_insertionSort, List.mem_mapIdx] at hd
    obtain ⟨i, hi, rfl⟩ := hd
    exact calculate_nonneg hr (not_lt.mp htotal) (not_le.mp hweight) i _ (hw _ (List.getElem_mem hi))

theorem decimalRound_nonneg (x : ℚ) (h : 0 ≤ x) : 0 ≤ decimalRound x := roundSig_nonneg 20 h

theorem splitBasisPoints_ok {total customerBps : ℤ} {s : Split}
    (h : splitBasisPoints total customerBps = .ok s) :
    0 ≤ customerBps ∧ customerBps ≤ 10000 ∧ s.customer = (total * customerBps).tdiv 10000 ∧
      s.customer + s.operator = total := by
  rw [splitBasisPoints] at h
  split at h
  · cases h
  · rename_i hb
    cases h
    exact ⟨by omega, by omega, rfl, by simp⟩

theorem splitBasisPoints_nonneg {total customerBps : ℤ} (ht : 0 ≤ total) {s : Split}
    (h : splitBasisPoints total customerBps = .ok s) :
    0 ≤ s.customer ∧ 0 ≤ s.operator ∧ s.customer = total * customerBps / 10000 := by
  obtain ⟨h0, h1, hc, hs⟩ := splitBasisPoints_ok h
  have hp : 0 ≤ total * customerBps := mul_nonneg ht h0
  have hd : s.customer = total * customerBps / 10000 := by
    rw [hc, Int.tdiv_eq_ediv_of_nonneg hp]
  have hle : total * customerBps ≤ total * 10000 := mul_le_mul_of_nonneg_left h1 ht
  refine ⟨?_, ?_, hd⟩ <;> omega

end Bitmine.Allocation
