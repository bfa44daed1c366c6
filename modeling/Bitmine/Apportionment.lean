import Bitmine.Allocation

namespace Bitmine.Apportionment

open Bitmine.Lib.Rounding Bitmine.Allocation

variable {κ : Type}

section Loop

def bump (c : Calculated κ) : Calculated κ := { c with amount := c.amount + 1 }

theorem sum_modify {l : List (Calculated κ)} {i : ℕ} (h : i < l.length) :
    ((l.modify i bump).map Calculated.amount).sum = (l.map Calculated.amount).sum + 1 := by
  induction l generalizing i with
  | nil => cases h
  | cons c l ih =>
    cases i with
    | zero =>
      simp only [List.modify_zero_cons, List.map_cons, List.sum_cons, bump]
      ring
    | succ i =>
      have hi : i < l.length := by simpa using h
      simp only [List.modify_succ_cons, List.map_cons, List.sum_cons, ih hi]
      ring

theorem topUp_sum {missing index : ℕ} {l : List (Calculated κ)} (h : index < l.length) :
    ((topUp missing index l).map Calculated.amount).sum =
      (l.map Calculated.amount).sum + missing := by
  induction missing generalizing index l with
  | zero => simp [topUp]
  | succ n ih =>
    have hlt : (index + 1) % l.length < (l.modify index bump).length := by
      rw [List.length_modify]
      exact Nat.mod_lt _ (by omega)
    have hn := ih hlt
    rw [sum_modify h] at hn
    rw [topUp]
    apply hn.trans
    push_cast
    ring

theorem topUp_append {missing : ℕ} {done l : List (Calculated κ)} (h : missing ≤ l.length) :
    topUp missing done.length (done ++ l) = done ++ ((l.take missing).map bump ++ l.drop missing) := by
  induction missing generalizing done l with
  | zero => simp [topUp]
  | succ n ih =>
    cases l with
    | nil => cases h
    | cons c l =>
      have hn : n ≤ l.length := by simpa using h
      have hmodify : (done ++ c :: l).modify done.length bump = (done ++ [bump c]) ++ l := by
        rw [List.modify_eq_take_cons_drop (by simp)]
        simp
      have hnext : topUp n ((done.length + 1) % (done ++ c :: l).length) ((done ++ [bump c]) ++ l) =
          topUp n (done ++ [bump c]).length ((done ++ [bump c]) ++ l) := by
        by_cases h0 : n = 0
        · subst h0
          rfl
        · congr 1
          rw [List.length_append, List.length_append, List.length_cons, List.length_singleton]
          exact Nat.mod_eq_of_lt (by omega)
      rw [topUp]
      refine (congrArg _ hmodify).trans (hnext.trans ?_)
      rw [ih hn]
      simp

end Loop

section Result

variable (round : ℚ → ℚ) (total : ℤ) (items : List (WeightedItem κ))

def calculated : List (Calculated κ) :=
  items.mapIdx (calculate round total (totalWeight round items))

def missing : ℤ := total - ((calculated round total items).map Calculated.amount).sum

def sorted : List (Calculated κ) := (calculated round total items).insertionSort before

def toppedUp : List (Calculated κ) :=
  topUp (missing round total items).toNat 0 (sorted round total items)

def byIndex (a b : Calculated κ) : Prop := a.index ≤ b.index

instance : DecidableRel (byIndex (κ := κ)) := fun a b => inferInstanceAs (Decidable (a.index ≤ b.index))

instance : Std.Total (byIndex (κ := κ)) := ⟨fun a b => le_total a.index b.index⟩

instance : IsTrans (Calculated κ) byIndex := ⟨fun _ _ _ h h' => le_trans h h'⟩

instance : Std.Total (before (κ := κ)) := by
  refine ⟨fun a b => ?_⟩
  obtain h | h | h := lt_trichotomy a.remainder b.remainder
  · exact .inr (.inl h)
  · exact (le_total a.index b.index).imp (fun hi => .inr ⟨h, hi⟩) (fun hi => .inr ⟨h.symm, hi⟩)
  · exact .inl (.inl h)

instance : IsTrans (Calculated κ) before := by
  refine ⟨fun a b c hab hbc => ?_⟩
  obtain h | ⟨h, hi⟩ := hab
  · obtain h' | ⟨h', _⟩ := hbc
    · exact .inl (h'.trans h)
    · exact .inl (h' ▸ h)
  · obtain h' | ⟨h', hi'⟩ := hbc
    · exact .inl (h ▸ h')
    · exact .inr ⟨h.trans h', hi.trans hi'⟩

def allocated (c : Calculated κ) : AllocatedItem κ := ⟨c.key, c.amount⟩

variable {round total items}

theorem largestRemainder_eq (ht : 0 ≤ total) (hne : items ≠ []) (hw : 0 < totalWeight round items) :
    largestRemainder round total items =
      .ok (((toppedUp round total items).insertionSort byIndex).map allocated) := by
  have hempty : ¬ items.isEmpty = true := fun h => hne (List.isEmpty_iff.mp h)
  rw [largestRemainder, if_neg (not_lt.mpr ht), if_neg hempty]
  exact if_neg (not_le.mpr hw)

theorem length_calculated : (calculated round total items).length = items.length :=
  List.length_mapIdx

theorem length_sorted : (sorted round total items).length = items.length := by
  rw [sorted, List.length_insertionSort, length_calculated]

theorem sorted_perm : (sorted round total items).Perm (calculated round total items) :=
  List.perm_insertionSort before _

theorem toppedUp_sum (hne : items ≠ []) :
    ((toppedUp round total items).map Calculated.amount).sum =
      ((calculated round total items).map Calculated.amount).sum +
        (missing round total items).toNat := by
  have hpos : 0 < (sorted round total items).length := by
    rw [length_sorted]
    exact List.length_pos_iff.mpr hne
  rw [toppedUp, topUp_sum hpos, (sorted_perm.map Calculated.amount).sum_eq]

theorem result_sum (hne : items ≠ []) :
    ((((toppedUp round total items).insertionSort byIndex).map allocated).map
      AllocatedItem.amount).sum =
      max total ((calculated round total items).map Calculated.amount).sum := by
  have hperm := ((List.perm_insertionSort byIndex (toppedUp round total items)).map
    Calculated.amount).sum_eq
  rw [List.map_map]
  refine hperm.trans ((toppedUp_sum hne).trans ?_)
  rw [missing]
  omega

/-- The apportionment returns amounts that are never negative and add up to the total. -/
def Conserves (round : ℚ → ℚ) (total : ℤ) (items : List (WeightedItem κ)) : Prop :=
  ∃ result, largestRemainder round total items = .ok result ∧ (∀ a ∈ result, 0 ≤ a.amount) ∧
    (result.map AllocatedItem.amount).sum = total

/-- The loop only ever adds units, so what counts is that the whole units of the
shares do not exceed the total already. -/
theorem conserves_iff {round : ℚ → ℚ} (hr : ∀ x, 0 ≤ x → 0 ≤ round x) (ht : 0 ≤ total)
    (hne : items ≠ []) (hw : ∀ item ∈ items, 0 ≤ item.weight) (hpos : 0 < totalWeight round items) :
    Conserves round total items ↔
      ((calculated round total items).map Calculated.amount).sum ≤ total := by
  have hrun := largestRemainder_eq ht hne hpos
  have hsum : ((((toppedUp round total items).insertionSort byIndex).map allocated).map
      AllocatedItem.amount).sum =
        max total ((calculated round total items).map Calculated.amount).sum := result_sum hne
  constructor
  · rintro ⟨result, hok, _, htotal⟩
    rw [hrun] at hok
    cases hok
    omega
  · intro hle
    refine ⟨_, hrun, (largestRemainder_ok hr hw hrun).2, ?_⟩
    omega

end Result

section Winners

variable (round : ℚ → ℚ) (total : ℤ) (items : List (WeightedItem κ))

def winners : Finset ℕ :=
  (((sorted round total items).take (missing round total items).toNat).map
    Calculated.index).toFinset

def award (c : Calculated κ) : Calculated κ :=
  if c.index ∈ winners round total items then bump c else c

variable {round total items}

theorem award_index (c : Calculated κ) : (award round total items c).index = c.index := by
  rw [award]
  split <;> rfl

theorem calculated_index : (calculated round total items).map Calculated.index =
    List.range items.length := by
  apply List.ext_getElem
  · rw [List.length_map, length_calculated, List.length_range]
  · intro i _ _
    simp [calculated, calculate]

theorem sorted_index_nodup : ((sorted round total items).map Calculated.index).Nodup := by
  rw [(sorted_perm.map Calculated.index).nodup_iff, calculated_index]
  exact List.nodup_range

theorem award_front {c : Calculated κ} (hc : c ∈ (sorted round total items).take
    (missing round total items).toNat) : award round total items c = bump c :=
  if_pos (List.mem_toFinset.mpr (List.mem_map_of_mem hc))

theorem award_rest {c : Calculated κ} (hc : c ∈ (sorted round total items).drop
    (missing round total items).toNat) : award round total items c = c := by
  refine if_neg (fun hw => ?_)
  have hnodup : ((sorted round total items).map Calculated.index).Nodup := sorted_index_nodup
  rw [← List.take_append_drop (missing round total items).toNat (sorted round total items),
    List.map_append] at hnodup
  exact List.disjoint_of_nodup_append hnodup (List.mem_toFinset.mp hw) (List.mem_map_of_mem hc)

theorem toppedUp_eq (h : (missing round total items).toNat ≤ items.length) :
    toppedUp round total items = (sorted round total items).map (award round total items) := by
  have hlen : (missing round total items).toNat ≤ (sorted round total items).length := by
    rwa [length_sorted]
  have hloop := @topUp_append κ _ [] _ hlen
  rw [List.length_nil, List.nil_append, List.nil_append] at hloop
  have hrest : ((sorted round total items).drop (missing round total items).toNat).map
      (award round total items) =
        (sorted round total items).drop (missing round total items).toNat := by
    rw [List.map_congr_left (fun _ hc => award_rest hc), List.map_id']
  rw [toppedUp, hloop, ← List.map_congr_left (fun _ hc => award_front hc), ← hrest,
    ← List.map_append, List.take_append_drop]

theorem restored (h : (missing round total items).toNat ≤ items.length) :
    (toppedUp round total items).insertionSort byIndex =
      (calculated round total items).map (award round total items) := by
  have hindex : ((calculated round total items).map (award round total items)).map
      Calculated.index = List.range items.length := by
    rw [List.map_map]
    exact (List.map_congr_left (fun c _ => award_index c)).trans calculated_index
  have hperm : ((toppedUp round total items).insertionSort byIndex).Perm
      ((calculated round total items).map (award round total items)) := by
    rw [toppedUp_eq h]
    exact (List.perm_insertionSort byIndex _).trans (sorted_perm.map (award round total items))
  have hsorted : ((calculated round total items).map (award round total items)).Pairwise byIndex := by
    have hle : (List.range items.length).Pairwise (· ≤ ·) := List.pairwise_le_range
    rw [← hindex, List.pairwise_map] at hle
    exact hle
  refine hperm.eq_of_pairwise (fun a b ha hb hab hba => ?_)
    (List.pairwise_insertionSort byIndex _) hsorted
  have hinj := List.inj_on_of_nodup_map (hindex ▸ List.nodup_range)
  exact hinj (hperm.mem_iff.mp ha) hb (le_antisymm hab hba)

end Winners

section Exact

variable (total : ℤ) (items : List (WeightedItem κ))

def weightSum : ℚ := (items.map WeightedItem.weight).sum

def exactShare (item : WeightedItem κ) : ℚ := total * item.weight / weightSum items

/-- The method of the largest remainder: each item gets the whole units of its
share, and the units still missing go to the largest fractional parts, the
earlier item first, one unit each. -/
structure ByLargestRemainder (result : List (AllocatedItem κ)) (winners : Finset ℕ) : Prop where
  length : result.length = items.length
  units : ∀ i item, items[i]? = some item → result[i]? = some (AllocatedItem.mk item.key
    (⌊exactShare total items item⌋ + if i ∈ winners then 1 else 0))
  positions : ∀ i ∈ winners, i < items.length
  count : (winners.card : ℤ) = total - (items.map (fun item => ⌊exactShare total items item⌋)).sum
  largest : ∀ i j item other, items[i]? = some item → items[j]? = some other → i ∈ winners →
    j ∉ winners → Int.fract (exactShare total items other) < Int.fract (exactShare total items item) ∨
      (Int.fract (exactShare total items item) = Int.fract (exactShare total items other) ∧ i < j)

variable {total items}

theorem totalWeight_id : totalWeight id items = weightSum items := by
  have hfold : ∀ sum : ℚ, items.foldl (fun sum item => id (sum + item.weight)) sum =
      sum + weightSum items := by
    induction items with
    | nil => exact fun sum => (add_zero sum).symm
    | cons item items ih =>
      intro sum
      rw [List.foldl_cons, ih, weightSum, weightSum, List.map_cons, List.sum_cons, id, add_assoc]
  rw [totalWeight, hfold, zero_add]

theorem sum_exactShare (hw : weightSum items ≠ 0) :
    (items.map (exactShare total items)).sum = total := by
  have hshare : exactShare total items =
      fun item => total / weightSum items * item.weight := by
    funext item
    rw [exactShare, div_mul_eq_mul_div]
  rw [hshare, List.sum_map_mul_left]
  exact div_mul_cancel₀ _ hw

theorem sum_floor_bounds {α : Type} (f : α → ℚ) {l : List α} (hl : l ≠ []) :
    ((l.map (fun x => ⌊f x⌋)).sum : ℚ) ≤ (l.map f).sum ∧
      (l.map f).sum < (l.map (fun x => ⌊f x⌋)).sum + l.length := by
  induction l with
  | nil => exact absurd rfl hl
  | cons x l ih =>
    have hfloor := Int.floor_le (f x)
    have hlt := Int.lt_floor_add_one (f x)
    simp only [List.map_cons, List.sum_cons, List.length_cons, Int.cast_add, Nat.cast_add,
      Nat.cast_one]
    by_cases h : l = []
    · subst h
      simp only [List.map_nil, List.sum_nil, List.length_nil, Int.cast_zero, Nat.cast_zero]
      constructor <;> linarith
    · obtain ⟨hle, hlt'⟩ := ih h
      constructor <;> linarith

theorem calculated_exact_amount : (calculated id total items).map Calculated.amount =
    items.map (fun item => ⌊exactShare total items item⌋) := by
  apply List.ext_getElem
  · rw [List.length_map, length_calculated, List.length_map]
  · intro i _ _
    simp [calculated, calculate, totalWeight_id, exactShare]

theorem missing_bounds (hne : items ≠ []) (hw : weightSum items ≠ 0) :
    0 ≤ missing id total items ∧ missing id total items < items.length := by
  obtain ⟨hle, hlt⟩ := sum_floor_bounds (exactShare total items) hne
  rw [sum_exactShare hw] at hle hlt
  have hle' := Int.cast_le.mp hle
  have hlt' : total < (items.map (fun item => ⌊exactShare total items item⌋)).sum + items.length := by
    exact_mod_cast hlt
  rw [missing, calculated_exact_amount]
  omega

theorem calculated_getElem? (i : ℕ) : (calculated id total items)[i]? =
    items[i]?.map (fun item => Calculated.mk item.key ⌊exactShare total items item⌋
      (Int.fract (exactShare total items item)) i) := by
  rw [calculated, List.getElem?_mapIdx]
  congr 1
  funext item
  simp only [calculate, totalWeight_id, id, exactShare, Int.fract]

theorem mem_winners {i : ℕ} : i ∈ winners id total items ↔
    ∃ c ∈ (sorted id total items).take (missing id total items).toNat, c.index = i := by
  rw [winners, List.mem_toFinset, List.mem_map]

theorem card_winners (h : (missing id total items).toNat ≤ items.length) :
    (winners id total items).card = (missing id total items).toNat := by
  have hnodup : (((sorted id total items).take (missing id total items).toNat).map
      Calculated.index).Nodup :=
    sorted_index_nodup.sublist ((List.take_sublist _ _).map Calculated.index)
  rw [winners, List.toFinset_card_of_nodup hnodup, List.length_map, List.length_take, length_sorted]
  exact min_eq_left h

theorem winners_before {c d : Calculated κ} (hc : c ∈ calculated id total items)
    (hd : d ∈ calculated id total items) (hwin : c.index ∈ winners id total items)
    (hlose : d.index ∉ winners id total items) : before c d := by
  have hnodup : ((sorted id total items).map Calculated.index).Nodup := sorted_index_nodup
  have hinj := List.inj_on_of_nodup_map hnodup
  obtain ⟨c', hfront, hindex⟩ := mem_winners.mp hwin
  have hcc : c' = c := hinj (List.mem_of_mem_take hfront) (sorted_perm.mem_iff.mpr hc) hindex
  have hrest : d ∈ (sorted id total items).drop (missing id total items).toNat := by
    have hmem := sorted_perm.mem_iff.mpr hd
    rw [← List.take_append_drop (missing id total items).toNat (sorted id total items),
      List.mem_append] at hmem
    exact hmem.resolve_left (fun ht => hlose (mem_winners.mpr ⟨d, ht, rfl⟩))
  have hpair : (sorted id total items).Pairwise before := List.pairwise_insertionSort before _
  rw [← List.take_append_drop (missing id total items).toNat (sorted id total items),
    List.pairwise_append] at hpair
  exact hcc ▸ hpair.2.2 c' hfront d hrest

theorem byLargestRemainder (hne : items ≠ []) (hw : weightSum items ≠ 0) :
    ByLargestRemainder total items
      (((toppedUp id total items).insertionSort byIndex).map allocated) (winners id total items) := by
  obtain ⟨hnonneg, hlt⟩ : 0 ≤ missing id total items ∧ missing id total items < items.length :=
    missing_bounds hne hw
  have hle : (missing id total items).toNat ≤ items.length := by omega
  have hmem : ∀ {i : ℕ} {item : WeightedItem κ}, items[i]? = some item →
      Calculated.mk item.key ⌊exactShare total items item⌋
        (Int.fract (exactShare total items item)) i ∈ calculated id total items := by
    intro i item hi
    apply List.mem_of_getElem? (i := i)
    rw [calculated_getElem?, hi, Option.map_some]
  rw [restored hle]
  refine ⟨?_, ?_, ?_, ?_, ?_⟩
  · rw [List.length_map, List.length_map, length_calculated]
  · intro i item hi
    rw [List.getElem?_map, List.getElem?_map, calculated_getElem?, hi]
    simp only [Option.map_some, award, Option.some.injEq]
    split
    · rfl
    · rw [add_zero]
      rfl
  · intro i hi
    obtain ⟨c, hc, rfl⟩ := mem_winners.mp hi
    have hrange := List.mem_map_of_mem (f := Calculated.index)
      (sorted_perm.mem_iff.mp (List.mem_of_mem_take hc))
    rw [calculated_index] at hrange
    exact List.mem_range.mp hrange
  · rw [card_winners hle, ← calculated_exact_amount]
    exact Int.toNat_of_nonneg hnonneg
  · intro i j item other hi hj hwin hlose
    obtain h | ⟨h, hij⟩ := winners_before (hmem hi) (hmem hj) hwin hlose
    · exact .inl h
    · exact .inr ⟨h, lt_of_le_of_ne hij (fun he => hlose (he ▸ hwin))⟩

theorem ByLargestRemainder.keys {result : List (AllocatedItem κ)} {winners : Finset ℕ}
    (h : ByLargestRemainder total items result winners) :
    result.map AllocatedItem.key = items.map WeightedItem.key := by
  apply List.ext_getElem?
  intro i
  rw [List.getElem?_map, List.getElem?_map]
  by_cases hi : i < items.length
  · rw [h.units i _ (List.getElem?_eq_getElem hi), List.getElem?_eq_getElem hi]
    rfl
  · have hlength : result.length ≤ i := by
      rw [h.length]
      omega
    rw [List.getElem?_eq_none hlength, List.getElem?_eq_none (not_lt.mp hi)]
    rfl

/-- A heavier item never gets less. -/
theorem ByLargestRemainder.monotone {result : List (AllocatedItem κ)} {winners : Finset ℕ}
    (h : ByLargestRemainder total items result winners) (ht : 0 ≤ total)
    (hw : 0 < weightSum items) {i j : ℕ} {item other : WeightedItem κ} {a b : AllocatedItem κ}
    (hi : items[i]? = some item) (hj : items[j]? = some other) (ha : result[i]? = some a)
    (hb : result[j]? = some b) (hlt : other.weight < item.weight) : b.amount ≤ a.amount := by
  have ha' := Option.some.inj (ha.symm.trans (h.units i item hi))
  have hb' := Option.some.inj (hb.symm.trans (h.units j other hj))
  have htotal : (0 : ℚ) ≤ total := Int.cast_nonneg ht
  have hshare : exactShare total items other ≤ exactShare total items item :=
    div_le_div_of_nonneg_right (mul_le_mul_of_nonneg_left hlt.le htotal) hw.le
  have hfloor : ⌊exactShare total items other⌋ ≤ ⌊exactShare total items item⌋ :=
    Int.floor_le_floor hshare
  rw [ha', hb']
  dsimp only
  by_cases hlose : j ∈ winners ∧ i ∉ winners
  · obtain ⟨hjwin, hilose⟩ := hlose
    rw [if_pos hjwin, if_neg hilose]
    -- with equal whole units the heavier item has the larger fractional part
    by_contra hcon
    have heq : ⌊exactShare total items other⌋ = ⌊exactShare total items item⌋ := by omega
    have hfract : Int.fract (exactShare total items other) ≤
        Int.fract (exactShare total items item) := by
      rw [Int.fract, Int.fract, heq]
      exact sub_le_sub_right hshare _
    obtain hbad | ⟨hsame, _⟩ := h.largest j i other item hj hi hjwin hilose
    · exact absurd hfract (not_le.mpr hbad)
    · have hzero : total = 0 := by
        by_contra hne
        have hpos : (0 : ℚ) < total := lt_of_le_of_ne htotal (fun he => hne (by exact_mod_cast he.symm))
        have hstrict : exactShare total items other < exactShare total items item :=
          div_lt_div_of_pos_right (mul_lt_mul_of_pos_left hlt hpos) hw
        rw [Int.fract, Int.fract, heq] at hsame
        linarith
      have hcard := h.count
      simp only [exactShare, hzero, Int.cast_zero, zero_mul, zero_div, Int.floor_zero, sub_zero,
        List.map_const', List.sum_replicate, smul_zero, Nat.cast_eq_zero, Finset.card_eq_zero] at hcard
      rw [hcard] at hjwin
      exact absurd hjwin (Finset.notMem_empty j)
  · rw [not_and_or, not_not] at hlose
    split <;> split <;> simp_all
    omega

/-- Over exact arithmetic the apportionment is the method of the largest
remainder: amounts in the order of the input that add up to the total, each the
whole units of its share and at most one of the missing units. -/
theorem largestRemainder_exact {total : ℤ} {items : List (WeightedItem κ)} (ht : 0 ≤ total)
    (hpos : 0 < weightSum items) :
    ∃ result winners, largestRemainder id total items = .ok result ∧
      ByLargestRemainder total items result winners ∧
      result.map AllocatedItem.key = items.map WeightedItem.key ∧
      (result.map AllocatedItem.amount).sum = total ∧
      (∀ (i j : ℕ) (item other : WeightedItem κ) (a b : AllocatedItem κ), items[i]? = some item →
        items[j]? = some other → result[i]? = some a → result[j]? = some b →
        other.weight < item.weight → b.amount ≤ a.amount) ∧
      0 ≤ missing id total items ∧ missing id total items < items.length := by
  have hne : items ≠ [] := by
    rintro rfl
    exact lt_irrefl _ hpos
  have h : ByLargestRemainder total items _ _ := byLargestRemainder hne hpos.ne'
  obtain ⟨hnonneg, hlt⟩ : 0 ≤ missing id total items ∧ missing id total items < items.length :=
    missing_bounds hne hpos.ne'
  have hweight : 0 < totalWeight id items := by rwa [totalWeight_id]
  refine ⟨_, _, largestRemainder_eq ht hne hweight, h, h.keys, ?_, ?_, hnonneg, hlt⟩
  · rw [result_sum hne]
    rw [missing] at hnonneg
    omega
  · exact fun i j item other a b hi hj ha hb hlt => h.monotone ht hpos hi hj ha hb hlt

def sampleItems : List (WeightedItem String) := [⟨"a", 1⟩, ⟨"b", 1⟩, ⟨"c", 1⟩]

theorem largestRemainder_exact_sample : ∃ result winners,
    largestRemainder id 101 sampleItems = .ok result ∧
      ByLargestRemainder 101 sampleItems result winners ∧
      (result.map AllocatedItem.amount).sum = 101 := by
  obtain ⟨result, winners, hok, h, _, hsum, _⟩ := @largestRemainder_exact String 101 sampleItems
    (by norm_num) (by norm_num [weightSum, sampleItems])
  exact ⟨result, winners, hok, h, hsum⟩

end Exact

end Bitmine.Apportionment
