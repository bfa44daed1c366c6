import Bitmine.Lib.Numeral
import Bitmine.Schema

namespace Bitmine.DisplayedMoney

open Bitmine.Lib.Numeral Bitmine.Schema

def decimals : AssetCode → ℕ
  | .btc => 8
  | .xmr => 12

def code : AssetCode → String
  | .btc => "BTC"
  | .xmr => "XMR"

def padStart (width : ℕ) (fill : Char) (cs : List Char) : List Char :=
  List.replicate (width - cs.length) fill ++ cs

def numeral (amount : ℤ) (decimals : ℕ) : List Char :=
  let raw := padStart (decimals + 1) '0' (toString amount).toList
  let whole := raw.take (raw.length - decimals)
  let fraction := ((raw.drop (raw.length - decimals)).rdropWhile (· = '0')).take 8
  point whole fraction

def formatAtomic (amount : ℤ) (asset : AssetCode) : String :=
  String.ofList (numeral amount (decimals asset)) ++ " " ++ code asset

def worth (amount : ℤ) : AssetCode → ℚ
  | .btc => amount / 10 ^ 8
  | .xmr => truncatePlaces 8 (amount / 10 ^ 12)

/-- The text is a numeral for the amount's worth, then the asset's code. With `bare` a
numeral may begin with its point. -/
def Faithful (bare : Bool) (amount : ℤ) (asset : AssetCode) : Prop :=
  ∃ text, formatAtomic amount asset = text ++ " " ++ code asset ∧
    readSigned bare text.toList = some (worth amount asset)

section Digits

variable {bare : Bool} {more : ℕ} {front back : List Char}

theorem not_point_of_digits {cs : List Char} (h : ∀ c ∈ cs, c.isDigit = true) : ∀ c ∈ cs, c ≠ '.' := by
  rintro c hc rfl
  exact absurd (h '.' hc) (by decide)

/-- The fraction that is left when zeros are stripped and eight digits are taken. -/
theorem fractionValue_cut (h : ∀ c ∈ back, c.isDigit = true) (hlen : back.length = 8 + more) :
    (∀ c ∈ (back.rdropWhile (· = '0')).take 8, c.isDigit = true) ∧
      fractionValue ((back.rdropWhile (· = '0')).take 8) =
        ((digitsValue back / 10 ^ more : ℕ) : ℚ) / 10 ^ 8 := by
  obtain ⟨n, hn⟩ := rdropWhile_zeros back
  generalize back.rdropWhile (· = '0') = kept at hn
  refine ⟨fun c hc => h c ?_, ?_⟩
  · rw [hn]
    exact List.mem_append_left _ (List.mem_of_mem_take hc)
  · have htaken : back.take 8 =
        kept.take 8 ++ List.replicate (min (8 - kept.length) n) '0' := by
      rw [hn, List.take_append, List.take_replicate]
    have hlen8 : (back.take 8).length = 8 := by
      rw [List.length_take, hlen]
      omega
    have hrest : (back.drop 8).length = more := by
      rw [List.length_drop, hlen]
      omega
    have hdiv := @digitsValue_append_div (back.take 8) (back.drop 8)
      (fun c hc => h c (List.mem_of_mem_drop hc))
    rw [List.take_append_drop, hrest] at hdiv
    rw [hdiv, ← fractionValue_append_zeros, ← htaken, fractionValue, hlen8]

/-- Digits that are cut before the last decimals are read as their number of the
eighth decimals. -/
theorem readMagnitude_cut (hfront : ∀ c ∈ front, c.isDigit = true)
    (hback : ∀ c ∈ back, c.isDigit = true) (hlen : back.length = 8 + more)
    (hstart : front ≠ [] ∨ (bare = true ∧ (back.rdropWhile (· = '0')).take 8 ≠ [])) :
    readMagnitude bare (point front ((back.rdropWhile (· = '0')).take 8)) =
      some (((digitsValue (front ++ back) / 10 ^ more : ℕ) : ℚ) / 10 ^ 8) := by
  obtain ⟨hdigits, hfraction⟩ := fractionValue_cut hback hlen
  have hall : (front ++ (back.rdropWhile (· = '0')).take 8).all Char.isDigit = true := by
    rw [List.all_append, Bool.and_eq_true, List.all_eq_true, List.all_eq_true]
    exact ⟨hfront, hdigits⟩
  rw [readMagnitude_point (not_point_of_digits hfront), if_pos ⟨hstart, hall⟩, hfraction,
    digitsValue_append, hlen]
  have hsplit : (digitsValue front * 10 ^ (8 + more) + digitsValue back) / 10 ^ more =
      digitsValue front * 10 ^ 8 + digitsValue back / 10 ^ more := by
    rw [pow_add, ← mul_assoc, Nat.add_comm, Nat.add_mul_div_right _ _ (by positivity), Nat.add_comm]
  rw [hsplit]
  congr 1
  push_cast
  ring

end Digits

section Amounts

variable {bare : Bool} {more : ℕ} {amount : ℤ}

theorem toDigits_digit {n : ℕ} : ∀ c ∈ Nat.toDigits 10 n, c.isDigit = true := fun _ hc =>
  Nat.isDigit_of_mem_toDigits (by decide) (by decide) hc

theorem toString_nonneg (h : 0 ≤ amount) :
    (toString amount).toList = Nat.toDigits 10 amount.natAbs := by
  rw [Int.toString_eq_repr, Int.repr_eq_if, if_pos h, Nat.toList_repr]
  congr 1
  omega

theorem toString_neg (h : amount < 0) :
    (toString amount).toList = '-' :: Nat.toDigits 10 amount.natAbs := by
  have habs : (-amount).toNat = amount.natAbs := by omega
  rw [Int.toString_eq_repr, Int.repr_eq_if, if_neg (by omega), String.toList_append, Nat.toList_repr,
    habs]
  rfl

theorem numeral_eq {front back : List Char} {decimals : ℕ}
    (h : padStart (decimals + 1) '0' (toString amount).toList = front ++ back)
    (hlen : back.length = decimals) :
    numeral amount decimals = point front ((back.rdropWhile (· = '0')).take 8) := by
  have hwhole : (front ++ back).length - decimals = front.length := by
    rw [List.length_append]
    omega
  simp only [numeral, h, hwhole, List.take_left', List.drop_left']

theorem reads_nonneg (h : 0 ≤ amount) : readSigned bare (numeral amount (8 + more)) =
    some (((amount.tdiv (10 ^ more) : ℤ) : ℚ) / 10 ^ 8) := by
  let digits := Nat.toDigits 10 amount.natAbs
  let raw := padStart (8 + more + 1) '0' digits
  have hraw : ∀ c ∈ raw, c.isDigit = true := by
    intro c hc
    obtain hc | hc := List.mem_append.mp hc
    · rw [List.eq_of_mem_replicate hc]
      decide
    · exact toDigits_digit c hc
  have hlen : 8 + more + 1 ≤ raw.length := by
    simp only [raw, padStart, List.length_append, List.length_replicate]
    omega
  let front := raw.take (raw.length - (8 + more))
  let back := raw.drop (raw.length - (8 + more))
  have hsplit : raw = front ++ back := (List.take_append_drop _ raw).symm
  have hback : back.length = 8 + more := by
    simp only [back, List.length_drop]
    omega
  have hfront : front ≠ [] := by
    apply List.ne_nil_of_length_pos
    simp only [front, List.length_take]
    omega
  have hdigits : ∀ c ∈ front, c.isDigit = true := fun c hc => hraw c (List.mem_of_mem_take hc)
  have hvalue : digitsValue (front ++ back) = amount.natAbs := by
    rw [← hsplit]
    simp only [raw, padStart, digitsValue_append, digitsValue_zeros, zero_mul, zero_add, digits,
      digitsValue_toDigits]
  rw [numeral_eq (by rw [toString_nonneg h]; exact hsplit) hback, readSigned_of_unsigned,
    readMagnitude_cut hdigits (fun c hc => hraw c (List.mem_of_mem_drop hc)) hback (.inl hfront), hvalue]
  · have hdiv : amount.tdiv (10 ^ more) = ((amount.natAbs / 10 ^ more : ℕ) : ℤ) := by
      rw [Int.tdiv_eq_ediv_of_nonneg h]
      push_cast
      rw [abs_of_nonneg h]
    rw [hdiv, Int.cast_natCast]
  · intro c hc
    rw [point, List.head?_append_of_ne_nil _ hfront] at hc
    rintro rfl
    exact absurd (hdigits '-' (List.mem_of_mem_head? hc)) (by decide)

/-- A negative amount of at least so many digits keeps its sign in front. -/
theorem reads_neg_long (h : amount < 0) (hlen : 8 + more ≤ (Nat.toDigits 10 amount.natAbs).length) :
    readSigned bare (numeral amount (8 + more)) = some (((amount.tdiv (10 ^ more) : ℤ) : ℚ) / 10 ^ 8) ↔
      bare = true ∨ 8 + more < (Nat.toDigits 10 amount.natAbs).length := by
  let digits := Nat.toDigits 10 amount.natAbs
  let front := digits.take (digits.length - (8 + more))
  let back := digits.drop (digits.length - (8 + more))
  have hsplit : front ++ back = digits := List.take_append_drop _ digits
  have hback : back.length = 8 + more := by
    simp only [back, List.length_drop, digits]
    omega
  have hfront : front ≠ [] ↔ 8 + more < digits.length := by
    rw [← List.length_pos_iff, List.length_take]
    omega
  have hdigit : ∀ c ∈ front ++ back, c.isDigit = true := by
    rw [hsplit]
    exact toDigits_digit
  have hnumeral : numeral amount (8 + more) =
      '-' :: point front ((back.rdropWhile (· = '0')).take 8) := by
    have hpad : padStart (8 + more + 1) '0' (toString amount).toList = ('-' :: front) ++ back := by
      rw [toString_neg h, List.cons_append, hsplit, padStart, List.length_cons,
        Nat.sub_eq_zero_of_le (by omega)]
      rfl
    rw [numeral_eq hpad hback, point, List.cons_append]
    rfl
  have hkept : front = [] → (back.rdropWhile (· = '0')).take 8 ≠ [] := by
    intro hnil hempty
    have hzeros : back.rdropWhile (· = '0') = [] := by
      simpa using hempty
    obtain ⟨n, hn⟩ := rdropWhile_zeros back
    have hzero : digitsValue digits = 0 := by
      rw [← hsplit, hnil, List.nil_append, hn, hzeros, List.nil_append, digitsValue_zeros]
    rw [digitsValue_toDigits] at hzero
    omega
  rw [hnumeral, readSigned]
  by_cases hstart : bare = true ∨ 8 + more < digits.length
  · have hstart' : front ≠ [] ∨ (bare = true ∧ (back.rdropWhile (· = '0')).take 8 ≠ []) := by
      by_cases hnil : front = []
      · exact .inr ⟨hstart.resolve_right (fun hlong => hfront.mpr hlong hnil), hkept hnil⟩
      · exact .inl hnil
    rw [readMagnitude_cut (fun c hc => hdigit c (List.mem_append_left _ hc))
      (fun c hc => hdigit c (List.mem_append_right _ hc)) hback hstart', hsplit, digitsValue_toDigits]
    have hdiv : amount.tdiv (10 ^ more) = -((amount.natAbs / 10 ^ more : ℕ) : ℤ) := by
      have hneg : (-amount).tdiv (10 ^ more) = ((amount.natAbs / 10 ^ more : ℕ) : ℤ) := by
        rw [Int.tdiv_eq_ediv_of_nonneg (by omega)]
        push_cast
        rw [abs_of_neg h]
      rw [← hneg, Int.neg_tdiv, neg_neg]
    refine iff_of_true ?_ hstart
    rw [hdiv, Option.map_some, Int.cast_neg, Int.cast_natCast, neg_div]
  · have hnil : front = [] := by
      by_contra hne
      exact hstart (.inr (hfront.mp hne))
    have hnone : ¬ ((front ≠ [] ∨ (bare = true ∧ (back.rdropWhile (· = '0')).take 8 ≠ [])) ∧
        (front ++ (back.rdropWhile (· = '0')).take 8).all Char.isDigit) := by
      rintro ⟨hne | ⟨hbare, _⟩, _⟩
      · exact hne hnil
      · exact hstart (.inl hbare)
    rw [readMagnitude_point (by rw [hnil]; exact fun c hc => by cases hc), if_neg hnone]
    exact iff_of_false (by simp) hstart

/-- Of fewer digits the zeros come before the sign: nothing can be read, unless the sign
stands behind the eighth decimal and is cut off. -/
theorem reads_neg_short (h : amount < 0)
    (hlen : (Nat.toDigits 10 amount.natAbs).length < 8 + more) :
    readSigned bare (numeral amount (8 + more)) = some (((amount.tdiv (10 ^ more) : ℤ) : ℚ) / 10 ^ 8) ↔
      (Nat.toDigits 10 amount.natAbs).length < more := by
  let digits := Nat.toDigits 10 amount.natAbs
  let zeros := 8 + more - 1 - digits.length
  let back := List.replicate zeros '0' ++ '-' :: digits
  have hback : back.length = 8 + more := by
    simp only [back, zeros, List.length_append, List.length_replicate, List.length_cons, digits]
    omega
  have hpad : padStart (8 + more + 1) '0' (toString amount).toList = ['0'] ++ back := by
    have hzeros : 8 + more + 1 - (digits.length + 1) = zeros + 1 := by
      simp only [zeros, digits]
      omega
    rw [toString_neg h, padStart, List.length_cons, hzeros, List.replicate_succ]
    rfl
  obtain ⟨rest, hrest⟩ := rdropWhile_append_of_not (c := '-') (by decide) (List.replicate zeros '0') digits
  have hnumeral : numeral amount (8 + more) =
      point ['0'] ((List.replicate zeros '0' ++ '-' :: rest).take 8) := by
    rw [numeral_eq hpad hback, hrest]
  rw [hnumeral, readSigned_of_unsigned (by rintro c hc rfl; simp [point] at hc),
    readMagnitude_point (by simp)]
  by_cases hcut : digits.length < more
  · have htake : (List.replicate zeros '0' ++ '-' :: rest).take 8 = List.replicate 8 '0' := by
      rw [List.take_append_of_le_length, List.take_replicate, min_eq_left]
      · simp only [zeros]
        omega
      · simp only [zeros, List.length_replicate]
        omega
    have hsmall : amount.natAbs < 10 ^ more := by
      by_cases hmore : more = 0
      · omega
      · exact (Nat.length_toDigits_le_iff (by decide) (by omega)).mp hcut.le
    have hzero : amount.tdiv (10 ^ more) = 0 := by
      apply Int.natAbs_eq_zero.mp
      rw [Int.natAbs_tdiv, Int.natAbs_pow]
      exact Nat.div_eq_of_lt hsmall
    rw [htake, hzero]
    refine iff_of_true ?_ hcut
    rw [if_pos ⟨.inl (List.cons_ne_nil _ _), by decide⟩]
    have hvalue : digitsValue ['0'] = 0 := digitsValue_zeros 1
    rw [hvalue, fractionValue, digitsValue_zeros]
    simp
  · have hdash : '-' ∈ (List.replicate zeros '0' ++ '-' :: rest).take 8 := by
      rw [List.take_append]
      apply List.mem_append_right
      have hpos : ∃ k, 8 - (List.replicate zeros '0').length = k + 1 := by
        refine ⟨7 - zeros, ?_⟩
        rw [List.length_replicate]
        simp only [zeros]
        omega
      obtain ⟨k, hk⟩ := hpos
      rw [hk, List.take_succ_cons]
      exact List.mem_cons_self
    refine iff_of_false ?_ hcut
    rw [if_neg]
    · simp
    · rintro ⟨_, hall⟩
      rw [List.all_eq_true] at hall
      exact absurd (hall '-' (List.mem_append_right _ hdash)) (by decide)

/-- Read as a numeral, the text in front of the code is worth the amount exactly when
no zeros were put before its sign, or the sign was cut off with digits that do not count. -/
theorem reads_iff : readSigned bare (numeral amount (8 + more)) =
      some (((amount.tdiv (10 ^ more) : ℤ) : ℚ) / 10 ^ 8) ↔
    0 ≤ amount ∨ 10 ^ (8 + more - bare.toNat) ≤ amount.natAbs ∨ amount.natAbs < 10 ^ (more - 1) := by
  by_cases hsign : 0 ≤ amount
  · exact iff_of_true (reads_nonneg hsign) (.inl hsign)
  have hneg : amount < 0 := not_le.mp hsign
  have hlength : ∀ k, 0 < k → ((Nat.toDigits 10 amount.natAbs).length ≤ k ↔ amount.natAbs < 10 ^ k) :=
    fun k hk => Nat.length_toDigits_le_iff (by decide) hk
  have hpos : 0 < (Nat.toDigits 10 amount.natAbs).length := Nat.length_toDigits_pos
  have hsmaller : (10 : ℕ) ^ (more - 1) ≤ 10 ^ (8 + more - bare.toNat) := by
    apply Nat.pow_le_pow_right (by decide)
    cases bare <;> simp only [Bool.toNat_true, Bool.toNat_false] <;> omega
  rw [or_iff_right hsign]
  by_cases hlen : 8 + more ≤ (Nat.toDigits 10 amount.natAbs).length
  · rw [reads_neg_long hneg hlen]
    have hbelow : ¬ amount.natAbs < 10 ^ (8 + more - 1) := by
      rw [← hlength (8 + more - 1) (by omega)]
      omega
    have htiny : ¬ amount.natAbs < 10 ^ (more - 1) := fun h =>
      hbelow (h.trans_le (Nat.pow_le_pow_right (by decide) (by omega)))
    rw [or_iff_left htiny]
    cases bare with
    | true => exact iff_of_true (.inl rfl) (not_lt.mp hbelow)
    | false =>
      have hfull := hlength (8 + more) (by omega)
      simp only [Bool.false_eq_true, false_or, Bool.toNat_false, Nat.sub_zero]
      omega
  · rw [reads_neg_short hneg (by omega)]
    have hbelow : amount.natAbs < 10 ^ (8 + more - 1) :=
      (hlength (8 + more - 1) (by omega)).mp (by omega)
    have hbelow' : ¬ 10 ^ (8 + more - bare.toNat) ≤ amount.natAbs := by
      apply not_le.mpr
      apply hbelow.trans_le
      apply Nat.pow_le_pow_right (by decide)
      cases bare <;> simp
    rw [or_iff_right hbelow']
    by_cases hmore : more ≤ 1
    · have hone : (10 : ℕ) ^ (more - 1) = 1 := by rw [Nat.sub_eq_zero_of_le hmore, pow_zero]
      rw [hone]
      omega
    · rw [← hlength (more - 1) (by omega)]
      omega

end Amounts

theorem worth_eq (amount : ℤ) (asset : AssetCode) :
    worth amount asset = ((amount.tdiv (10 ^ (decimals asset - 8)) : ℤ) : ℚ) / 10 ^ 8 := by
  cases asset with
  | btc => rw [worth, decimals, Nat.sub_self, pow_zero, Int.tdiv_one]
  | xmr => exact truncatePlaces_div 8 4 amount

theorem faithful_iff_reads {bare : Bool} {amount : ℤ} {asset : AssetCode} :
    Faithful bare amount asset ↔
      readSigned bare (numeral amount (decimals asset)) = some (worth amount asset) := by
  constructor
  · rintro ⟨text, htext, hread⟩
    have hsame : String.ofList (numeral amount (decimals asset)) = text := by
      rw [formatAtomic, String.append_assoc, String.append_assoc] at htext
      exact (String.append_left_inj _).mp htext
    rwa [← hsame, String.toList_ofList] at hread
  · intro h
    exact ⟨_, rfl, by rwa [String.toList_ofList]⟩

/-- Negative amounts below one unit are displayed with their sign among the digits. -/
theorem formatAtomic_faithful_iff (bare : Bool) (amount : ℤ) (asset : AssetCode) :
    Faithful bare amount asset ↔
      0 ≤ amount ∨ 10 ^ (decimals asset - bare.toNat) ≤ amount.natAbs ∨
        amount.natAbs < 10 ^ (decimals asset - 9) := by
  rw [faithful_iff_reads, worth_eq]
  have hdecimals : decimals asset = 8 + (decimals asset - 8) := by cases asset <;> rfl
  have hnine : decimals asset - 9 = decimals asset - 8 - 1 := by omega
  rw [hnine, hdecimals, Nat.add_sub_cancel_left]
  exact reads_iff

example : formatAtomic (-50000000) .btc = "-.5 BTC" := by decide

/-- Five satoshi less than nothing. -/
theorem negative_amount_garbled : formatAtomic (-5) .btc = "0.000000-5 BTC" ∧
    ∀ bare, ¬ Faithful bare (-5) .btc := by
  refine ⟨by decide, fun bare h => ?_⟩
  rw [faithful_iff_reads] at h
  have hnone : readSigned bare (numeral (-5) (decimals .btc)) = none := by
    cases bare <;> decide
  rw [hnone] at h
  cases h

end Bitmine.DisplayedMoney
