import Mathlib

namespace Bitmine.Lib.Numeral

def digitsValue (cs : List Char) : ℕ := Nat.ofDigitChars 10 cs 0

def fractionValue (cs : List Char) : ℚ := digitsValue cs / 10 ^ cs.length

def point (whole fraction : List Char) : List Char :=
  whole ++ if fraction = [] then [] else '.' :: fraction

/-- A decimal numeral without a sign. With `bare` the digits before a point may be missing. -/
def readMagnitude (bare : Bool) (cs : List Char) : Option ℚ :=
  let whole := cs.takeWhile (· ≠ '.')
  match cs.dropWhile (· ≠ '.') with
  | [] => if whole ≠ [] ∧ whole.all Char.isDigit then some (digitsValue whole) else none
  | _ :: fraction =>
    if (bare = true ∨ whole ≠ []) ∧ fraction ≠ [] ∧ (whole ++ fraction).all Char.isDigit then
      some (digitsValue whole + fractionValue fraction)
    else none

def readSigned (bare : Bool) : List Char → Option ℚ
  | '-' :: cs => (readMagnitude bare cs).map (fun x => -x)
  | cs => readMagnitude bare cs

def truncatePlaces (places : ℕ) (x : ℚ) : ℚ :=
  ((if 0 ≤ x then ⌊x * 10 ^ places⌋ else ⌈x * 10 ^ places⌉ : ℤ) : ℚ) / 10 ^ places

section Values

variable {xs ys : List Char} {c : Char}

theorem digitsValue_append (xs ys : List Char) :
    digitsValue (xs ++ ys) = digitsValue xs * 10 ^ ys.length + digitsValue ys := by
  rw [digitsValue, Nat.ofDigitChars_append, Nat.ofDigitChars_eq_ofDigitChars_zero, Nat.mul_comm]
  rfl

theorem digitsValue_toDigits (n : ℕ) : digitsValue (Nat.toDigits 10 n) = n :=
  Nat.ofDigitChars_ten_toDigits

theorem digitsValue_zeros (n : ℕ) : digitsValue (List.replicate n '0') = 0 := by
  rw [digitsValue, Nat.ofDigitChars_replicate_zero, Nat.mul_zero]

theorem digitsValue_lt (h : ∀ c ∈ xs, c.isDigit = true) : digitsValue xs < 10 ^ xs.length := by
  induction xs using List.reverseRecOn with
  | nil => simp [digitsValue]
  | append_singleton xs c ih =>
    have hxs := ih (fun d hd => h d (by simp [hd]))
    have hc : digitsValue [c] ≤ 9 := by
      have hdigit := h c (by simp)
      simp only [Char.isDigit, Bool.and_eq_true, decide_eq_true_eq, UInt32.le_iff_toNat_le] at hdigit
      have h9 : ('9' : Char).val.toNat = 57 := rfl
      have hval : c.toNat = c.val.toNat := rfl
      simp only [digitsValue, Nat.ofDigitChars_cons, Nat.ofDigitChars_nil]
      have h0 : '0'.toNat = 48 := rfl
      omega
    rw [digitsValue_append, List.length_append, List.length_singleton, pow_one, pow_succ]
    omega

theorem digitsValue_append_div (h : ∀ c ∈ ys, c.isDigit = true) :
    digitsValue (xs ++ ys) / 10 ^ ys.length = digitsValue xs := by
  rw [digitsValue_append, Nat.add_comm, Nat.add_mul_div_right _ _ (by positivity),
    Nat.div_eq_of_lt (digitsValue_lt h), Nat.zero_add]

theorem fractionValue_append_zeros (xs : List Char) (n : ℕ) :
    fractionValue (xs ++ List.replicate n '0') = fractionValue xs := by
  have hn : ((10 : ℚ) ^ n) ≠ 0 := by positivity
  have hx : ((10 : ℚ) ^ xs.length) ≠ 0 := by positivity
  simp only [fractionValue, digitsValue_append, digitsValue_zeros, List.length_append,
    List.length_replicate, pow_add, Nat.add_zero, Nat.cast_mul, Nat.cast_pow, Nat.cast_ofNat]
  field_simp

end Values

section Zeros

theorem rdropWhile_zeros (cs : List Char) :
    ∃ n, cs = cs.rdropWhile (· = '0') ++ List.replicate n '0' := by
  induction cs using List.reverseRecOn with
  | nil => exact ⟨0, rfl⟩
  | append_singleton cs c ih =>
    by_cases hc : c = '0'
    · obtain ⟨n, hn⟩ := ih
      refine ⟨n + 1, ?_⟩
      rw [List.rdropWhile_concat, if_pos (by simpa using hc), List.replicate_succ',
        ← List.append_assoc, ← hn, hc]
    · exact ⟨0, by rw [List.rdropWhile_concat, if_neg (by simpa using hc), List.replicate_zero,
        List.append_nil]⟩

theorem rdropWhile_append_of_not {c : Char} (hc : c ≠ '0') (xs ys : List Char) :
    ∃ zs, (xs ++ c :: ys).rdropWhile (· = '0') = xs ++ c :: zs := by
  induction ys using List.reverseRecOn with
  | nil => exact ⟨[], by rw [List.rdropWhile_concat, if_neg (by simpa using hc)]⟩
  | append_singleton ys d ih =>
    have hassoc : xs ++ c :: (ys ++ [d]) = (xs ++ c :: ys) ++ [d] := by simp
    rw [hassoc]
    by_cases hd : d = '0'
    · rw [List.rdropWhile_concat, if_pos (by simpa using hd)]
      exact ih
    · rw [List.rdropWhile_concat, if_neg (by simpa using hd), ← hassoc]
      exact ⟨ys ++ [d], rfl⟩

end Zeros

section Reading

variable {bare : Bool} {whole fraction : List Char}

/-- Where no point stands in the first part, a numeral is read in its two parts. -/
theorem readMagnitude_point (hwhole : ∀ c ∈ whole, c ≠ '.') :
    readMagnitude bare (point whole fraction) =
      if (whole ≠ [] ∨ (bare = true ∧ fraction ≠ [])) ∧ (whole ++ fraction).all Char.isDigit then
        some (digitsValue whole + fractionValue fraction)
      else none := by
  have hall : ∀ c ∈ whole, decide (c ≠ '.') = true := fun c hc => by simp [hwhole c hc]
  by_cases hempty : fraction = []
  · subst hempty
    have htake : whole.takeWhile (· ≠ '.') = whole := List.takeWhile_eq_self_iff.mpr hall
    have hdrop : whole.dropWhile (· ≠ '.') = [] := List.dropWhile_eq_nil_iff.mpr hall
    have hzero : fractionValue [] = 0 := by simp [fractionValue, digitsValue]
    simp only [point, if_true, List.append_nil, readMagnitude, htake, hdrop, ne_eq,
      not_true_eq_false, and_false, or_false, hzero, add_zero]
  · have htake : (whole ++ '.' :: fraction).takeWhile (· ≠ '.') = whole := by
      rw [List.takeWhile_append_of_pos hall]
      simp
    have hdrop : (whole ++ '.' :: fraction).dropWhile (· ≠ '.') = '.' :: fraction := by
      rw [List.dropWhile_append_of_pos hall]
      simp
    have hread : readMagnitude bare (point whole fraction) =
        if (bare = true ∨ whole ≠ []) ∧ fraction ≠ [] ∧ (whole ++ fraction).all Char.isDigit then
          some (digitsValue whole + fractionValue fraction)
        else none := by
      rw [point, if_neg hempty]
      simp only [readMagnitude]
      rw [htake, hdrop]
    rw [hread]
    apply if_congr _ rfl rfl
    tauto

theorem readSigned_of_unsigned {cs : List Char} (h : ∀ c, cs.head? = some c → c ≠ '-') :
    readSigned bare cs = readMagnitude bare cs := by
  match cs with
  | [] => rfl
  | c :: cs =>
    have hc := h c rfl
    unfold readSigned
    split
    · rename_i heq
      cases heq
      exact absurd rfl hc
    · rfl

end Reading

/-- Cutting a quotient of whole numbers is division towards zero. -/
theorem truncatePlaces_div (places more : ℕ) (n : ℤ) :
    truncatePlaces places ((n : ℚ) / 10 ^ (places + more)) =
      ((n.tdiv (10 ^ more) : ℤ) : ℚ) / 10 ^ places := by
  have hscaled : (n : ℚ) / 10 ^ (places + more) * 10 ^ places = (n : ℚ) / ((10 ^ more : ℕ) : ℚ) := by
    have hp : ((10 : ℚ) ^ places) ≠ 0 := by positivity
    have hm : ((10 : ℚ) ^ more) ≠ 0 := by positivity
    rw [pow_add]
    push_cast
    field_simp
  have hsign : 0 ≤ (n : ℚ) / 10 ^ (places + more) ↔ 0 ≤ n := by
    rw [le_div_iff₀ (by positivity), zero_mul, Int.cast_nonneg_iff]
  have hpow : ((10 : ℤ) ^ more) = ((10 ^ more : ℕ) : ℤ) := by push_cast; rfl
  rw [truncatePlaces, hscaled, hpow]
  by_cases hn : 0 ≤ n
  · rw [if_pos (hsign.mpr hn), Rat.floor_intCast_div_natCast, Int.tdiv_eq_ediv_of_nonneg hn]
  · rw [if_neg (fun h => hn (hsign.mp h)), Rat.ceil_intCast_div_natCast]
    have hneg : n.tdiv ((10 ^ more : ℕ) : ℤ) = -((-n) / ((10 ^ more : ℕ) : ℤ)) := by
      rw [← Int.tdiv_eq_ediv_of_nonneg (by omega), Int.neg_tdiv, neg_neg]
    rw [hneg]

end Bitmine.Lib.Numeral
