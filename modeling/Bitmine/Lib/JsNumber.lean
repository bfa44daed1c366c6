import Mathlib

namespace Bitmine.Lib.JsNumber

def digitValue (c : Char) : ℕ :=
  if '0' ≤ c ∧ c ≤ '9' then c.toNat - 48
  else if 'a' ≤ c ∧ c ≤ 'z' then c.toNat - 87
  else if 'A' ≤ c ∧ c ≤ 'Z' then c.toNat - 55
  else 36

def readBase (base : ℕ) (cs : List Char) : Option ℕ :=
  if cs ≠ [] ∧ cs.all (fun c => digitValue c < base) then
    some (cs.foldl (fun n c => base * n + digitValue c) 0)
  else none

def readExponent : List Char → Option ℤ
  | '+' :: cs => (readBase 10 cs).map (fun n => (n : ℤ))
  | '-' :: cs => (readBase 10 cs).map (fun n => -(n : ℤ))
  | cs => (readBase 10 cs).map (fun n => (n : ℤ))

def isExponentMark (c : Char) : Bool := c = 'e' || c = 'E'

def readDecimal (cs : List Char) : Option ℚ := do
  let mantissa := cs.takeWhile (fun c => !isExponentMark c)
  let exponent ← match cs.dropWhile (fun c => !isExponentMark c) with
    | [] => some 0
    | _ :: rest => readExponent rest
  let whole := mantissa.takeWhile (· ≠ '.')
  let fraction := (mantissa.dropWhile (· ≠ '.')).drop 1
  let digits ← readBase 10 (whole ++ fraction)
  pure (digits * 10 ^ (exponent - fraction.length))

/-- The numeric literals of strings, with a blank one for zero. The infinities are
left out, as no caller tells them from what is no number. -/
def readNumeral : List Char → Option ℚ
  | [] => some 0
  | '0' :: 'x' :: cs | '0' :: 'X' :: cs => (readBase 16 cs).map (fun n => (n : ℚ))
  | '0' :: 'o' :: cs | '0' :: 'O' :: cs => (readBase 8 cs).map (fun n => (n : ℚ))
  | '0' :: 'b' :: cs | '0' :: 'B' :: cs => (readBase 2 cs).map (fun n => (n : ℚ))
  | '+' :: cs => readDecimal cs
  | '-' :: cs => (readDecimal cs).map (fun x => -x)
  | cs => readDecimal cs

def roundHalfEven (x : ℚ) : ℤ :=
  if x - ⌊x⌋ < 1 / 2 then ⌊x⌋
  else if 1 / 2 < x - ⌊x⌋ then ⌊x⌋ + 1
  else if ⌊x⌋ % 2 = 0 then ⌊x⌋ else ⌊x⌋ + 1

def lastBit (x : ℚ) : ℤ := max (Int.log 2 |x| - 52) (-1074)

def roundDouble (x : ℚ) : Option ℚ :=
  let y : ℚ := roundHalfEven (x / 2 ^ lastBit x) * 2 ^ lastBit x
  if |y| < 2 ^ 1024 then some y else none

def trimSpace (space : Char → Bool) (cs : List Char) : List Char :=
  ((cs.dropWhile space).reverse.dropWhile space).reverse

/-- `Number` on a string, where it is finite. -/
def number (space : Char → Bool) (cs : List Char) : Option ℚ :=
  (readNumeral (trimSpace space cs)).bind roundDouble

section Rounding

theorem roundHalfEven_intCast (n : ℤ) : roundHalfEven n = n := by
  simp [roundHalfEven]

theorem le_roundHalfEven {x : ℚ} {n : ℤ} (h : n ≤ x) : n ≤ roundHalfEven x := by
  have hfloor : n ≤ ⌊x⌋ := Int.le_floor.mpr h
  rw [roundHalfEven]
  split_ifs <;> omega

theorem roundDouble_natCast {n : ℕ} (h : n < 2 ^ 53) : roundDouble n = some (n : ℚ) := by
  have hlast : lastBit n ≤ 0 := by
    apply max_le _ (by decide)
    by_cases hn : n = 0
    · subst hn
      simp
    · have hlog : Int.log 2 |(n : ℚ)| < 53 := by
        rw [Nat.abs_cast, Int.log_natCast]
        exact_mod_cast Nat.log_lt_of_lt_pow hn h
      omega
  have hpow : (2 : ℚ) ^ lastBit n ≠ 0 := by positivity
  have hscaled : (n : ℚ) / 2 ^ lastBit n = ((n * 2 ^ (-lastBit n).toNat : ℕ) : ℤ) := by
    have hexp : (2 : ℚ) ^ (-lastBit n).toNat = (2 ^ lastBit n)⁻¹ := by
      rw [← zpow_natCast, Int.toNat_of_nonneg (by omega), zpow_neg]
    push_cast
    rw [hexp, div_eq_mul_inv]
  have hback : (roundHalfEven ((n : ℚ) / 2 ^ lastBit n) : ℚ) * 2 ^ lastBit n = n := by
    rw [hscaled, roundHalfEven_intCast, ← hscaled, div_mul_cancel₀ _ hpow]
  have hbound : |(n : ℚ)| < 2 ^ 1024 := by
    rw [Nat.abs_cast]
    calc (n : ℚ) < 2 ^ 53 := by exact_mod_cast h
      _ ≤ 2 ^ 1024 := pow_le_pow_right₀ (by norm_num) (by decide)
  simp only [roundDouble, hback, if_pos hbound]

/-- Larger numbers stay larger. -/
theorem le_roundDouble {x y : ℚ} (h : 2 ^ 53 ≤ x) (hy : roundDouble x = some y) : 2 ^ 53 ≤ y := by
  have hpos : 0 < x := lt_of_lt_of_le (by positivity) h
  have hlog : 53 ≤ Int.log 2 x := by
    rw [← Int.zpow_le_iff_le_log (by decide) hpos]
    exact_mod_cast h
  have hlast : lastBit x = Int.log 2 x - 52 := by
    rw [lastBit, abs_of_pos hpos, max_eq_left (by omega)]
  have hlow : (2 : ℚ) ^ Int.log 2 x ≤ x := by
    have hle := Int.zpow_log_le_self (b := 2) (by decide) hpos
    exact_mod_cast hle
  have hscaled : ((2 ^ 52 : ℤ) : ℚ) ≤ x / 2 ^ lastBit x := by
    rw [le_div_iff₀ (by positivity), hlast]
    calc ((2 ^ 52 : ℤ) : ℚ) * 2 ^ (Int.log 2 x - 52) = 2 ^ Int.log 2 x := by
          rw [Int.cast_pow, Int.cast_ofNat, ← zpow_natCast, ← zpow_add₀ (by norm_num)]
          congr 1
          push_cast
          ring
      _ ≤ x := hlow
  have hround : (2 : ℚ) ^ 53 ≤ roundHalfEven (x / 2 ^ lastBit x) * 2 ^ lastBit x := by
    have hmantissa : ((2 ^ 52 : ℤ) : ℚ) ≤ roundHalfEven (x / 2 ^ lastBit x) :=
      Int.cast_le.mpr (le_roundHalfEven hscaled)
    have hunit : (2 : ℚ) ≤ 2 ^ lastBit x := by
      calc (2 : ℚ) = 2 ^ (1 : ℤ) := by norm_num
        _ ≤ 2 ^ lastBit x := zpow_le_zpow_right₀ (by norm_num) (by omega)
    calc (2 : ℚ) ^ 53 = ((2 ^ 52 : ℤ) : ℚ) * 2 := by norm_num
      _ ≤ roundHalfEven (x / 2 ^ lastBit x) * 2 ^ lastBit x :=
          mul_le_mul hmantissa hunit (by norm_num) (le_trans (by norm_num) hmantissa)
  simp only [roundDouble] at hy
  split at hy
  · cases hy
    exact hround
  · cases hy

end Rounding

section Digits

variable {base : ℕ} {cs : List Char} {n : ℕ}

theorem readBase_digits (h : readBase base cs = some n) :
    cs ≠ [] ∧ ∀ c ∈ cs, digitValue c < base := by
  simp only [readBase, List.all_eq_true, decide_eq_true_eq] at h
  split at h
  · rename_i hdigits
    exact hdigits
  · cases h

theorem not_mem_digits {c : Char} (h : readBase 10 cs = some n) (hc : 10 ≤ digitValue c) : c ∉ cs := by
  intro hmem
  have hsmall := (readBase_digits h).2 c hmem
  omega

theorem trimSpace_eq_self {space : Char → Bool} (hfree : ∀ c ∈ cs, space c = false) :
    trimSpace space cs = cs := by
  have hback : cs.reverse.dropWhile space = cs.reverse := by
    apply List.dropWhile_eq_self_iff.mpr
    intro hl
    simp only [hfree _ (List.mem_reverse.mp (List.getElem_mem hl)), Bool.false_eq_true,
      not_false_eq_true]
  have hfront : cs.dropWhile space = cs := by
    apply List.dropWhile_eq_self_iff.mpr
    intro hl
    simp only [hfree _ (List.getElem_mem hl), Bool.false_eq_true, not_false_eq_true]
  rw [trimSpace, hfront, hback, List.reverse_reverse]

theorem readDecimal_digits (h : readBase 10 cs = some n) : readDecimal cs = some (n : ℚ) := by
  have hmark : ∀ c ∈ cs, (!isExponentMark c) = true := by
    intro c hc
    simp only [isExponentMark, Bool.not_eq_true', Bool.or_eq_false_iff, decide_eq_false_iff_not]
    constructor
    · rintro rfl
      exact not_mem_digits h (by decide) hc
    · rintro rfl
      exact not_mem_digits h (by decide) hc
  have hpoint : ∀ c ∈ cs, decide (c ≠ '.') = true := by
    intro c hc
    simp only [ne_eq, decide_eq_true_eq]
    rintro rfl
    exact not_mem_digits h (by decide) hc
  simp only [readDecimal, List.takeWhile_eq_self_iff.mpr hmark, List.dropWhile_eq_nil_iff.mpr hmark,
    List.takeWhile_eq_self_iff.mpr hpoint, List.dropWhile_eq_nil_iff.mpr hpoint, List.drop_nil,
    List.append_nil, h, Option.bind_eq_bind, Option.bind_some, List.length_nil, Option.pure_def]
  simp

theorem readNumeral_digits (h : readBase 10 cs = some n) : readNumeral cs = readDecimal cs := by
  have hnot : ∀ c, 10 ≤ digitValue c → c ∉ cs := fun _ hc => not_mem_digits h hc
  unfold readNumeral
  split
  · exact absurd rfl (readBase_digits h).1
  · exact absurd (by simp) (hnot 'x' (by decide))
  · exact absurd (by simp) (hnot 'X' (by decide))
  · exact absurd (by simp) (hnot 'o' (by decide))
  · exact absurd (by simp) (hnot 'O' (by decide))
  · exact absurd (by simp) (hnot 'b' (by decide))
  · exact absurd (by simp) (hnot 'B' (by decide))
  · exact absurd (by simp) (hnot '+' (by decide))
  · exact absurd (by simp) (hnot '-' (by decide))
  · rfl

theorem number_digits {space : Char → Bool} (hspace : ∀ c, space c = true → 10 ≤ digitValue c)
    (h : readBase 10 cs = some n) : number space cs = roundDouble n := by
  have hfree : ∀ c ∈ cs, space c = false := by
    intro c hc
    by_contra hs
    exact not_mem_digits h (hspace c (by simpa using hs)) hc
  rw [number, trimSpace_eq_self hfree, readNumeral_digits h, readDecimal_digits h, Option.bind_some]

end Digits

end Bitmine.Lib.JsNumber
