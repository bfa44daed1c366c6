import Mathlib

namespace Bitmine.Lib.IsoDate

structure Civil where
  year : ℤ
  month : ℤ
  day : ℤ

/-- The year of a day counted from 0000-03-01, and the day in that year. Years
begin in March here, so that the leap day comes last in its year, in its four
years and in its era of 400. -/
def yearOf (days : ℤ) : ℤ × ℤ :=
  let era := days / 146097
  let ofEra := days % 146097
  let century := min (ofEra / 36524) 3
  let ofCentury := ofEra - 36524 * century
  let quad := ofCentury / 1461
  let ofQuad := ofCentury % 1461
  let year := min (ofQuad / 365) 3
  (400 * era + 100 * century + 4 * quad + year, ofQuad - 365 * year)

def monthOf (day : ℤ) : ℤ × ℤ :=
  let index := (5 * day + 2) / 153
  (if index < 10 then index + 3 else index - 9, day - (153 * index + 2) / 5 + 1)

def civil (days : ℤ) : Civil :=
  let (year, ofYear) := yearOf (days + 719468)
  let (month, day) := monthOf ofYear
  ⟨if month ≤ 2 then year + 1 else year, month, day⟩

theorem yearOf_spec (days : ℤ) : 0 ≤ (yearOf days).2 ∧ (yearOf days).2 ≤ 365 ∧
    days = 365 * (yearOf days).1 + (yearOf days).1 / 4 - (yearOf days).1 / 100 +
      (yearOf days).1 / 400 + (yearOf days).2 := by
  simp only [yearOf]
  have hera : 0 ≤ days % 146097 ∧ days % 146097 < 146097 ∧
      days = 146097 * (days / 146097) + days % 146097 := by omega
  generalize days / 146097 = era at *
  generalize days % 146097 = ofEra at *
  have hcentury : 0 ≤ min (ofEra / 36524) 3 ∧ min (ofEra / 36524) 3 ≤ 3 ∧
      0 ≤ ofEra - 36524 * min (ofEra / 36524) 3 ∧
      ofEra - 36524 * min (ofEra / 36524) 3 ≤ 36524 := by omega
  generalize min (ofEra / 36524) 3 = century at *
  have hquad : 0 ≤ (ofEra - 36524 * century) / 1461 ∧ (ofEra - 36524 * century) / 1461 ≤ 24 ∧
      0 ≤ (ofEra - 36524 * century) % 1461 ∧ (ofEra - 36524 * century) % 1461 ≤ 1460 ∧
      ofEra - 36524 * century = 1461 * ((ofEra - 36524 * century) / 1461) +
        (ofEra - 36524 * century) % 1461 := by omega
  generalize (ofEra - 36524 * century) / 1461 = quad at *
  generalize (ofEra - 36524 * century) % 1461 = ofQuad at *
  have hyear : 0 ≤ min (ofQuad / 365) 3 ∧ min (ofQuad / 365) 3 ≤ 3 ∧
      0 ≤ ofQuad - 365 * min (ofQuad / 365) 3 ∧ ofQuad - 365 * min (ofQuad / 365) 3 ≤ 365 := by omega
  generalize min (ofQuad / 365) 3 = year at *
  have h4 : (400 * era + 100 * century + 4 * quad + year) / 4 = 100 * era + 25 * century + quad := by
    omega
  have h100 : (400 * era + 100 * century + 4 * quad + year) / 100 = 4 * era + century := by omega
  have h400 : (400 * era + 100 * century + 4 * quad + year) / 400 = era := by omega
  refine ⟨hyear.2.2.1, hyear.2.2.2, ?_⟩
  rw [h4, h100, h400]
  omega

theorem monthOf_spec {day : ℤ} (h0 : 0 ≤ day) (h1 : day ≤ 365) :
    0 < (monthOf day).1 ∧ 0 < (monthOf day).2 ∧ (monthOf day).1 ≤ 12 ∧
    day = (153 * (if (monthOf day).1 ≤ 2 then (monthOf day).1 + 9 else (monthOf day).1 - 3) + 2) / 5 +
      ((monthOf day).2 - 1) := by
  have hindex : 0 ≤ (5 * day + 2) / 153 ∧ (5 * day + 2) / 153 ≤ 11 := by omega
  simp only [monthOf]
  refine ⟨by split <;> omega, by omega, by split <;> omega, ?_⟩
  split <;> split <;> omega

theorem civil_pos (days : ℤ) : 0 < (civil days).month ∧ 0 < (civil days).day := by
  obtain ⟨h0, h1, _⟩ := yearOf_spec (days + 719468)
  obtain ⟨hm, hd, _⟩ := monthOf_spec h0 h1
  exact ⟨hm, hd⟩

def dayNumber (c : Civil) : ℤ :=
  let year := if c.month ≤ 2 then c.year - 1 else c.year
  let index := if c.month ≤ 2 then c.month + 9 else c.month - 3
  365 * year + year / 4 - year / 100 + year / 400 + (153 * index + 2) / 5 + (c.day - 1) - 719468

theorem dayNumber_civil (days : ℤ) : dayNumber (civil days) = days := by
  obtain ⟨h0, h1, hyear⟩ := yearOf_spec (days + 719468)
  obtain ⟨_, _, _, hmonth⟩ := monthOf_spec h0 h1
  simp only [dayNumber, civil]
  by_cases hm : (monthOf (yearOf (days + 719468)).2).1 ≤ 2
  · simp only [if_pos hm, add_sub_cancel_right] at hmonth ⊢
    omega
  · simp only [if_neg hm] at hmonth ⊢
    omega

def pad (width n : ℕ) : List Char :=
  List.replicate (width - (Nat.toDigits 10 n).length) '0' ++ Nat.toDigits 10 n

theorem ofDigitChars_pad (width n : ℕ) : Nat.ofDigitChars 10 (pad width n) 0 = n := by
  rw [pad, Nat.ofDigitChars_append, Nat.ofDigitChars_replicate_zero, Nat.mul_zero,
    Nat.ofDigitChars_ten_toDigits]

theorem isDigit_of_mem_pad {width n : ℕ} {c : Char} (h : c ∈ pad width n) : c.isDigit = true := by
  obtain h | h := List.mem_append.mp h
  · rw [List.eq_of_mem_replicate h]
    decide
  · exact Nat.isDigit_of_mem_toDigits (by decide) (by decide) h

theorem takeWhile_digits {ds r : List Char} {c : Char} (hds : ∀ d ∈ ds, d.isDigit = true)
    (hc : c.isDigit = false) : (ds ++ c :: r).takeWhile Char.isDigit = ds := by
  rw [List.takeWhile_append_of_pos hds, List.takeWhile_cons_of_neg (by simp [hc]), List.append_nil]

theorem pad_split {width width' n m : ℕ} {c d : Char} {r r' : List Char} (hc : c.isDigit = false)
    (hd : d.isDigit = false) (h : pad width n ++ c :: r = pad width' m ++ d :: r') :
    n = m ∧ c = d ∧ r = r' := by
  have hdigits : pad width n = pad width' m := by
    rw [← takeWhile_digits (fun _ => isDigit_of_mem_pad) hc, h,
      takeWhile_digits (fun _ => isDigit_of_mem_pad) hd]
  refine ⟨?_, ?_⟩
  · rw [← ofDigitChars_pad width n, hdigits, ofDigitChars_pad]
  · rw [hdigits] at h
    exact List.cons.inj (List.append_cancel_left h)

def yearText (year : ℤ) : List Char :=
  if 0 ≤ year ∧ year ≤ 9999 then pad 4 year.toNat
  else (if year < 0 then '-' else '+') :: pad 6 year.natAbs

theorem pad_head (width n : ℕ) : ∃ c cs, pad width n = c :: cs ∧ c.isDigit = true := by
  cases hp : pad width n with
  | nil =>
    have hlen := congrArg List.length hp
    simp only [pad, List.length_append, List.length_nil] at hlen
    have hpos : 0 < (Nat.toDigits 10 n).length := Nat.length_toDigits_pos
    omega
  | cons c cs =>
    have hmem : c ∈ pad width n := by
      rw [hp]
      exact List.mem_cons_self
    exact ⟨c, cs, rfl, isDigit_of_mem_pad hmem⟩

theorem yearText_split {y z : ℤ} {r r' : List Char} (h : yearText y ++ '-' :: r = yearText z ++ '-' :: r') :
    y = z ∧ r = r' := by
  -- a signed year does not begin with a digit
  have hsign : ∀ (y : ℤ) (width n : ℕ) (s s' : List Char),
      ((if y < 0 then '-' else '+') :: s) ≠ pad width n ++ s' := by
    intro y width n s s' he
    obtain ⟨c, cs, hc, hd⟩ := pad_head width n
    rw [hc] at he
    injection he with hcc
    rw [← hcc] at hd
    split at hd <;> exact absurd hd (by decide)
  simp only [yearText] at h
  by_cases hy : 0 ≤ y ∧ y ≤ 9999 <;> by_cases hz : 0 ≤ z ∧ z ≤ 9999
  · rw [if_pos hy, if_pos hz] at h
    obtain ⟨hn, _, hr⟩ := pad_split (by decide) (by decide) h
    exact ⟨by omega, hr⟩
  · rw [if_pos hy, if_neg hz] at h
    exact absurd h.symm (hsign z 4 _ _ _)
  · rw [if_neg hy, if_pos hz] at h
    exact absurd h (hsign y 4 _ _ _)
  · rw [if_neg hy, if_neg hz] at h
    simp only [List.cons_append, List.cons.injEq] at h
    obtain ⟨hs, h⟩ := h
    obtain ⟨hn, _, hr⟩ := pad_split (by decide) (by decide) h
    refine ⟨?_, hr⟩
    split at hs <;> split at hs
    · omega
    · exact absurd hs (by decide)
    · exact absurd hs (by decide)
    · omega

/-- `Date.prototype.toISOString`, on milliseconds since the epoch. -/
def toISOString (time : ℤ) : String :=
  let c := civil (time / 86400000)
  let ms := (time % 86400000).toNat
  String.ofList (yearText c.year ++ '-' :: (pad 2 c.month.toNat ++ '-' :: (pad 2 c.day.toNat ++
    'T' :: (pad 2 (ms / 3600000) ++ ':' :: (pad 2 (ms / 60000 % 60) ++ ':' ::
      (pad 2 (ms / 1000 % 60) ++ '.' :: (pad 3 (ms % 1000) ++ ['Z'])))))))

theorem toISOString_injective : Function.Injective toISOString := by
  intro t u h
  simp only [toISOString, String.ofList_inj] at h
  obtain ⟨hyear, h⟩ := yearText_split h
  obtain ⟨hmonth, _, h⟩ := pad_split (by decide) (by decide) h
  obtain ⟨hday, _, h⟩ := pad_split (by decide) (by decide) h
  obtain ⟨hhour, _, h⟩ := pad_split (by decide) (by decide) h
  obtain ⟨hminute, _, h⟩ := pad_split (by decide) (by decide) h
  obtain ⟨hsecond, _, h⟩ := pad_split (by decide) (by decide) h
  obtain ⟨hms, _⟩ := pad_split (by decide) (by decide) h
  have hdays : t / 86400000 = u / 86400000 := by
    obtain ⟨hmt, hdt⟩ := civil_pos (t / 86400000)
    obtain ⟨hmu, hdu⟩ := civil_pos (u / 86400000)
    have hmonth' : (civil (t / 86400000)).month = (civil (u / 86400000)).month := by omega
    have hday' : (civil (t / 86400000)).day = (civil (u / 86400000)).day := by omega
    rw [← dayNumber_civil (t / 86400000), ← dayNumber_civil (u / 86400000)]
    simp only [dayNumber, hyear, hmonth', hday']
  have hrest : (t % 86400000).toNat = (u % 86400000).toNat := by omega
  omega

example : toISOString 951868799999 = "2000-02-29T23:59:59.999Z" := by decide +kernel

def toISODate (days : ℤ) : String :=
  let c := civil days
  String.ofList (yearText c.year ++ '-' :: (pad 2 c.month.toNat ++ '-' :: pad 2 c.day.toNat))

theorem toISODate_injective : Function.Injective toISODate := by
  intro t u h
  simp only [toISODate, String.ofList_inj] at h
  obtain ⟨hyear, h⟩ := yearText_split h
  obtain ⟨hmonth, _, h⟩ := pad_split (by decide) (by decide) h
  have hday : (civil t).day.toNat = (civil u).day.toNat := by
    rw [← ofDigitChars_pad 2 (civil t).day.toNat, h, ofDigitChars_pad]
  obtain ⟨hmt, hdt⟩ := civil_pos t
  obtain ⟨hmu, hdu⟩ := civil_pos u
  have hmonth' : (civil t).month = (civil u).month := by omega
  have hday' : (civil t).day = (civil u).day := by omega
  rw [← dayNumber_civil t, ← dayNumber_civil u]
  simp only [dayNumber, hyear, hmonth', hday']

end Bitmine.Lib.IsoDate
