import Mathlib

namespace Bitmine.Lib.Utf8

abbrev Bytes := List UInt8

def replacement : Char := '\uFFFD'

/-- Where the decoder stands: between two characters, or within one, with the
continuation bytes it still needs, the bounds of the next and the bits so far. -/
inductive Decoder where
  | start
  | within (needed low high bits : ℕ)
  deriving DecidableEq

def lead (b : ℕ) : List Char × Decoder :=
  if b < 0x80 then ([Char.ofNat b], .start)
  else if 0xc2 ≤ b ∧ b ≤ 0xdf then ([], .within 1 0x80 0xbf (b - 0xc0))
  else if b = 0xe0 then ([], .within 2 0xa0 0xbf 0)
  else if b = 0xed then ([], .within 2 0x80 0x9f 0xd)
  else if 0xe1 ≤ b ∧ b ≤ 0xef then ([], .within 2 0x80 0xbf (b - 0xe0))
  else if b = 0xf0 then ([], .within 3 0x90 0xbf 0)
  else if 0xf1 ≤ b ∧ b ≤ 0xf3 then ([], .within 3 0x80 0xbf (b - 0xf0))
  else if b = 0xf4 then ([], .within 3 0x80 0x8f 4)
  else ([replacement], .start)

/-- A byte that cannot continue a character ends it as malformed, and is read again. -/
def Decoder.step (d : Decoder) (b : ℕ) : List Char × Decoder :=
  match d with
  | .start => lead b
  | .within needed low high bits =>
    if low ≤ b ∧ b ≤ high then
      let bits' := bits * 64 + (b - 0x80)
      if needed = 1 then ([Char.ofNat bits'], .start) else ([], .within (needed - 1) 0x80 0xbf bits')
    else (replacement :: (lead b).1, (lead b).2)

def Decoder.finish : Decoder → List Char
  | .start => []
  | .within _ _ _ _ => [replacement]

def Decoder.run (d : Decoder) : Bytes → List Char
  | [] => d.finish
  | b :: bs => (d.step b.toNat).1 ++ (d.step b.toNat).2.run bs

/-- `toString('utf8')`. -/
def decode (bs : Bytes) : List Char := Decoder.start.run bs

def encode (cs : List Char) : Bytes := cs.flatMap String.utf8EncodeChar

def units (c : Char) : ℕ := if c.toNat < 0x10000 then 1 else 2

/-- `length` of a string. -/
def length (cs : List Char) : ℕ := (cs.map units).sum

section RoundTrip

variable {v : ℕ}

theorem toNat_ofNat {n : ℕ} (h : n < 256) : (UInt8.ofNat n).toNat = n := by
  rw [UInt8.toNat_ofNat']
  omega

theorem step_more {needed low high bits n : ℕ} (hn : low ≤ n + 0x80 ∧ n + 0x80 ≤ high)
    (hneeded : needed ≠ 1) : Decoder.step (.within needed low high bits) (n + 0x80) =
      ([], .within (needed - 1) 0x80 0xbf (bits * 64 + n)) := by
  simp only [Decoder.step]
  rw [if_pos hn, if_neg hneeded, Nat.add_sub_cancel]

theorem step_last {low high bits n : ℕ} (hn : low ≤ n + 0x80 ∧ n + 0x80 ≤ high) :
    Decoder.step (.within 1 low high bits) (n + 0x80) =
      ([Char.ofNat (bits * 64 + n)], .start) := by
  simp only [Decoder.step]
  rw [if_pos hn, if_pos trivial, Nat.add_sub_cancel]

theorem run_two (bs : Bytes) (hlow : 0x80 ≤ v) (hhigh : v ≤ 0x7ff) :
    Decoder.start.run (UInt8.ofNat (v / 64 % 0x20 + 0xc0) :: UInt8.ofNat (v % 0x40 + 0x80) :: bs) =
      Char.ofNat v :: Decoder.start.run bs := by
  have h₁ : v / 64 % 0x20 = v / 64 := by omega
  have h₂ : v / 64 * 64 + v % 64 = v := by omega
  have hlead : lead (v / 64 + 0xc0) = ([], .within 1 0x80 0xbf (v / 64)) := by
    rw [lead]
    rw [if_neg (by omega), if_pos (by omega), Nat.add_sub_cancel]
  rw [Decoder.run, Decoder.run, h₁, toNat_ofNat (by omega), toNat_ofNat (by omega), Decoder.step,
    hlead, step_last (by omega), h₂]
  rfl

theorem run_three (bs : Bytes) (hlow : 0x800 ≤ v) (hhigh : v ≤ 0xffff) (hs : v < 0xd800 ∨ 0xdfff < v) :
    Decoder.start.run (UInt8.ofNat (v / 4096 % 0x10 + 0xe0) :: UInt8.ofNat (v / 64 % 0x40 + 0x80) ::
      UInt8.ofNat (v % 0x40 + 0x80) :: bs) = Char.ofNat v :: Decoder.start.run bs := by
  have h₁ : v / 4096 % 0x10 = v / 4096 := by omega
  have h₂ : (v / 4096 * 64 + v / 64 % 64) * 64 + v % 64 = v := by omega
  obtain ⟨low, high, hlead, hbounds⟩ : ∃ low high, lead (v / 4096 + 0xe0) =
      ([], .within 2 low high (v / 4096)) ∧ low ≤ v / 64 % 64 + 0x80 ∧ v / 64 % 64 + 0x80 ≤ high := by
    rw [lead]
    rw [if_neg (by omega), if_neg (by omega)]
    by_cases he0 : v / 4096 + 0xe0 = 0xe0
    · refine ⟨0xa0, 0xbf, ?_, ?_⟩
      · rw [if_pos he0, show v / 4096 = 0 by omega]
      · omega
    · rw [if_neg he0]
      by_cases hed : v / 4096 + 0xe0 = 0xed
      · refine ⟨0x80, 0x9f, ?_, ?_⟩
        · rw [if_pos hed, show v / 4096 = 0xd by omega]
        · omega
      · refine ⟨0x80, 0xbf, ?_, ?_⟩
        · rw [if_neg hed, if_pos (by omega), Nat.add_sub_cancel]
        · omega
  rw [Decoder.run, Decoder.run, Decoder.run, h₁, toNat_ofNat (by omega), toNat_ofNat (by omega),
    toNat_ofNat (by omega), Decoder.step, hlead, step_more hbounds (by decide),
    step_last (by omega), h₂]
  rfl

theorem run_four (bs : Bytes) (hlow : 0x10000 ≤ v) (hhigh : v ≤ 0x10ffff) :
    Decoder.start.run (UInt8.ofNat (v / 262144 % 0x08 + 0xf0) :: UInt8.ofNat (v / 4096 % 0x40 + 0x80) ::
      UInt8.ofNat (v / 64 % 0x40 + 0x80) :: UInt8.ofNat (v % 0x40 + 0x80) :: bs) =
        Char.ofNat v :: Decoder.start.run bs := by
  have h₁ : v / 262144 % 0x08 = v / 262144 := by omega
  have h₂ : ((v / 262144 * 64 + v / 4096 % 64) * 64 + v / 64 % 64) * 64 + v % 64 = v := by omega
  obtain ⟨low, high, hlead, hbounds⟩ : ∃ low high, lead (v / 262144 + 0xf0) =
      ([], .within 3 low high (v / 262144)) ∧ low ≤ v / 4096 % 64 + 0x80 ∧
        v / 4096 % 64 + 0x80 ≤ high := by
    rw [lead]
    rw [if_neg (by omega), if_neg (by omega), if_neg (by omega), if_neg (by omega), if_neg (by omega)]
    by_cases hf0 : v / 262144 + 0xf0 = 0xf0
    · refine ⟨0x90, 0xbf, ?_, ?_⟩
      · rw [if_pos hf0, show v / 262144 = 0 by omega]
      · omega
    · rw [if_neg hf0]
      by_cases hf4 : v / 262144 + 0xf0 = 0xf4
      · refine ⟨0x80, 0x8f, ?_, ?_⟩
        · rw [if_neg (by omega), if_pos hf4, show v / 262144 = 4 by omega]
        · omega
      · refine ⟨0x80, 0xbf, ?_, ?_⟩
        · rw [if_pos (by omega), Nat.add_sub_cancel]
        · omega
  rw [Decoder.run, Decoder.run, Decoder.run, Decoder.run, h₁, toNat_ofNat (by omega),
    toNat_ofNat (by omega), toNat_ofNat (by omega), toNat_ofNat (by omega), Decoder.step, hlead,
    step_more hbounds (by decide), step_more (by omega) (by decide), step_last (by omega), h₂]
  rfl

theorem run_encodeChar (c : Char) (bs : Bytes) :
    Decoder.start.run (String.utf8EncodeChar c ++ bs) = c :: Decoder.start.run bs := by
  have hvalid : c.toNat < 0xd800 ∨ 0xdfff < c.toNat ∧ c.toNat < 0x110000 := c.valid
  have hself : Char.ofNat c.toNat = c := Char.ofNat_toNat c
  have hval : c.val.toNat = c.toNat := rfl
  simp only [String.utf8EncodeChar, hval]
  split
  · have hlead : lead c.toNat = ([Char.ofNat c.toNat], .start) := by
      rw [lead]
      exact if_pos (by omega)
    simp only [List.cons_append, List.nil_append]
    rw [Decoder.run, Decoder.step, toNat_ofNat (by omega), hlead, hself]
    rfl
  · split
    · exact (run_two bs (by omega) (by omega)).trans (by rw [hself])
    · split
      · exact (run_three bs (by omega) (by omega) (by omega)).trans (by rw [hself])
      · exact (run_four bs (by omega) (by omega)).trans (by rw [hself])

theorem decode_encode (cs : List Char) : decode (encode cs) = cs := by
  induction cs with
  | nil => rfl
  | cons c cs ih =>
    rw [encode, List.flatMap_cons, decode, run_encodeChar]
    exact congrArg (c :: ·) ih

end RoundTrip

section Length

theorem units_le (c : Char) : units c ≤ 2 := by
  rw [units]
  split <;> omega

theorem length_append (cs ds : List Char) : length (cs ++ ds) = length cs + length ds := by
  simp [length]

def Decoder.credit : Decoder → ℕ
  | .start => 0
  | .within _ _ _ _ => 1

theorem units_ofNat {n : ℕ} (h : n < 0x80) : units (Char.ofNat n) = 1 := by
  have hn : n.isValidChar := .inl (by omega)
  have hval : (Char.ofNat n).toNat = n := by
    rw [Char.ofNat, dif_pos hn]
    rfl
  rw [units, hval, if_pos (by omega)]

theorem lead_length (b : ℕ) : length (lead b).1 + (lead b).2.credit ≤ 1 := by
  rw [lead]
  split
  · rename_i h
    simp [length, units_ofNat h, Decoder.credit]
  · have hone : units replacement = 1 := by decide
    repeat' split
    all_goals simp [length, Decoder.credit, hone]

theorem step_length (d : Decoder) (b : ℕ) :
    length (d.step b).1 + (d.step b).2.credit ≤ 1 + d.credit := by
  have hlead := lead_length b
  cases d with
  | start => exact hlead
  | within needed low high bits =>
    simp only [Decoder.step]
    split
    · split
      · simpa [length, Decoder.credit] using units_le _
      · exact Nat.le_add_left 1 1
    · have hone : units replacement = 1 := by decide
      simp only [length, List.map_cons, List.sum_cons, hone, Decoder.credit] at hlead ⊢
      omega

theorem run_length (d : Decoder) (bs : Bytes) : length (d.run bs) ≤ bs.length + d.credit := by
  induction bs generalizing d with
  | nil =>
    have hone : units replacement = 1 := by decide
    cases d <;> simp [Decoder.run, Decoder.finish, length, Decoder.credit, hone]
  | cons b bs ih =>
    have hstep := step_length d b.toNat
    have hrest := ih (d.step b.toNat).2
    rw [Decoder.run, length_append, List.length_cons]
    omega

theorem decode_length (bs : Bytes) : length (decode bs) ≤ bs.length := run_length .start bs

theorem sublist_length {cs ds : List Char} (h : cs.Sublist ds) : length cs ≤ length ds := by
  induction h with
  | slnil => exact Nat.le_refl _
  | cons c _ ih => exact Nat.le_trans ih (Nat.le_add_left _ (units c))
  | cons_cons c _ ih => exact Nat.add_le_add_left ih (units c)

end Length

theorem mem_encodeChar {c : Char} {b : UInt8} (hb : b.toNat < 0x80)
    (h : b ∈ String.utf8EncodeChar c) : c.toNat = b.toNat := by
  have hv : c.val.toNat = c.toNat := rfl
  rw [String.utf8EncodeChar] at h
  simp only [hv] at h
  split at h
  · rw [List.mem_singleton.mp h, toNat_ofNat (by omega)]
  · split at h
    · simp only [List.mem_cons, List.not_mem_nil, or_false] at h
      obtain rfl | rfl := h <;> rw [toNat_ofNat (by omega)] at hb <;> omega
    · split at h
      · simp only [List.mem_cons, List.not_mem_nil, or_false] at h
        obtain rfl | rfl | rfl := h <;> rw [toNat_ofNat (by omega)] at hb <;> omega
      · simp only [List.mem_cons, List.not_mem_nil, or_false] at h
        obtain rfl | rfl | rfl | rfl := h <;> rw [toNat_ofNat (by omega)] at hb <;> omega

theorem mem_encode {cs : List Char} {b : UInt8} (hb : b.toNat < 0x80) (h : b ∈ encode cs) :
    ∃ c ∈ cs, c.toNat = b.toNat := by
  obtain ⟨c, hc, hm⟩ := List.mem_flatMap.mp h
  exact ⟨c, hc, mem_encodeChar hb hm⟩

end Bitmine.Lib.Utf8
