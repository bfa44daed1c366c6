import Bitmine.Enrolment

namespace Bitmine.Base32

open Bitmine.Lib.Throwing
open Bitmine.Security Bitmine.Enrolment

/-- A letter stands as it is or in lower case, and white space may stand anywhere. -/
inductive Respelt : List Char → List Char → Prop where
  | nil : Respelt [] []
  | space {c : Char} {letters text : List Char} (hc : isSpace c = true) (h : Respelt letters text) :
    Respelt letters (c :: text)
  | letter {c d : Char} {letters text : List Char} (hd : d = c ∨ d = c.toLower)
    (h : Respelt letters text) : Respelt (c :: letters) (d :: text)

structure Padding (padding : List Char) : Prop where
  signs : ∀ c ∈ padding, c = '=' ∨ isSpace c = true
  begins : ∀ c ∈ padding.head?, c = '='

theorem Respelt.refl (letters : List Char) : Respelt letters letters := by
  induction letters with
  | nil => exact .nil
  | cons c letters ih => exact .letter (.inl rfl) ih

section Bits

theorem ofBits_concat (bits : List Bool) (b : Bool) :
    ofBits (bits ++ [b]) = 2 * ofBits bits + b.toNat := by
  simp [ofBits]

theorem bitsOf_succ (width n : ℕ) :
    bitsOf (width + 1) n = bitsOf width (n / 2) ++ [n.testBit 0] := by
  simp only [bitsOf, List.range_succ_eq_map, List.reverse_cons, List.map_append, List.map_cons,
    List.map_nil]
  congr 1
  rw [← List.map_reverse, List.map_map]
  apply List.map_congr_left
  intro i _
  exact Nat.testBit_succ n i

theorem ofBits_bitsOf {width n : ℕ} (h : n < 2 ^ width) : ofBits (bitsOf width n) = n := by
  induction width generalizing n with
  | zero =>
    have hn : n = 0 := by omega
    subst hn
    rfl
  | succ width ih =>
    rw [bitsOf_succ, ofBits_concat, ih (by rw [pow_succ] at h; omega), Nat.toNat_testBit, pow_zero,
      Nat.div_one]
    omega

theorem bitsOf_ofBits (bits : List Bool) : bitsOf bits.length (ofBits bits) = bits := by
  induction bits using List.reverseRecOn with
  | nil => rfl
  | append_singleton bits b ih =>
    have hhalf : (2 * ofBits bits + b.toNat) / 2 = ofBits bits := by
      have hb : b.toNat ≤ 1 := Bool.toNat_le b
      omega
    have hbit : (2 * ofBits bits + b.toNat).testBit 0 = b := by
      cases b <;> simp
    rw [List.length_append, List.length_singleton, bitsOf_succ, ofBits_concat, hhalf, hbit, ih]

theorem ofBits_lt (bits : List Bool) : ofBits bits < 2 ^ bits.length := by
  induction bits using List.reverseRecOn with
  | nil => decide
  | append_singleton bits b ih =>
    rw [ofBits_concat, List.length_append, List.length_singleton, pow_succ]
    have hb : b.toNat ≤ 1 := Bool.toNat_le b
    omega

theorem bytesOfBits_flatMap {bytes : List ℕ} (h : ∀ b ∈ bytes, b < 256) {k : ℕ} (hk : k < 8) :
    bytesOfBits (bytes.flatMap (bitsOf 8) ++ List.replicate k false) = bytes := by
  induction bytes with
  | nil =>
    have hrest : ∀ k < 8, bytesOfBits (List.replicate k false) = [] := by decide
    exact hrest k hk
  | cons b bytes ih =>
    have hb : ofBits (bitsOf 8 b) = b := ofBits_bitsOf (h b (by simp))
    rw [List.flatMap_cons, List.append_assoc]
    change ofBits (bitsOf 8 b) :: bytesOfBits (bytes.flatMap (bitsOf 8) ++ List.replicate k false) = _
    rw [hb, ih (fun c hc => h c (by simp [hc]))]

end Bits

section Letters

def letterBits (c : Char) : List Bool := bitsOf 5 (alphabet.idxOf c)

theorem letter_spec {bits : List Bool} (h : bits.length = 5) :
    alphabet.getD (ofBits bits) 'A' ∈ alphabet ∧
      letterBits (alphabet.getD (ofBits bits) 'A') = bits := by
  have hall : ∀ i < 32, alphabet.getD i 'A' ∈ alphabet ∧ alphabet.idxOf (alphabet.getD i 'A') = i := by
    decide +kernel
  have hlt : ofBits bits < 32 := by
    have hbits := ofBits_lt bits
    rwa [h] at hbits
  obtain ⟨hmem, hidx⟩ := hall _ hlt
  refine ⟨hmem, ?_⟩
  rw [letterBits, hidx]
  conv_rhs => rw [← bitsOf_ofBits bits, h]

/-- The letters stand for the bits, with fewer than five zeros behind them. -/
theorem lettersOfBits_spec (bits : List Bool) :
    (∀ c ∈ lettersOfBits bits, c ∈ alphabet) ∧
      ∃ k < 5, (lettersOfBits bits).flatMap letterBits = bits ++ List.replicate k false := by
  fun_induction lettersOfBits bits with
  | case1 b0 b1 b2 b3 b4 bits ih =>
    obtain ⟨hmem, k, hk, hbits⟩ := ih
    obtain ⟨hletter, hread⟩ := @letter_spec [b0, b1, b2, b3, b4] rfl
    refine ⟨fun c hc => ?_, k, hk, ?_⟩
    · obtain rfl | hc := List.mem_cons.mp hc
      · exact hletter
      · exact hmem c hc
    · rw [List.flatMap_cons, hread, hbits]
      rfl
  | case2 => exact ⟨fun c hc => (by cases hc), 0, by decide, rfl⟩
  | case3 bits hfive hnil =>
    have hlen : 0 < bits.length ∧ bits.length < 5 := by
      match bits, hfive, hnil with
      | [], _, hnil => exact absurd rfl hnil
      | [_], _, _ => simp
      | [_, _], _, _ => simp
      | [_, _, _], _, _ => simp
      | [_, _, _, _], _, _ => simp
      | b0 :: b1 :: b2 :: b3 :: b4 :: rest, hfive, _ => exact absurd rfl (hfive b0 b1 b2 b3 b4 rest)
    have hfull : (bits ++ List.replicate (5 - bits.length) false).length = 5 := by
      rw [List.length_append, List.length_replicate]
      omega
    obtain ⟨hletter, hread⟩ := letter_spec hfull
    refine ⟨fun c hc => ?_, 5 - bits.length, by omega, ?_⟩
    · rw [List.mem_singleton.mp hc]
      exact hletter
    · rw [List.flatMap_cons, hread, List.flatMap_nil, List.append_nil]

end Letters

section Spelling

variable {letters text : List Char}

theorem letter_upper {c d : Char} (hc : c ∈ alphabet) (hd : d = c ∨ d = c.toLower) :
    toUpperCase d = [c] ∧ c ≠ '=' ∧ isSpace c = false := by
  have hall : alphabet.all (fun c => toUpperCase c = [c] ∧ toUpperCase c.toLower = [c] ∧ c ≠ '=' ∧
      isSpace c = false) = true := by decide
  obtain ⟨hupper, hlower, hne, hspace⟩ := of_decide_eq_true (List.all_eq_true.mp hall c hc)
  obtain rfl | rfl := hd
  · exact ⟨hupper, hne, hspace⟩
  · exact ⟨hlower, hne, hspace⟩

theorem space_upper {c : Char} (h : isSpace c = true) : toUpperCase c = [c] ∧ c ≠ '=' := by
  let spaces := List.range' 9 5 ++ [32, 0xa0, 0x1680] ++ List.range' 0x2000 11 ++
    [0x2028, 0x2029, 0x202f, 0x205f, 0x3000, 0xfeff]
  have hmem : c.toNat ∈ spaces := by
    simp only [isSpace, decide_eq_true_eq] at h
    simp only [spaces, List.mem_append, List.mem_range'_1, List.mem_cons, List.not_mem_nil, or_false]
    omega
  have hall : ∀ n ∈ spaces, toUpperCase (Char.ofNat n) = [Char.ofNat n] ∧ Char.ofNat n ≠ '=' := by
    decide
  have hc := hall c.toNat hmem
  rwa [Char.ofNat_toNat] at hc

theorem Respelt.upper (h : Respelt letters text) (hletters : ∀ c ∈ letters, c ∈ alphabet) :
    (∀ c ∈ text.flatMap toUpperCase, c ≠ '=') ∧
      (text.flatMap toUpperCase).filter (fun c => !isSpace c) = letters := by
  induction h with
  | nil => exact ⟨fun c hc => (by cases hc), rfl⟩
  | space hc _ ih =>
    obtain ⟨hfree, hfilter⟩ := ih hletters
    obtain ⟨hupper, hne⟩ := space_upper hc
    rw [List.flatMap_cons, hupper, List.singleton_append]
    refine ⟨List.forall_mem_cons.mpr ⟨hne, hfree⟩, ?_⟩
    rw [List.filter_cons_of_neg (by simp [hc]), hfilter]
  | letter hd _ ih =>
    obtain ⟨hletter, hrest⟩ := List.forall_mem_cons.mp hletters
    obtain ⟨hfree, hfilter⟩ := ih hrest
    obtain ⟨hupper, hne, hspace⟩ := letter_upper hletter hd
    rw [List.flatMap_cons, hupper, List.singleton_append]
    refine ⟨List.forall_mem_cons.mpr ⟨hne, hfree⟩, ?_⟩
    rw [List.filter_cons_of_pos (by simp [hspace]), hfilter]

theorem strip_padding (h : ∀ c ∈ text, c ≠ '=') (n : ℕ) :
    ((text ++ List.replicate n '=').reverse.dropWhile (· = '=')).reverse = text := by
  rw [List.reverse_append, List.reverse_replicate, List.dropWhile_append_of_pos]
  · cases hlast : text.reverse with
    | nil => exact (List.reverse_eq_nil_iff.mp hlast).symm
    | cons c rest =>
      have hc : c ≠ '=' := h c (List.mem_reverse.mp (hlast ▸ List.mem_cons_self))
      rw [List.dropWhile_cons_of_neg (by simpa using hc), ← hlast, List.reverse_reverse]
  · intro c hc
    simpa using List.eq_of_mem_replicate hc

theorem mapM_letterBits (h : ∀ c ∈ letters, c ∈ alphabet) :
    letters.mapM (m := Except String) (fun c =>
      if c ∈ alphabet then .ok (bitsOf 5 (alphabet.idxOf c)) else .error "Invalid base32 secret") =
      .ok (letters.map letterBits) := by
  induction letters with
  | nil => rfl
  | cons c letters ih =>
    obtain ⟨hc, hrest⟩ := List.forall_mem_cons.mp h
    rw [List.mapM_cons, if_pos hc, ih hrest]
    rfl

theorem padding_upper {padding : List Char} (h : Padding padding) : padding.flatMap toUpperCase = padding := by
  have hall := h.signs
  clear h
  induction padding with
  | nil => rfl
  | cons c padding ih =>
    obtain ⟨hc, hrest⟩ := List.forall_mem_cons.mp hall
    have hupper : toUpperCase c = [c] := by
      obtain rfl | hspace := hc
      · rfl
      · exact (space_upper hspace).1
    rw [List.flatMap_cons, hupper, ih hrest, List.singleton_append]

theorem sign_kept {padding : List Char} (h : Padding padding) {c : Char} (hc : c ∈ padding)
    (hspace : isSpace c = true) :
    '=' ∈ ((text ++ padding).reverse.dropWhile (· = '=')).reverse := by
  obtain ⟨hsigns, hbegins⟩ := h
  cases padding with
  | nil => cases hc
  | cons d rest =>
    have hd : d = '=' := hbegins d rfl
    subst hd
    have hbehind : c ∈ rest := by
      obtain rfl | hrest := List.mem_cons.mp hc
      · exact absurd rfl (space_upper hspace).2
      · exact hrest
    have hkeeps : ¬ (rest.reverse.dropWhile (· = '=')).isEmpty = true := by
      rw [List.isEmpty_iff, List.dropWhile_eq_nil_iff]
      intro hall
      exact (space_upper hspace).2 (of_decide_eq_true (hall c (List.mem_reverse.mpr hbehind)))
    rw [List.reverse_append, List.reverse_cons, List.append_assoc, List.dropWhile_append, if_neg hkeeps]
    simp

theorem decodeBase32_respelt (h : Respelt letters text) (hletters : ∀ c ∈ letters, c ∈ alphabet)
    (n : ℕ) : decodeBase32 (String.ofList (text ++ List.replicate n '=')) =
      .ok (bytesOfBits (letters.flatMap letterBits)) := by
  obtain ⟨hfree, hfilter⟩ := h.upper hletters
  have hpadding : (List.replicate n '=').flatMap toUpperCase = List.replicate n '=' := by
    induction n with
    | zero => rfl
    | succ n ih =>
      rw [List.replicate_succ, List.flatMap_cons, ih]
      rfl
  rw [decodeBase32, String.toList_ofList, List.flatMap_append, hpadding]
  simp only [strip_padding hfree, hfilter]
  rw [mapM_letterBits hletters, List.flatMap_def]
  rfl

theorem decodeBase32_broken {padding : List Char} (hpadding : Padding padding) {c : Char}
    (hc : c ∈ padding) (hspace : isSpace c = true) (bytes : List ℕ) :
    decodeBase32 (String.ofList (text ++ padding)) ≠ .ok bytes := by
  intro h
  rw [decodeBase32, String.toList_ofList, List.flatMap_append, padding_upper hpadding] at h
  obtain ⟨bits, hbits, _⟩ := bind_eq_ok.mp h
  have hkept : '=' ∈ ((text.flatMap toUpperCase ++ padding).reverse.dropWhile (· = '=')).reverse :=
    sign_kept hpadding hc hspace
  have hsign : '=' ∈ (((text.flatMap toUpperCase ++ padding).reverse.dropWhile (· = '=')).reverse.filter
      (fun c => !isSpace c)) := List.mem_filter.mpr ⟨hkept, by decide⟩
  obtain ⟨i, hi, hget⟩ := List.mem_iff_getElem.mp hsign
  have hread := (forall₂_of_mapM hbits).get hi (by rw [← (forall₂_of_mapM hbits).length_eq]; exact hi)
  simp only [List.get_eq_getElem, hget] at hread
  rw [if_neg (by decide)] at hread
  cases hread

end Spelling

/-- A secret of any length is read back from its text, in either case and with white space
among the letters, as long as no white space stands within or behind the padding. -/
theorem base32_round_trip_iff {bytes : List ℕ} (h : ∀ b ∈ bytes, b < 256) {text padding : List Char}
    (hrespelt : Respelt (generateTotpSecret bytes).toList text) (hpadding : Padding padding) :
    decodeBase32 (String.ofList (text ++ padding)) = .ok bytes ↔ ∀ c ∈ padding, c = '=' := by
  constructor
  · intro hread c hc
    obtain hsign | hspace := hpadding.signs c hc
    · exact hsign
    · exact absurd hread (decodeBase32_broken hpadding hc hspace bytes)
  · intro hsigns
    rw [generateTotpSecret, String.toList_ofList] at hrespelt
    obtain ⟨hletters, k, hk, hbits⟩ := lettersOfBits_spec (bytes.flatMap (bitsOf 8))
    rw [List.eq_replicate_of_mem hsigns, decodeBase32_respelt hrespelt hletters, hbits,
      bytesOfBits_flatMap h (by omega)]

theorem base32_round_trip_sample : (generateTotpSecret [104, 105]).toList = ['N', 'B', 'U', 'Q'] ∧
    decodeBase32 (String.ofList (['n', 'b', ' ', 'u', 'Q', ' '] ++ ['=', '=', '=', '='])) =
      .ok [104, 105] := by
  have hsecret : (generateTotpSecret [104, 105]).toList = ['N', 'B', 'U', 'Q'] := by decide +kernel
  have hrespelt : Respelt ['N', 'B', 'U', 'Q'] ['n', 'b', ' ', 'u', 'Q', ' '] :=
    .letter (.inr (by decide)) (.letter (.inr (by decide)) (.space (by decide)
      (.letter (.inr (by decide)) (.letter (.inl rfl) (.space (by decide) .nil)))))
  have hbytes : ∀ b ∈ [104, 105], b < 256 := by decide
  have hpadding : Padding ['=', '=', '=', '='] := ⟨by simp, by simp⟩
  exact ⟨hsecret, (base32_round_trip_iff hbytes (hsecret ▸ hrespelt) hpadding).mpr (by simp)⟩

theorem spaced_padding_refused : ¬ ∀ bytes : List ℕ, (∀ b ∈ bytes, b < 256) → ∀ text padding : List Char,
    Respelt (generateTotpSecret bytes).toList text → Padding padding →
    decodeBase32 (String.ofList (text ++ padding)) = .ok bytes := by
  intro h
  have hsecret : (generateTotpSecret [102]).toList = ['M', 'Y'] := by decide +kernel
  have hpadding : Padding ['=', '=', ' ', '=', '=', '=', '='] := ⟨by simp [isSpace], by simp⟩
  have hread := h [102] (by decide) ['M', 'Y'] _ (hsecret ▸ Respelt.refl _) hpadding
  exact decodeBase32_broken hpadding (c := ' ') (by simp) (by decide) _ hread

end Bitmine.Base32
