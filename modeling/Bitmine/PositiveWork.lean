import Bitmine.DisplayedMoney
import Bitmine.JobDifficulty

namespace Bitmine.PositiveWork

open Bitmine.Lib.Await Bitmine.Lib.JsonText Bitmine.Lib.History Bitmine.Lib.Rounding Bitmine.Lib.Numeral
open Bitmine.Schema Bitmine.Shares Bitmine.Allocation Bitmine.GatewaySession Bitmine.SessionHistory
open Bitmine.JobDifficulty Bitmine.DisplayedMoney

/-- If the difficulty is a number, it is not rounded to zero, or below, at eighteen places. -/
def Weighs (decimal : Decimal) (d : String) : Prop := ∀ q, decimal d = some q → 1 / 2 ≤ q * 10 ^ 18

def Positive (share : ShareEvent) : Prop := 0 < share.difficulty ∧ 0 < share.normalizedWork

section Work

variable {decimal : Decimal} {kind : AssetCode} {share : ShareEvent} {d : String}

theorem normalizedWork_pos {q : ℚ} (h : 1 / 2 ≤ q * 10 ^ 18) : 0 < normalizedWork kind q := by
  cases kind with
  | xmr => exact roundPlaces_pos_iff.mpr h
  | btc =>
    have hwork : (10 : ℚ) ^ (-9 : ℤ) ≤ q * 4294967296 := by
      norm_num
      linarith
    have hround : (10 : ℚ) ^ (-9 : ℤ) ≤ decimalRound (q * 4294967296) := le_roundSig (by decide) hwork
    apply roundPlaces_pos_iff.mpr
    norm_num at hround
    linarith

theorem positive_iff {q : ℚ} (h : decimal d = some q) (hcredited : Credited decimal kind share d) :
    Positive share ↔ Weighs decimal d := by
  rw [Credited, columns, h, Option.map_some, Option.some.injEq, Prod.mk.injEq] at hcredited
  obtain ⟨hdifficulty, hwork⟩ := hcredited
  rw [Positive, ← hdifficulty, ← hwork, roundPlaces_pos_iff]
  constructor
  · rintro ⟨hq, _⟩ q' hq'
    rw [h, Option.some.injEq] at hq'
    exact hq' ▸ hq
  · intro hweighs
    exact ⟨hweighs q h, normalizedWork_pos (hweighs q h)⟩

theorem decimal_of_credited (h : Credited decimal kind share d) : ∃ q, decimal d = some q := by
  obtain ⟨q, hq, _⟩ := Option.map_eq_some_iff.mp h
  exact ⟨q, hq⟩

theorem current_announced (kind : AssetCode) (heard : List Message) :
    current kind heard = "1" ∨ ∃ m ∈ heard, announces kind m = some (current kind heard) := by
  induction heard using List.reverseRecOn with
  | nil => exact .inl rfl
  | append_singleton heard m ih =>
    rw [current_snoc]
    cases hm : announces kind m with
    | some d => exact .inr ⟨m, by simp, hm⟩
    | none =>
      obtain h | ⟨m', hm', h⟩ := ih
      · exact .inl h
      · exact .inr ⟨m', List.mem_append_left _ hm', h⟩

theorem difficultyFromTarget_eq (target : String) :
    ∃ n : ℕ, 0 < n ∧ difficultyFromTarget target = toString n := by
  simp only [difficultyFromTarget]
  generalize (if "0x".toList.isPrefixOf target.toList then target.toList.drop 2
    else target.toList) = clean
  by_cases hmalformed : clean.isEmpty ∨ ¬ clean.all isHex ∨ clean.length % 2 ≠ 0
  · exact ⟨1, one_pos, if_pos hmalformed⟩
  · rw [if_neg hmalformed]
    by_cases hzero : littleEndian clean = 0
    · exact ⟨1, one_pos, if_pos hzero⟩
    · rw [if_neg hzero]
      exact ⟨_, lt_max_of_lt_left one_pos, rfl⟩

variable (hdecimal : ∀ n : ℕ, decimal (toString n) = some (n : ℚ))

include hdecimal

theorem weighs_toString {n : ℕ} (hn : 0 < n) : Weighs decimal (toString n) := by
  intro q hq
  rw [hdecimal, Option.some.injEq] at hq
  have hone : (1 : ℚ) ≤ q := by
    rw [← hq]
    exact_mod_cast hn
  linarith

theorem weighs_announced_xmr {m : Message} (h : announces .xmr m = some d) : Weighs decimal d := by
  obtain ⟨target, _, rfl⟩ := Option.map_eq_some_iff.mp h
  obtain ⟨n, hn, htarget⟩ := difficultyFromTarget_eq target
  rw [htarget]
  exact weighs_toString hdecimal hn

theorem weighs_current {heard : List Message}
    (h : ∀ m ∈ heard, ∀ d, announces kind m = some d → Weighs decimal d) :
    Weighs decimal (current kind heard) := by
  obtain hfirst | ⟨m, hm, hlast⟩ := current_announced kind heard
  · rw [hfirst]
    exact weighs_toString hdecimal one_pos
  · exact h m hm _ hlast

/-- Recorded work is positive exactly where the difficulty in force at the submit is
not rounded away. So it is in a run in which every announced one is not, which are
all the runs of Monero sessions. -/
theorem recorded_work_positive_iff {g : Gateway} (hg : g.Fresh) {c : Config Gateway Call}
    (h : (gateway decimal kind).Run Steps (.idle g) c) :
    (∀ s share, .journaled s share ∈ c.shared.log →
      (Positive share ↔ Weighs decimal (current kind s.heard))) ∧
    ((∀ m ∈ heardIn c.shared.log, ∀ d, announces kind m = some d → Weighs decimal d) →
      ∀ s share, .journaled s share ∈ c.shared.log → Positive share) ∧
    (kind = .xmr → ∀ s share, .journaled s share ∈ c.shared.log → Positive share) := by
  have hjustified := (run_consistent hg h).justified
  have hpositive : ∀ s share, .journaled s share ∈ c.shared.log →
      (Positive share ↔ Weighs decimal (current kind s.heard)) := by
    intro s share hs
    have hcredited := journaled_columns hjustified hs
    obtain ⟨q, hq⟩ := decimal_of_credited hcredited
    exact positive_iff hq hcredited
  have hall : (∀ m ∈ heardIn c.shared.log, ∀ d, announces kind m = some d → Weighs decimal d) →
      ∀ s share, .journaled s share ∈ c.shared.log → Positive share := by
    intro hannounced s share hs
    apply (hpositive s share hs).mpr
    apply weighs_current hdecimal
    intro m hm
    obtain ⟨before, after, hlog, hread, _⟩ := hjustified.mem hs
    apply hannounced m
    rw [hlog, heardIn_append]
    exact List.mem_append_left _ (hread.heard.subset hm)
  refine ⟨hpositive, hall, ?_⟩
  rintro rfl
  exact hall (fun m _ d hd => weighs_announced_xmr hdecimal hd)

end Work

section Sample

def signedDecimal : Decimal := fun s => readSigned false s.toList

theorem signedDecimal_toString (n : ℕ) : signedDecimal (toString n) = some (n : ℚ) := by
  have hdigits : ∀ c ∈ Nat.toDigits 10 n, c.isDigit = true := toDigits_digit
  have hsign : ∀ c, (Nat.toDigits 10 n).head? = some c → c ≠ '-' := by
    rintro c hc rfl
    exact absurd (hdigits '-' (List.mem_of_mem_head? hc)) (by decide)
  have hread : readMagnitude false (point (Nat.toDigits 10 n) []) = _ :=
    readMagnitude_point (not_point_of_digits hdigits)
  rw [point, if_pos rfl, List.append_nil, if_pos ⟨.inl Nat.toDigits_ne_nil, by simpa using hdigits⟩]
    at hread
  rw [signedDecimal, Nat.toString_eq_repr, Nat.toList_repr, readSigned_of_unsigned hsign, hread,
    digitsValue_toDigits]
  simp [fractionValue, digitsValue]

def works (c : Config Gateway Call) : List (ℚ × ℚ) :=
  c.shared.log.filterMap (fun
    | .journaled _ share => some (share.difficulty, share.normalizedWork)
    | _ => none)

theorem journaled_of_works {c : Config Gateway Call} {w : ℚ × ℚ} (h : w ∈ works c) :
    ∃ s share, .journaled s share ∈ c.shared.log ∧ share.difficulty = w.1 ∧
      share.normalizedWork = w.2 := by
  obtain ⟨o, ho, he⟩ := List.mem_filterMap.mp h
  split at he
  · rename_i s share
    cases he
    exact ⟨s, share, ho, rfl, rfl⟩
  · cases he

theorem signed_sample (acts : List (Action Call Reply Event)) (v : List (ℚ × ℚ))
    (h : ((gateway signedDecimal .btc).execAlone (fun _ _ _ => true) (.idle (sampleGateway .btc))
      acts).map works = some v) :
    ∃ c, (gateway signedDecimal .btc).Run Steps (.idle (sampleGateway .btc)) c ∧ works c = v := by
  obtain ⟨c, hc, hv⟩ := Option.map_eq_some_iff.mp h
  exact ⟨c, (Machine.execAlone_run queue (fun _ _ _ _ => trivial) (fun _ _ => rfl) hc).1, hv⟩

theorem recorded_work_positive_iff_sample : ∃ c,
    (gateway signedDecimal .btc).Run Steps (.idle (sampleGateway .btc)) c ∧
      ∃ s share, .journaled s share ∈ c.shared.log ∧ share.difficulty = 8 ∧
        (Positive share ↔ Weighs signedDecimal (current .btc s.heard)) := by
  obtain ⟨c, hc, hv⟩ := signed_sample (login .btc ++ setDifficulty "8" ++ submits .btc "3" "A" 9 5)
    [(8, 34359738368)] (by decide +kernel)
  have hwork : ((8 : ℚ), (34359738368 : ℚ)) ∈ works c := by simp [hv]
  obtain ⟨s, share, hs, hd, _⟩ := journaled_of_works hwork
  have hiff := recorded_work_positive_iff signedDecimal_toString (sampleGateway_fresh .btc) hc
  exact ⟨c, hc, s, share, hs, hd, hiff.1 s share hs⟩

/-- The pool sets the difficulty -8 after the difficulty 8: the second share takes
back the work of the first. With the difficulty 0 a share has none. -/
theorem negative_work_cancels :
    (∃ c, (gateway signedDecimal .btc).Run Steps (.idle (sampleGateway .btc)) c ∧
      ((works c).map Prod.snd).sum = 0 ∧
      ∃ s share, .journaled s share ∈ c.shared.log ∧ ¬ Positive share) ∧
    ∃ c, (gateway signedDecimal .btc).Run Steps (.idle (sampleGateway .btc)) c ∧
      works c = [(0, 0)] := by
  constructor
  · obtain ⟨c, hc, hv⟩ := signed_sample (login .btc ++ setDifficulty "8" ++ submits .btc "3" "A" 9 5 ++
      setDifficulty "-8" ++ submits .btc "4" "A" 10 6) [(8, 34359738368), (-8, -34359738368)]
      (by decide +kernel)
    have hwork : ((-8 : ℚ), (-34359738368 : ℚ)) ∈ works c := by simp [hv]
    obtain ⟨s, share, hs, hd, _⟩ := journaled_of_works hwork
    refine ⟨c, hc, by simp [hv], s, share, hs, fun hpositive => ?_⟩
    have hdifficulty := hpositive.1
    rw [hd] at hdifficulty
    norm_num at hdifficulty
  · exact signed_sample (login .btc ++ setDifficulty "0" ++ submits .btc "3" "A" 9 5) _
      (by decide +kernel)

end Sample

end Bitmine.PositiveWork
