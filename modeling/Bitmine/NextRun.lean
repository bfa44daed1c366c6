import Bitmine.PayoutSlots

namespace Bitmine.NextRun

open Bitmine.Schema Bitmine.Schedule Bitmine.Lib.IsoDate
open Bitmine.PayoutSlots (utcZones sampleEnvironment)

variable (zones : Zones)

/-- The instant that `nextCustomerPayoutAt` announces, as `at` and as `localAt`. -/
def nextCustomerPayoutAt (policy : SchedulePolicy) (reference : Instant) : Instant :=
  match policy.mode with
  | .interval =>
    let intervalMs : ℤ := policy.intervalMinutes * 60000
    let offsetMs : ℤ := policy.minuteOffset * 60000
    let nextIndex := (reference - offsetMs) / intervalMs + 1
    nextIndex * intervalMs + offsetMs
  | .daily =>
    let today := zones.atTime policy.timezone (zones.localDay policy.timezone reference)
      policy.dailyTime
    if reference < today then today else zones.plusDay policy.timezone today

/-- A zone that is always as far from UTC. -/
structure FixedOffset (timezone : String) (offset : ℤ) : Prop where
  localDay : ∀ t, zones.localDay timezone t = (t + offset) / 86400000
  atTime : ∀ day (time : DailyTime), zones.atTime timezone day time =
    day * 86400000 + (time.hour * 60 + time.minute) * 60000 - offset
  plusDay : ∀ t, zones.plusDay timezone t = t + 86400000

/-- The scheduler claims a slot then, and not the one it claims at the reference,
if it claims one there. -/
def ClaimsAnother (policy : SchedulePolicy) (reference t : Instant) : Prop :=
  ∃ slot, scheduledSlot zones policy t = some slot ∧
    ∀ slot', scheduledSlot zones policy reference = some slot' → slot.label ≠ slot'.label

variable {zones}

theorem daily_label_inj {timezone : String} {day day' : ℤ}
    (h : (Slot.daily timezone day).label = (Slot.daily timezone day').label) : day = day' := by
  simp only [Slot.label, String.append_right_inj] at h
  exact toISODate_injective h

theorem interval_label_inj {minutes offset : ℕ} {index index' : ℤ}
    (h : (Slot.interval minutes offset index).label = (Slot.interval minutes offset index').label) :
    index = index' := by
  simp only [Slot.label, String.append_right_inj] at h
  exact Int.repr_injective h

theorem next_interval {policy : SchedulePolicy} (hmode : policy.mode = .interval)
    (hzone : zones.isValidZone policy.timezone = true) (hpos : 0 < policy.intervalMinutes)
    (reference : ℤ) : IsLeast {t : ℤ | reference < t ∧ ClaimsAnother zones policy reference t}
      (nextCustomerPayoutAt zones policy reference) := by
  have hslot : ∀ t : ℤ, scheduledSlot zones policy t = some (.interval policy.intervalMinutes
      policy.minuteOffset ((t - policy.minuteOffset * 60000) / (policy.intervalMinutes * 60000))) := by
    intro t
    simp only [scheduledSlot, hmode, hzone, if_true]
  simp only [nextCustomerPayoutAt, hmode]
  have hi : (0 : ℤ) < policy.intervalMinutes * 60000 := by omega
  generalize (policy.intervalMinutes : ℤ) * 60000 = i at hi hslot ⊢
  generalize (policy.minuteOffset : ℤ) * 60000 = o at hslot ⊢
  have hnext : reference < ((reference - o) / i + 1) * i + o := by
    have hlt := Int.lt_ediv_add_one_mul_self (reference - o) hi
    omega
  refine ⟨⟨hnext, _, hslot _, fun slot' hslot' hlabel => ?_⟩, fun t ⟨hlt, slot, ht, hother⟩ => ?_⟩
  · rw [hslot] at hslot'
    cases hslot'
    have hindex := interval_label_inj hlabel
    rw [add_sub_cancel_right, Int.mul_ediv_cancel _ hi.ne'] at hindex
    omega
  · rw [hslot] at ht
    cases ht
    have hne : (t - o) / i ≠ (reference - o) / i := fun he => hother _ (hslot reference) (by rw [he])
    have hle : (reference - o) / i ≤ (t - o) / i := Int.ediv_le_ediv hi (by omega)
    have hmul : ((reference - o) / i + 1) * i ≤ t - o :=
      (Int.le_ediv_iff_mul_le hi).mp (by omega)
    omega

theorem next_daily {policy : SchedulePolicy} (hmode : policy.mode = .daily)
    (hzone : zones.isValidZone policy.timezone = true) {offset : ℤ}
    (hfixed : FixedOffset zones policy.timezone offset) (reference : ℤ) :
    IsLeast {t : ℤ | reference < t ∧ ClaimsAnother zones policy reference t}
      (nextCustomerPayoutAt zones policy reference) := by
  obtain ⟨hhour, hminute⟩ := And.intro policy.dailyTime.hour_lt policy.dailyTime.minute_lt
  -- what the clock shows when the payouts are due
  obtain ⟨m, hm, hm0, hm1⟩ : ∃ m : ℤ, m = (policy.dailyTime.hour * 60 + policy.dailyTime.minute) * 60000 ∧
      0 ≤ m ∧ m < 86400000 := ⟨_, rfl, by omega, by omega⟩
  have hslot : ∀ t : ℤ, scheduledSlot zones policy t =
      if t < (t + offset) / 86400000 * 86400000 + m - offset then none
      else some (.daily policy.timezone ((t + offset) / 86400000)) := by
    intro t
    simp only [scheduledSlot, hmode, dailySlot, hzone, if_true, hfixed.localDay, hfixed.atTime, hm]
  simp only [nextCustomerPayoutAt, hmode, hfixed.localDay, hfixed.atTime, hfixed.plusDay, ← hm]
  refine ⟨?_, fun t ⟨hlt, slot, ht, hother⟩ => ?_⟩
  · split
    · rename_i hearly
      refine ⟨hearly, _, (hslot _).trans (if_neg (by omega)), fun slot' hslot' => ?_⟩
      rw [hslot, if_pos hearly] at hslot'
      cases hslot'
    · rename_i hlate
      refine ⟨by omega, _, (hslot _).trans (if_neg (by omega)), fun slot' hslot' hlabel => ?_⟩
      rw [hslot, if_neg hlate] at hslot'
      cases hslot'
      have hday := daily_label_inj hlabel
      omega
  · rw [hslot] at ht
    split at ht <;> cases ht
    rename_i hdue
    split
    · omega
    · rename_i hlate
      have hne : (t + offset) / 86400000 ≠ (reference + offset) / 86400000 := by
        intro he
        apply hother _ ((hslot reference).trans (if_neg hlate))
        rw [he]
      omega

/-- The announced instant is the first one after the reference at which the
scheduler claims another slot. -/
theorem nextCustomerPayoutAt_isLeast {policy : SchedulePolicy}
    (hzone : zones.isValidZone policy.timezone = true)
    (hinterval : policy.mode = .interval → 0 < policy.intervalMinutes)
    (hdaily : policy.mode = .daily → ∃ offset, FixedOffset zones policy.timezone offset)
    (reference : Instant) : IsLeast {t | reference < t ∧ ClaimsAnother zones policy reference t}
      (nextCustomerPayoutAt zones policy reference) := by
  cases hmode : policy.mode with
  | interval => exact next_interval hmode hzone (hinterval hmode) reference
  | daily =>
    obtain ⟨offset, hfixed⟩ := hdaily hmode
    exact next_daily hmode hzone hfixed reference

theorem utc_fixed : FixedOffset utcZones "UTC" 0 where
  localDay t := by simp only [utcZones, add_zero]
  atTime day time := by simp only [utcZones, sub_zero]
  plusDay _ := rfl

theorem nextCustomerPayoutAt_sample :
    nextCustomerPayoutAt utcZones (payoutPolicy sampleEnvironment none) 1200000 = 87300000 ∧
    IsLeast {t | 1200000 < t ∧
        ClaimsAnother utcZones (payoutPolicy sampleEnvironment none) 1200000 t}
      (nextCustomerPayoutAt utcZones (payoutPolicy sampleEnvironment none) 1200000) :=
  ⟨by decide +kernel, nextCustomerPayoutAt_isLeast (by decide) (fun h => by cases h)
    (fun _ => ⟨0, utc_fixed⟩) 1200000⟩

end Bitmine.NextRun
