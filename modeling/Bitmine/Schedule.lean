import Bitmine.Lib.History
import Bitmine.Lib.IsoDate
import Bitmine.Lib.Throwing
import Bitmine.Lib.Watch
import Bitmine.Schema

namespace Bitmine.Schedule

open Bitmine.Lib.Await Bitmine.Lib.Watch Bitmine.Lib.Throwing Bitmine.Lib.IsoDate
open Bitmine.Lib.History
open Bitmine.Schema

inductive PayoutScheduleMode where
  | daily | interval
  deriving DecidableEq

structure DailyTime where
  hour : ℕ
  minute : ℕ
  hour_lt : hour < 24
  minute_lt : minute < 60

structure SchedulePolicy extends PayoutPolicySetting where
  mode : PayoutScheduleMode
  intervalMinutes : ℕ
  minuteOffset : ℕ
  dailyTime : DailyTime

/-- What is stored under `payout.schedule`, also by older versions. -/
structure StoredPolicy where
  mode : Option PayoutScheduleMode
  intervalMinutes : Option ℕ
  minuteOffset : Option ℕ
  dailyTime : Option DailyTime
  time : Option DailyTime
  timezone : Option String
  feePayer : Option NetworkFeePayer
  maxFeeBps : Option ℕ
  maxBatchItems : Option ℕ
  minimumAtomic : AssetCode → Option ℕ
  dailyAutoLimitAtomic : AssetCode → Option ℕ

structure Environment where
  payoutTimezone : String
  minPayoutAtomic : AssetCode → ℕ
  dailyAutoLimitAtomic : AssetCode → ℕ

def StoredPolicy.empty : StoredPolicy :=
  ⟨none, none, none, none, none, none, none, none, none, fun _ => none, fun _ => none⟩

def defaultDailyTime : DailyTime := ⟨0, 15, by decide, by decide⟩

def payoutPolicy (env : Environment) (setting : Option StoredPolicy) : SchedulePolicy :=
  let stored := setting.getD .empty
  { mode := stored.mode.getD .daily
    intervalMinutes := stored.intervalMinutes.getD 60
    minuteOffset := stored.minuteOffset.getD 5
    dailyTime := (stored.dailyTime.or stored.time).getD defaultDailyTime
    timezone := stored.timezone.getD env.payoutTimezone
    feePayer := stored.feePayer.getD .operator
    maxFeeBps := stored.maxFeeBps.getD 200
    maxBatchItems := stored.maxBatchItems.getD 500
    minimumAtomic := fun asset => (stored.minimumAtomic asset).getD (env.minPayoutAtomic asset)
    dailyAutoLimitAtomic := fun asset =>
      (stored.dailyAutoLimitAtomic asset).getD (env.dailyAutoLimitAtomic asset) }

def SchedulePolicy.stored (policy : SchedulePolicy) : StoredPolicy :=
  ⟨policy.mode, policy.intervalMinutes, policy.minuteOffset, policy.dailyTime, none, policy.timezone,
    policy.feePayer, policy.maxFeeBps, policy.maxBatchItems, fun asset => policy.minimumAtomic asset,
    fun asset => policy.dailyAutoLimitAtomic asset⟩

/-- The calendar: the day of an instant in a zone, counted from 1970-01-01, the
instant of a time of day, and the same time on the day after. -/
structure Zones where
  isValidZone : String → Bool
  localDay : String → Instant → ℤ
  atTime : String → ℤ → DailyTime → Instant
  plusDay : String → Instant → Instant

inductive Slot where
  | daily (timezone : String) (day : ℤ)
  | interval (intervalMinutes minuteOffset : ℕ) (index : ℤ)
  deriving DecidableEq

def Slot.label : Slot → String
  | .daily timezone day => "daily:" ++ timezone ++ ":" ++ toISODate day
  | .interval intervalMinutes minuteOffset index =>
    "interval:" ++ toString intervalMinutes ++ ":" ++ toString minuteOffset ++ ":" ++ toString index

variable (zones : Zones) (env : Environment)

def dailySlot (schedule : SchedulePolicy) (now : Instant) : Option Slot :=
  if zones.isValidZone schedule.timezone then
    let day := zones.localDay schedule.timezone now
    if now < zones.atTime schedule.timezone day schedule.dailyTime then none
    else some (.daily schedule.timezone day)
  else none

/-- The slot for which `claimScheduledRun` reaches `claimSlot`, if it does. -/
def scheduledSlot (schedule : SchedulePolicy) (now : Instant) : Option Slot :=
  match schedule.mode with
  | .daily => dailySlot zones schedule now
  | .interval =>
    if zones.isValidZone schedule.timezone then
      let intervalMs : ℤ := schedule.intervalMinutes * 60000
      let offsetMs : ℤ := schedule.minuteOffset * 60000
      some (.interval schedule.intervalMinutes schedule.minuteOffset ((now - offsetMs) / intervalMs))
    else none

structure UpdatePayoutScheduleDto where
  mode : PayoutScheduleMode
  intervalMinutes : ℕ
  minuteOffset : ℕ
  dailyTime : DailyTime
  timezone : String
  feePayer : NetworkFeePayer
  maxFeeBps : ℕ
  maxBatchItems : ℕ
  minimumAtomic : AssetCode → ℕ
  dailyAutoLimitAtomic : AssetCode → ℕ

def UpdatePayoutScheduleDto.valid (dto : UpdatePayoutScheduleDto) : Bool :=
  60 ≤ dto.intervalMinutes && dto.intervalMinutes ≤ 10080 && dto.minuteOffset ≤ 59 &&
    1 ≤ dto.timezone.length && dto.timezone.length ≤ 64 && 1 ≤ dto.maxFeeBps &&
    dto.maxFeeBps ≤ 10000 && 1 ≤ dto.maxBatchItems && dto.maxBatchItems ≤ 1000

def UpdatePayoutScheduleDto.policy (dto : UpdatePayoutScheduleDto) : SchedulePolicy where
  mode := dto.mode
  intervalMinutes := dto.intervalMinutes
  minuteOffset := dto.minuteOffset
  dailyTime := dto.dailyTime
  timezone := dto.timezone
  feePayer := dto.feePayer
  maxFeeBps := dto.maxFeeBps
  maxBatchItems := dto.maxBatchItems
  minimumAtomic := dto.minimumAtomic
  dailyAutoLimitAtomic := dto.dailyAutoLimitAtomic

def acceptedPolicy (dto : UpdatePayoutScheduleDto) : Except String SchedulePolicy :=
  if !zones.isValidZone dto.timezone then .error "Invalid IANA timezone"
  else if dto.minimumAtomic .btc ≤ 0 || dto.minimumAtomic .xmr ≤ 0 then
    .error "Payout minimums must be greater than zero"
  else .ok dto.policy

inductive RunKey where
  | customers | operator
  deriving DecidableEq

/-- The settings `payout.schedule` and `lastRunSlot`. -/
structure Settings where
  schedule : Option StoredPolicy
  lastRunSlot : RunKey → Option String

def claimSlot (s : Settings) (key : RunKey) (slot : String) : Settings × Bool :=
  if s.lastRunSlot key = some slot then (s, false)
  else ({ s with lastRunSlot := Function.update s.lastRunSlot key (some slot) }, true)

/-- The awaited effects of the scheduler and of `updatePayoutSchedule`. -/
inductive ScheduleCall where
  | claimScheduledRun
  | claimOperatorScheduledRun
  | claimSlot (key : RunKey) (slot : String)
  | updatePayoutSchedule (dto : UpdatePayoutScheduleDto)
  | upsert (value : SchedulePolicy)

def ScheduleCall.entry : ScheduleCall → Bool
  | .claimScheduledRun => true
  | .claimOperatorScheduledRun => true
  | .updatePayoutSchedule dto => dto.valid
  | _ => false

def effect (s : Settings) (r : ScheduleCall) (now : Instant) :
    Except String (Settings × Option ScheduleCall) :=
  match r with
  | .claimScheduledRun =>
    let schedule := payoutPolicy env s.schedule
    .ok (s, (scheduledSlot zones schedule now).map (fun slot => .claimSlot .customers slot.label))
  | .claimOperatorScheduledRun =>
    let schedule := payoutPolicy env s.schedule
    .ok (s, (dailySlot zones schedule now).map (fun slot => .claimSlot .operator slot.label))
  | .claimSlot key slot => .ok ((claimSlot s key slot).1, none)
  | .updatePayoutSchedule dto => do
    let value ← acceptedPolicy zones dto
    pure (s, some (.upsert value))
  | .upsert value => .ok ({ s with schedule := some value.stored }, none)

inductive Change where
  | schedule (stored : Option StoredPolicy)

def scheduler : Machine Settings ScheduleCall Instant Change :=
  ⟨ScheduleCall.entry, effect zones env, fun _ _ => none, fun _ r _ => r,
    fun s e => match e with | .schedule stored => { s with schedule := stored }⟩

end Bitmine.Schedule
