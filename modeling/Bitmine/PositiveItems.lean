import Bitmine.DestinationCycle
import Bitmine.PayoutPreparation
import Bitmine.RoundedShares
import Bitmine.Schedule

namespace Bitmine.PositiveItems

open Bitmine.Lib.UniqueTable Bitmine.Lib.Throwing Bitmine.Lib.Await
open Bitmine.Schema Bitmine.Deployment Bitmine.Ledger Bitmine.Payouts Bitmine.Destinations
open Bitmine.Allocation Bitmine.PayoutPreparation
open Bitmine.DestinationCycle (sampleOffice sampleOfficeRuntime)

def candidate (i : PayoutItem) : PayoutCandidate := ⟨i.id, i.destination, i.grossAtomic⟩

/-- All items are positive, so that no fee and no journal fails over a zero amount. -/
structure Positive (db : Database) : Prop where
  gross : ∀ i ∈ db.payoutItems.rows, 0 < i.grossAtomic
  apportioned : ∀ items, items ≠ [] → (∀ i ∈ items, i ∈ db.payoutItems.rows) → ∀ feeAtomic : ℤ,
    0 ≤ feeAtomic → ∃ fees,
      largestRemainder decimalRound feeAtomic (feeWeights (items.map candidate)) = .ok fees
  posted : ∀ i ∈ db.payoutItems.rows, ∀ asset customerId feeAtomic operatorPaysFee,
    0 < debitTotal (payoutEntries
      ⟨i.batchId, asset, customerId, i.grossAtomic, feeAtomic, operatorPaysFee⟩)
  postedOperator : ∀ i ∈ db.payoutItems.rows, ∀ asset feeAtomic,
    0 < debitTotal (operatorPayoutEntries ⟨i.batchId, asset, i.grossAtomic, feeAtomic⟩)

/-- The settings of a new deployment: the minimums come from the environment, and no item
has been created. -/
structure Fresh (minimum : AssetCode → ℕ) (s : Office) : Prop where
  opening : s.Opening
  policy : s.db.payoutPolicy.minimumAtomic = minimum
  operator : ∀ asset, (s.db.operatorPayout asset).minPayoutAtomic = minimum asset

/-- A policy is stored by `updatePayoutSchedule`. -/
def PolicyAccepted (zones : Schedule.Zones) (_ : Office) : Elsewhere → Prop
  | .policy p => ∃ dto value, Schedule.acceptedPolicy zones dto = .ok value ∧
      p = value.toPayoutPolicySetting
  | _ => True

/-- The operator does not ask for a minimum of zero. -/
def AsksPositive (_ : Office) : Call → Prop
  | .updateOperatorPayout (.receive dto) => dto.minPayoutAtomic ≠ some 0
  | _ => True

section Amounts

variable {i : PayoutItem}

theorem payoutEntries_positive {input : PayoutPosting} (h : 0 < input.grossAtomic) :
    0 < debitTotal (payoutEntries input) := by
  unfold payoutEntries debitTotal recoveredFee
  split
  · rename_i hfee
    simp
    omega
  · split
    · simp
      omega
    · simpa using h

theorem operatorPayoutEntries_positive {input : OperatorPosting} (h : 0 < input.grossAtomic) :
    0 < debitTotal (operatorPayoutEntries input) := by
  unfold operatorPayoutEntries debitTotal recoveredFee
  split
  · simp
    omega
  · simpa using h

theorem positive_of_gross {db : Database} (h : ∀ i ∈ db.payoutItems.rows, 0 < i.grossAtomic) :
    Positive db where
  gross := h
  apportioned items hne hitems feeAtomic hfee := by
    have hweights : feeWeights (items.map candidate) ≠ [] := by
      simpa [feeWeights] using hne
    refine ⟨_, Apportionment.largestRemainder_eq hfee hweights
      (RoundedShares.totalWeight_pos hweights (fun w hw => ?_))⟩
    simp only [feeWeights, List.map_map, List.mem_map, Function.comp_apply] at hw
    obtain ⟨i, hi, rfl⟩ := hw
    exact Int.cast_pos.mpr (h i (hitems i hi))
  posted i hi _ _ _ _ := payoutEntries_positive (h i hi)
  postedOperator i hi _ _ := operatorPayoutEntries_positive (h i hi)

end Amounts

/-- Every minimum that a planner may read is positive, and so are the items. -/
structure Grounded (s : Office) : Prop where
  policy : ∀ asset, 0 < s.db.payoutPolicy.minimumAtomic asset
  operator : ∀ asset, 0 < (s.db.operatorPayout asset).minPayoutAtomic
  pending : ∀ asset p, s.pendingOperator asset = some p → 0 < p.setting.minPayoutAtomic
  items : ∀ i ∈ s.db.payoutItems.rows, 0 < i.grossAtomic

/-- The minimum that a call carries is positive. -/
def Carries : Call → Prop
  | .plan (.transaction asset policy) => 0 < policy.minimumAtomic asset
  | .updateOperatorPayout (.receive dto) => dto.minPayoutAtomic ≠ some 0
  | .updateOperatorPayout (.validateAddress dto) => dto.minPayoutAtomic ≠ some 0
  | .updateOperatorPayout (.upsert dto _) => dto.minPayoutAtomic ≠ some 0
  | .activateDueOperatorPayouts (.activate _ pending _) _ => 0 < pending.setting.minPayoutAtomic
  | .planOperator (.readPolicy _ setting) => 0 < setting.minPayoutAtomic
  | .planOperator (.transaction _ setting _) => 0 < setting.minPayoutAtomic
  | _ => True

section Keep

variable {s s' : Office}

theorem Grounded.keep (h : Grounded s) (hd : s'.db.payoutPolicy = s.db.payoutPolicy)
    (ho : s'.db.operatorPayout = s.db.operatorPayout)
    (hp : s'.pendingOperator = s.pendingOperator)
    (hi : s'.db.payoutItems.rows = s.db.payoutItems.rows) : Grounded s' where
  policy := hd ▸ h.policy
  operator := ho ▸ h.operator
  pending := hp ▸ h.pending
  items := hi ▸ h.items

theorem Grounded.create (h : Grounded s) {a : Answer} {batch : PayoutBatch} {items : List NewItem}
    (hc : Created a s.db s'.db batch items) (hp : s'.pendingOperator = s.pendingOperator)
    (hi : ∀ i ∈ items, 0 < i.grossAtomic) : Grounded s' where
  policy := by
    rw [hc.frame]
    exact h.policy
  operator := by
    rw [hc.frame]
    exact h.operator
  pending := hp ▸ h.pending
  items i hm := by
    rw [hc.items, List.mem_append, List.mem_mapIdx] at hm
    obtain hm | ⟨n, hn, rfl⟩ := hm
    · exact h.items i hm
    · exact hi _ (List.getElem_mem hn)

end Keep

section Planning

variable {rt : Runtime} {x : Answer} {db db' : Database} {asset : AssetCode}
  {policy : PayoutPolicySetting} {setting : OperatorPayoutSetting}

theorem planTransaction_positive (hmin : 0 < policy.minimumAtomic asset)
    (h : planTransaction rt x db asset policy = .ok db') :
    db' = db ∨ ∃ batch items, Created x db db' batch items ∧ ∀ i ∈ items, 0 < i.grossAtomic := by
  rw [planTransaction] at h
  dsimp only at h
  split at h
  · cases h
    exact .inl rfl
  · refine .inr ⟨_, _, createBatch_ok h, fun i hi => ?_⟩
    obtain ⟨d, _, hitem⟩ := List.mem_filterMap.mp hi
    unfold planItem at hitem
    dsimp only at hitem
    split at hitem
    · rename_i hreach
      cases hitem
      have hpos : 0 < max d.minPayoutAtomic (policy.minimumAtomic asset) := lt_max_of_lt_right hmin
      exact lt_of_lt_of_le (Int.natCast_pos.mpr hpos) hreach
    · cases hitem

theorem planOperatorTransaction_positive (hmin : 0 < setting.minPayoutAtomic)
    (h : planOperatorTransaction rt x db asset setting policy = .ok db') :
    db' = db ∨ ∃ batch items, Created x db db' batch items ∧ ∀ i ∈ items, 0 < i.grossAtomic := by
  rw [planOperatorTransaction] at h
  dsimp only at h
  split at h
  · cases h
    exact .inl rfl
  · rename_i hreach
    refine .inr ⟨_, _, createBatch_ok h, fun i hi => ?_⟩
    rw [List.mem_singleton.mp hi]
    exact lt_of_lt_of_le (Int.natCast_pos.mpr hmin) (not_lt.mp hreach)

end Planning

section Effects

variable {rt : Runtime} {minimum : AssetCode → ℕ} {s s' : Office} {a : Reply}

structure Keeps (s' : Office) (o : Option Call) : Prop where
  grounded : Grounded s'
  carries : ∀ r ∈ o, Carries r

theorem Grounded.tick (h : Grounded s) (now : Instant) : Grounded (s.tick now) :=
  h.keep rfl rfl rfl rfl

theorem Grounded.redirect (h : Grounded s) (hr : Redirects s s') : Grounded s' := by
  obtain ⟨t, ht⟩ := hr.db
  exact h.keep (by rw [ht]; rfl) (by rw [ht]; rfl) hr.pendingOperator (by rw [ht]; rfl)

theorem create_keeps {c : CreateCall} {o : Option CreateCall} (h : Grounded s)
    (he : createDestination minimum s c a = .ok (s', o)) :
    Keeps s' (o.map .createDestination) := by
  refine ⟨h.redirect (createDestination_redirects he), fun r hr => ?_⟩
  obtain ⟨_, _, rfl⟩ := Option.map_eq_some_iff.mp hr
  trivial

theorem request_keeps {c : RequestCall} {o : Option RequestCall} (h : Grounded s)
    (he : requestDestination s c a = .ok (s', o)) :
    Keeps s' (o.map .requestDestination) := by
  refine ⟨h.redirect (requestDestination_redirects he), fun r hr => ?_⟩
  obtain ⟨_, _, rfl⟩ := Option.map_eq_some_iff.mp hr
  trivial

theorem activateDestination_grounded {db : Database} {due : PayoutDestination} (h : Grounded s)
    (he : activateDestination s.db a.now due = .ok db) : Grounded (s.store db) :=
  h.redirect ⟨activateDestination_db he, rfl⟩

theorem activateDue_keeps {c : ActivateCall} {o : Option ActivateCall} (h : Grounded s)
    (he : activateDueDestinations s c a = .ok (s', o)) :
    Keeps s' (o.map .activateDueDestinations) := by
  refine ⟨h.redirect (activateDueDestinations_redirects he), fun r hr => ?_⟩
  obtain ⟨_, _, rfl⟩ := Option.map_eq_some_iff.mp hr
  trivial

theorem plan_keeps {c : PlanCall} {db : Database} {o : Option PlanCall} (h : Grounded s)
    (hc : Carries (.plan c)) (he : stepPlan rt s.db c a.toAnswer = .ok (db, o)) :
    Keeps (s.store db) (o.map .plan) := by
  have hnext : ∀ asset l, Carries (.plan (activateNext asset l)) := by
    intro asset l
    cases l <;> trivial
  cases c with
  | listDue asset =>
    cases he
    exact ⟨h, fun r hr => by cases hr; exact hnext _ _⟩
  | activate asset due rest =>
    simp only [stepPlan, bind_eq_ok, pure_eq_ok] at he
    obtain ⟨_, hd, he⟩ := he
    cases he
    exact ⟨activateDestination_grounded h hd, fun r hr => by cases hr; exact hnext _ _⟩
  | readPolicy asset =>
    cases he
    exact ⟨h, fun r hr => by cases hr; exact h.policy asset⟩
  | transaction asset policy =>
    simp only [stepPlan, bind_eq_ok, pure_eq_ok] at he
    obtain ⟨_, ht, he⟩ := he
    cases he
    refine ⟨?_, fun _ hr => by cases hr⟩
    obtain rfl | ⟨batch, items, hnew, hpos⟩ := planTransaction_positive hc ht
    · exact h
    · exact h.create hnew rfl hpos

theorem planOperator_keeps {c : OperatorCall} {db : Database} {o : Option OperatorCall}
    (h : Grounded s) (hc : Carries (.planOperator c))
    (he : stepOperator rt s.db c a.toAnswer = .ok (db, o)) :
    Keeps (s.store db) (o.map .planOperator) := by
  cases c with
  | readSetting asset =>
    cases he
    exact ⟨h, fun r hr => by cases hr; exact h.operator asset⟩
  | readPolicy asset setting =>
    simp only [stepOperator] at he
    split at he <;> cases he
    exact ⟨h, fun r hr => by cases hr; exact hc⟩
  | transaction asset setting policy =>
    simp only [stepOperator, bind_eq_ok, pure_eq_ok] at he
    obtain ⟨_, ht, he⟩ := he
    cases he
    refine ⟨?_, fun _ hr => by cases hr⟩
    obtain rfl | ⟨batch, items, hnew, hpos⟩ := planOperatorTransaction_positive hc ht
    · exact h
    · exact h.create hnew rfl hpos

theorem update_keeps {c : UpdateCall} {o : Option UpdateCall} (hmin : ∀ asset, 0 < minimum asset)
    (h : Grounded s) (hc : Carries (.updateOperatorPayout c))
    (he : updateOperatorPayout minimum s c a = .ok (s', o)) :
    Keeps s' (o.map .updateOperatorPayout) := by
  cases c with
  | receive dto =>
    simp only [updateOperatorPayout] at he
    split at he
    · cases he
      exact ⟨h.keep rfl rfl rfl rfl, fun r hr => by cases hr; exact hc⟩
    · split at he <;> cases he
      exact ⟨h.keep rfl rfl rfl rfl, fun r hr => by cases hr; exact hc⟩
  | validateAddress dto =>
    simp only [updateOperatorPayout] at he
    split at he <;> cases he
    exact ⟨h, fun r hr => by cases hr; exact hc⟩
  | upsert dto effectiveAt =>
    cases he
    refine ⟨⟨h.policy, h.operator, fun asset p hp => ?_, h.items⟩, fun _ hr => by cases hr⟩
    simp only [Office.pend, Function.update_apply] at hp
    split at hp
    · cases hp
      -- the minimum of the request, or of the environment
      cases hasked : dto.minPayoutAtomic with
      | none =>
        simp only [UpdateOperatorPayoutDto.setting, hasked, Option.getD_none]
        exact hmin dto.asset
      | some least =>
        simp only [UpdateOperatorPayoutDto.setting, hasked, Option.getD_some]
        exact Nat.pos_of_ne_zero (fun hzero => hc (hasked.trans (congrArg some hzero)))
    · exact h.pending asset p hp

theorem activateOperator_keeps {c : OperatorActivation} {planFor : Option AssetCode}
    {o : Option OperatorActivation} (h : Grounded s)
    (hc : Carries (.activateDueOperatorPayouts c planFor))
    (he : activateDueOperatorPayouts s c a = .ok (s', o)) :
    Keeps s' (continueOperator planFor o) := by
  have hnext : ∀ l, ∀ r ∈ continueOperator planFor (readRest l), Carries r := by
    intro l r hr
    cases l with
    | nil =>
      obtain ⟨asset, _, rfl⟩ := Option.map_eq_some_iff.mp hr
      trivial
    | cons asset rest =>
      cases hr
      trivial
  cases c with
  | readPending asset rest =>
    simp only [activateDueOperatorPayouts] at he
    split at he
    · cases he
      exact ⟨h, hnext _⟩
    · rename_i pending hpending
      split at he <;> cases he
      · exact ⟨h, hnext _⟩
      · exact ⟨h, fun r hr => by cases hr; exact h.pending asset pending hpending⟩
  | activate asset pending rest =>
    simp only [activateDueOperatorPayouts, bind_eq_ok, pure_eq_ok] at he
    obtain ⟨_, _, he⟩ := he
    cases he
    refine ⟨⟨h.policy, fun asset' => ?_, fun asset' p hp => ?_, h.items⟩, hnext _⟩
    · simp only [Office.pend, Office.store, withOperatorPayout, Function.update_apply]
      split
      · exact hc
      · exact h.operator asset'
    · simp only [Office.pend, Office.store, Function.update_apply] at hp
      split at hp
      · cases hp
      · exact h.pending asset' p hp

theorem effect_keeps {r : Call} {o : Option Call} (hmin : ∀ asset, 0 < minimum asset)
    (h : Grounded s) (hc : Carries r) (he : effect rt minimum s r a = .ok (s', o)) : Keeps s' o := by
  obtain ⟨⟨s₁, o₁⟩, hserve, he⟩ := map_eq_ok.mp he
  cases he
  have hserved : Keeps s₁ o₁ := by
    cases r with
    | createDestination c =>
      obtain ⟨⟨s₂, o₂⟩, hs, he⟩ := map_eq_ok.mp hserve
      cases he
      exact create_keeps h hs
    | requestDestination c =>
      obtain ⟨⟨s₂, o₂⟩, hs, he⟩ := map_eq_ok.mp hserve
      cases he
      exact request_keeps h hs
    | activateDueDestinations c =>
      obtain ⟨⟨s₂, o₂⟩, hs, he⟩ := map_eq_ok.mp hserve
      cases he
      exact activateDue_keeps h hs
    | plan c =>
      obtain ⟨⟨db, o₂⟩, hs, he⟩ := map_eq_ok.mp hserve
      cases he
      exact plan_keeps h hc hs
    | updateOperatorPayout c =>
      obtain ⟨⟨s₂, o₂⟩, hs, he⟩ := map_eq_ok.mp hserve
      cases he
      exact update_keeps hmin h hc hs
    | activateDueOperatorPayouts c planFor =>
      obtain ⟨⟨s₂, o₂⟩, hs, he⟩ := map_eq_ok.mp hserve
      cases he
      exact activateOperator_keeps h hc hs
    | planOperator c =>
      obtain ⟨⟨db, o₂⟩, hs, he⟩ := map_eq_ok.mp hserve
      cases he
      exact planOperator_keeps h hc hs
  exact ⟨hserved.grounded.tick _, hserved.carries⟩

end Effects

section Run

variable {rt : Runtime} {minimum : AssetCode → ℕ} {zones : Schedule.Zones}

theorem accepted_positive {dto : Schedule.UpdatePayoutScheduleDto} {value : Schedule.SchedulePolicy}
    (h : Schedule.acceptedPolicy zones dto = .ok value) (asset : AssetCode) :
    0 < value.minimumAtomic asset := by
  rw [Schedule.acceptedPolicy] at h
  split at h
  · cases h
  · split at h
    · cases h
    · rename_i hpositive
      cases h
      simp only [Nat.le_zero, Bool.or_eq_true, decide_eq_true_eq, not_or] at hpositive
      cases asset with
      | btc => exact Nat.pos_of_ne_zero hpositive.1
      | xmr => exact Nat.pos_of_ne_zero hpositive.2

theorem elsewhere_grounded {s : Office} {e : Elsewhere} (h : Grounded s)
    (he : PolicyAccepted zones s e) : Grounded (elsewhere s e) := by
  cases e with
  | customers t => exact h.keep rfl rfl rfl rfl
  | policy p =>
    obtain ⟨dto, value, haccepted, rfl⟩ := he
    exact ⟨accepted_positive haccepted, h.operator, h.pending, h.items⟩
  | ledger accounts journal => exact h.keep rfl rfl rfl rfl
  | progress state => exact h.keep rfl rfl rfl rfl

theorem carries_entry {s : Office} {r : Call} (hentry : r.entry = true) (hr : AsksPositive s r) :
    Carries r := by
  unfold Call.entry at hentry
  split at hentry <;> first | exact hr | exact trivial | cases hentry

theorem annotates (rt : Runtime) (zones : Schedule.Zones) (hmin : ∀ asset, 0 < minimum asset) :
    Annotation (office rt minimum) AsksPositive (fun _ _ _ => True) (PolicyAccepted zones)
      Grounded (fun _ r => Carries r) where
  entry _ _ _ hentry hr := carries_entry hentry hr
  effect _ _ _ _ _ h hc _ he :=
    ⟨(effect_keeps hmin h hc he).grounded, (effect_keeps hmin h hc he).carries,
      (fun _ _ hr => by cases hr), fun _ hr => hr⟩
  handler _ _ _ _ _ _ hr := by cases hr
  background _ _ _ _ hc := hc
  event _ _ h he := ⟨elsewhere_grounded h he, fun _ hr => hr⟩

/-- In every run in which the operator asks for no minimum of zero, the items that the
planners create are positive, and no fee or journal can fail over a zero amount. -/
theorem items_positive (hmin : ∀ asset, 0 < minimum asset) {s₀ : Office} (h₀ : Fresh minimum s₀)
    {c : Config Office Call}
    (hrun : (office rt minimum).Run (Admits AsksPositive (fun _ _ _ => True) (PolicyAccepted zones))
      (.idle s₀) c) : Positive c.shared.db := by
  have hgrounded : Grounded s₀ := by
    refine ⟨fun asset => ?_, fun asset => ?_, fun asset p hp => ?_, fun i hi => ?_⟩
    · rw [h₀.policy]
      exact hmin asset
    · rw [h₀.operator asset]
      exact hmin asset
    · rw [h₀.opening.pending asset] at hp
      cases hp
    · rw [h₀.opening.items] at hi
      cases hi
  exact positive_of_gross ((annotates rt zones hmin).run hgrounded hrun).1.items

end Run

section Sample

theorem sampleOffice_fresh : Fresh (fun _ => 1) sampleOffice :=
  ⟨DestinationCycle.sampleOffice_opening, rfl, fun _ => rfl⟩

def anyZone : Schedule.Zones := ⟨fun _ => true, fun _ _ => 0, fun _ _ _ => 0, fun _ t => t⟩

def operatorPaid (minPayoutAtomic : Option ℕ) : List (Action Call Reply Elsewhere) :=
  [.call 0 (.updateOperatorPayout (.receive ⟨.btc, .weekly, some "bc1qop", minPayoutAtomic⟩)),
    .resolve 0 {}, .resolve 0 {}, .resolve 0 {},
    .call 0 (.activateDueOperatorPayouts (.readPending .btc [.xmr]) (some .btc)),
    .resolve 0 { now := day }, .resolve 0 { now := day }, .resolve 0 { now := day },
    .resolve 0 { now := day }, .resolve 0 { now := day }, .resolve 0 { now := day }]

def asksPositive : Call → Bool
  | .updateOperatorPayout (.receive dto) => dto.minPayoutAtomic ≠ some 0
  | _ => true

def asksPositiveAct : Action Call Reply Elsewhere → Bool
  | .event _ => false
  | .call _ r => asksPositive r
  | _ => true

theorem asksPositive_admits (c : Config Office Call) (act : Action Call Reply Elsewhere)
    (h : asksPositiveAct act = true) :
    Admits AsksPositive (fun _ _ _ => True) (PolicyAccepted anyZone) c act := by
  cases act with
  | event e => cases h
  | call pid r =>
    change asksPositive r = true at h
    change AsksPositive c.shared r
    unfold asksPositive at h
    unfold AsksPositive
    split at h
    · exact of_decide_eq_true h
    · trivial
  | resolve | rejectAfter => exact fun _ _ => trivial
  | reject | background | stop => trivial

theorem items_positive_sample : ∃ c, (office sampleOfficeRuntime (fun _ => 1)).Run
      (Admits AsksPositive (fun _ _ _ => True) (PolicyAccepted anyZone)) (.idle sampleOffice) c ∧
    (c.shared.db.operatorPayout .btc).minPayoutAtomic = 7 ∧ Positive c.shared.db := by
  have hview : ((office sampleOfficeRuntime (fun _ => 1)).execChecked
      (fun _ act => asksPositiveAct act) (.idle sampleOffice) (operatorPaid (some 7))).map
        (fun c => (c.shared.db.operatorPayout .btc).minPayoutAtomic) = some 7 := by decide +kernel
  obtain ⟨c, hc, hmin⟩ := Option.map_eq_some_iff.mp hview
  have hrun := Machine.execChecked_run asksPositive_admits hc
  exact ⟨c, hrun, hmin, items_positive (fun _ => Nat.one_pos) sampleOffice_fresh hrun⟩

/-- A minimum of zero is accepted, and an item of zero is created. -/
theorem zero_item_planned : ¬ ∀ (minimum : AssetCode → ℕ) (zones : Schedule.Zones) (s₀ : Office)
    (c : Config Office Call), (∀ asset, 0 < minimum asset) → Fresh minimum s₀ →
    (office sampleOfficeRuntime minimum).Run
      (Admits (fun _ _ => True) (fun _ _ _ => True) (PolicyAccepted zones)) (.idle s₀) c →
    Positive c.shared.db := by
  intro h
  have hview : ((office sampleOfficeRuntime (fun _ => 1)).execChecked
      (fun _ act => match act with | .event _ => false | _ => true) (.idle sampleOffice)
        (operatorPaid (some 0))).map
          (fun c => c.shared.db.payoutItems.rows.map PayoutItem.grossAtomic) = some [0] := by
    decide +kernel
  obtain ⟨c, hc, hitems⟩ := Option.map_eq_some_iff.mp hview
  have hrun : (office sampleOfficeRuntime (fun _ => 1)).Run (Admits (fun _ _ => True)
      (fun _ _ _ => True) (PolicyAccepted anyZone)) (.idle sampleOffice) c := by
    refine Machine.execChecked_run (fun d act htest => ?_) hc
    cases act with
    | event e => cases htest
    | resolve | rejectAfter => exact fun _ _ => trivial
    | call | reject | background | stop => trivial
  have hpositive := h _ anyZone sampleOffice c (fun _ => Nat.one_pos) sampleOffice_fresh hrun
  have hzero : 0 ∈ c.shared.db.payoutItems.rows.map PayoutItem.grossAtomic := by
    rw [hitems]
    exact List.mem_singleton.mpr rfl
  obtain ⟨i, hi, hgross⟩ := List.mem_map.mp hzero
  exact absurd (hpositive.gross i hi) (by rw [hgross]; exact lt_irrefl 0)

end Sample

end Bitmine.PositiveItems
