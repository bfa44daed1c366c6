import Bitmine.DestinationCycle

namespace Bitmine.Cooling

open Bitmine.Lib.UniqueTable Bitmine.Lib.Throwing Bitmine.Lib.Await
open Bitmine.Schema Bitmine.Deployment Bitmine.Payouts Bitmine.Destinations
open Bitmine.DestinationCycle (activated activateDestination_ok
  insert_fresh sampleOffice sampleOfficeRuntime)

/-- The address was submitted for the payee and the asset, by the given time. -/
def Submitted (s : Office) (payee : Option Id) (asset : AssetCode) (address : String)
    (time : Instant) : Prop :=
  ∃ x ∈ s.submissions, x.payee = payee ∧ x.asset = asset ∧ x.address = address ∧
    x.submittedAt ≤ time

def Later (s s' : Office) : Prop := s.submissions ⊆ s'.submissions ∧ s.clock ≤ s'.clock

theorem Later.refl (s : Office) : Later s s := ⟨List.Subset.refl _, le_refl _⟩

theorem Submitted.later {s s' : Office} {payee : Option Id} {asset : AssetCode} {address : String}
    {t t' : Instant} (h : Submitted s payee asset address t) (hs : Later s s') (ht : t ≤ t') :
    Submitted s' payee asset address t' := by
  obtain ⟨x, hx, hp, ha, had, htx⟩ := h
  exact ⟨x, hs.1 hx, hp, ha, had, htx.trans ht⟩

theorem submitted_submit (s : Office) (x : Submission) {t : Instant} (ht : x.submittedAt ≤ t) :
    Submitted (s.submit x) x.payee x.asset x.address t :=
  ⟨x, by simp [Office.submit], rfl, rfl, rfl, ht⟩

def Retained (setting : OperatorPayoutSetting) : Prop :=
  setting.mode = .retain ∨ setting.address = ""

/-- Everything stored has cooled, or says when it will have. -/
structure Cooled (s : Office) : Prop where
  destinations : ∀ d ∈ s.db.payoutDestinations.rows,
    Submitted s (some d.customerId) d.asset d.address (d.effectiveAt - day)
  pending : ∀ asset p, s.pendingOperator asset = some p →
    Submitted s none asset p.setting.address (p.effectiveAt - day)
  operator : ∀ asset, Retained (s.db.operatorPayout asset) ∨
    Submitted s none asset (s.db.operatorPayout asset).address (s.clock - day)
  items : ∀ i ∈ s.db.payoutItems.rows, ∃ b ∈ s.db.payoutBatches.rows, b.id = i.batchId ∧
    Submitted s i.customerId b.asset i.destination (b.createdAt - day)

/-- What a call knows of the address it carries. -/
def Carries (s : Office) : Call → Prop
  | .createDestination (.get id dto) =>
    Submitted s (some id) dto.asset (trim dto.address) s.clock
  | .createDestination (.validateAddress id dto) =>
    Submitted s (some id) dto.asset (trim dto.address) s.clock
  | .createDestination (.create id dto effectiveAt) =>
    Submitted s (some id) dto.asset (trim dto.address) (effectiveAt - day)
  | .requestDestination (.validateAddress id dto) =>
    Submitted s (some id) dto.asset (trim dto.address) s.clock
  | .requestDestination (.readPolicy id dto) =>
    Submitted s (some id) dto.asset (trim dto.address) s.clock
  | .requestDestination (.transaction id dto _ effectiveAt) =>
    Submitted s (some id) dto.asset (trim dto.address) (effectiveAt - day)
  | .updateOperatorPayout (.validateAddress dto) =>
    Submitted s none dto.asset dto.trimmed s.clock
  | .updateOperatorPayout (.upsert dto effectiveAt) =>
    Submitted s none dto.asset dto.trimmed (effectiveAt - day)
  | .activateDueOperatorPayouts (.activate asset pending _) _ =>
    Submitted s none asset pending.setting.address (s.clock - day)
  | .planOperator (.readPolicy asset setting) =>
    Retained setting ∨ Submitted s none asset setting.address (s.clock - day)
  | .planOperator (.transaction asset setting _) =>
    Submitted s none asset setting.address (s.clock - day)
  | _ => True

theorem Carries.later {s s' : Office} {r : Call} (h : Carries s r) (hs : Later s s') :
    Carries s' r := by
  unfold Carries at h ⊢
  have hc := hs.2
  split at h
  all_goals first
    | exact trivial
    | exact Submitted.later h hs (le_refl _)
    | exact Submitted.later h hs hc
    | exact Submitted.later h hs (sub_le_sub_right hc day)
    | exact Or.imp_right (fun h => Submitted.later h hs (sub_le_sub_right hc day)) h

/-- The clock does not go back: it stands between the reading and the commit. -/
def Ticks (s : Office) (_ : Call) (a : Reply) : Prop := s.clock ≤ a.now ∧ a.now ≤ a.createdAt

structure Advances (s s' : Office) (o : Option Call) : Prop where
  cooled : Cooled s'
  later : Later s s'
  carries : ∀ r ∈ o, Carries s' r

section Keep

variable {s s' : Office}

theorem Cooled.keep (h : Cooled s) (hs : Later s s')
    (hd : s'.db.payoutDestinations.rows = s.db.payoutDestinations.rows)
    (hi : s'.db.payoutItems.rows = s.db.payoutItems.rows)
    (hb : ∀ b ∈ s.db.payoutBatches.rows, ∃ b' ∈ s'.db.payoutBatches.rows,
      b'.id = b.id ∧ b'.asset = b.asset ∧ b'.createdAt = b.createdAt)
    (ho : s'.db.operatorPayout = s.db.operatorPayout)
    (hp : s'.pendingOperator = s.pendingOperator) : Cooled s' where
  destinations d hm := (h.destinations d (hd ▸ hm)).later hs (le_refl _)
  pending asset p hm := (h.pending asset p (hp ▸ hm)).later hs (le_refl _)
  operator asset := by
    rw [ho]
    have hc := hs.2
    exact (h.operator asset).imp_right (fun h => h.later hs (sub_le_sub_right hc day))
  items i hm := by
    obtain ⟨b, hbm, hid, hsub⟩ := h.items i (hi ▸ hm)
    obtain ⟨b', hb', hid', hasset, hcreated⟩ := hb b hbm
    refine ⟨b', hb', hid'.trans hid, ?_⟩
    rw [hasset, hcreated]
    exact hsub.later hs (le_refl _)

theorem Cooled.keep_db (h : Cooled s) (hs : Later s s') (hd : s'.db = s.db)
    (hp : s'.pendingOperator = s.pendingOperator) : Cooled s' :=
  h.keep hs (by rw [hd]) (by rw [hd]) (fun b hb => ⟨b, hd ▸ hb, rfl, rfl, rfl⟩) (by rw [hd]) hp

theorem Cooled.redirect (h : Cooled s) (hs : Later s s') {t : Table PayoutDestination}
    (hd : s'.db = withDestinations s.db t) (hp : s'.pendingOperator = s.pendingOperator)
    (ht : ∀ d ∈ t.rows, Submitted s' (some d.customerId) d.asset d.address (d.effectiveAt - day)) :
    Cooled s' := by
  have hk : Cooled { s' with db := s.db } := h.keep_db hs rfl hp
  have hsub : ∀ {payee asset address time},
      Submitted { s' with db := s.db } payee asset address time →
        Submitted s' payee asset address time := fun h => h
  refine ⟨?_, fun asset p hm => hsub (hk.pending asset p hm), ?_, ?_⟩
  · rw [hd]
    exact ht
  · rw [hd]
    exact hk.operator
  · rw [hd]
    exact hk.items

theorem Cooled.create (h : Cooled s) (hs : Later s s') {a : Answer} {batch : PayoutBatch}
    {items : List NewItem} (hc : Created a s.db s'.db batch items) (hb : batch.id = a.newId 0)
    (hp : s'.pendingOperator = s.pendingOperator)
    (hi : ∀ i ∈ items,
      Submitted s' i.customerId batch.asset i.destination (batch.createdAt - day)) : Cooled s' := by
  have hk : Cooled { s' with db := s.db } := h.keep_db hs rfl hp
  refine ⟨?_, fun asset p hm => hk.pending asset p hm, ?_, ?_⟩
  · rw [hc.frame]
    exact hk.destinations
  · rw [hc.frame]
    exact hk.operator
  · intro i hm
    rw [hc.items, List.mem_append, List.mem_mapIdx] at hm
    obtain hm | ⟨n, hn, rfl⟩ := hm
    · obtain ⟨b, hbm, hid, hsub⟩ := hk.items i hm
      exact ⟨b, by rw [hc.batches]; exact List.mem_append_left _ hbm, hid, hsub⟩
    · refine ⟨batch, by simp [hc.batches], hb, ?_⟩
      exact hi _ (List.getElem_mem hn)

end Keep

section Effects

variable {rt : Runtime} {minimum : AssetCode → ℕ} {s s' : Office} {a : Reply}

theorem later_tick (hd : s'.submissions = s.submissions) {r : Call} (ht : Ticks s r a) : Later s (s'.tick a.createdAt) := by
  refine ⟨?_, ht.1.trans ht.2⟩
  simp [Office.tick, hd]

theorem later_submit {x : Submission} {r : Call} (ht : Ticks s r a) :
    Later s ((s.submit x).tick a.createdAt) := by
  refine ⟨?_, ht.1.trans ht.2⟩
  simp [Office.tick, Office.submit]

theorem Cooled.tick (h : Cooled s) {r : Call} (ht : Ticks s r a) {o : Option Call}
    (ho : ∀ r' ∈ o, Carries (s.tick a.createdAt) r') : Advances s (s.tick a.createdAt) o :=
  ⟨h.keep_db (later_tick rfl ht) rfl rfl, later_tick rfl ht, ho⟩

theorem Cooled.submit (h : Cooled s) {r : Call} (ht : Ticks s r a) {x : Submission}
    {o : Option Call} (ho : ∀ r' ∈ o, Carries ((s.submit x).tick a.createdAt) r') :
    Advances s ((s.submit x).tick a.createdAt) o :=
  ⟨h.keep_db (later_submit ht) rfl rfl, later_submit ht, ho⟩

theorem create_advances {c : CreateCall} {o : Option CreateCall} (h : Cooled s)
    (hc : Carries s (.createDestination c)) (ht : Ticks s (.createDestination c) a)
    (he : createDestination minimum s c a = .ok (s', o)) :
    Advances s (s'.tick a.createdAt) (o.map .createDestination) := by
  cases c with
  | receive id dto =>
    cases he
    apply h.submit ht
    rintro r ⟨⟩
    exact submitted_submit s _ ht.2
  | get id dto =>
    simp only [createDestination, bind_eq_ok, pure_eq_ok] at he
    obtain ⟨_, _, he⟩ := he
    cases he
    apply h.tick ht
    rintro r ⟨⟩
    exact Submitted.later hc (later_tick rfl ht) (ht.1.trans ht.2)
  | validateAddress id dto =>
    simp only [createDestination] at he
    split at he
    · cases he
      apply h.tick ht
      rintro r ⟨⟩
      apply Submitted.later hc (later_tick rfl ht)
      rw [add_sub_cancel_right]
      exact ht.1
    · cases he
  | create id dto effectiveAt =>
    simp only [createDestination, bind_eq_ok, orThrow_eq_ok, pure_eq_ok] at he
    obtain ⟨t, hi, he⟩ := he
    cases he
    have hl : Later s ((s.store (withDestinations s.db t)).tick a.createdAt) :=
      later_tick rfl ht
    refine ⟨h.redirect hl rfl rfl (fun d hd => ?_), hl, fun _ h => by cases h⟩
    rw [(insert_fresh hi).1, List.mem_append, List.mem_singleton] at hd
    obtain hd | rfl := hd
    · exact (h.destinations d hd).later hl (le_refl _)
    · exact Submitted.later hc hl (le_refl _)

theorem request_advances {c : RequestCall} {o : Option RequestCall} (h : Cooled s)
    (hc : Carries s (.requestDestination c)) (ht : Ticks s (.requestDestination c) a)
    (he : requestDestination s c a = .ok (s', o)) :
    Advances s (s'.tick a.createdAt) (o.map .requestDestination) := by
  cases c with
  | authenticate dto =>
    simp only [requestDestination, bind_eq_ok, pure_eq_ok] at he
    obtain ⟨x, _, he⟩ := he
    cases he
    apply h.submit ht
    rintro r ⟨⟩
    exact submitted_submit s _ ht.2
  | validateAddress id dto =>
    simp only [requestDestination] at he
    split at he
    · cases he
      apply h.tick ht
      rintro r ⟨⟩
      exact Submitted.later hc (later_tick rfl ht) (ht.1.trans ht.2)
    · cases he
  | readPolicy id dto =>
    simp only [requestDestination] at he
    split at he
    · cases he
    · cases he
      apply h.tick ht
      rintro r ⟨⟩
      apply Submitted.later hc (later_tick rfl ht)
      rw [add_sub_cancel_right]
      exact ht.1
  | transaction id dto least effectiveAt =>
    simp only [requestDestination, bind_eq_ok, orThrow_eq_ok, pure_eq_ok] at he
    obtain ⟨t, hi, he⟩ := he
    cases he
    have hl : Later s ((s.store (withDestinations s.db t)).tick a.createdAt) :=
      later_tick rfl ht
    refine ⟨h.redirect hl rfl rfl (fun d hd => ?_), hl, fun _ h => by cases h⟩
    rw [(insert_fresh hi).1, List.mem_append, List.mem_singleton] at hd
    obtain hd | rfl := hd
    · obtain ⟨x, hx, rfl⟩ := Table.mem_update hd
      have hsub := (h.destinations x hx).later hl (le_refl _)
      split <;> exact hsub
    · exact Submitted.later hc hl (le_refl _)

theorem activate_advances {db : Database} {due : PayoutDestination} {o : Option Call} {r : Call}
    (h : Cooled s) (ht : Ticks s r a) (he : activateDestination s.db a.now due = .ok db)
    (ho : ∀ r' ∈ o, ∀ x, Carries x r') :
    Advances s ((s.store db).tick a.createdAt) o := by
  have hl : Later s ((s.store db).tick a.createdAt) := later_tick rfl ht
  have hrows := (activateDestination_ok he).2
  simp only [activateDestination, bind_eq_ok, pure_eq_ok] at he
  obtain ⟨_, _, rfl⟩ := he
  refine ⟨h.redirect hl rfl rfl (fun d hd => ?_), hl, fun r' hr' => ho r' hr' _⟩
  obtain ⟨x, hx, rfl⟩ := List.mem_map.mp (hrows ▸ hd)
  have hsub := (h.destinations x hx).later hl (le_refl _)
  rw [activated]
  split <;> split <;> exact hsub

theorem carries_activateRest {l : List PayoutDestination} :
    ∀ r ∈ (activateRest l).map Call.activateDueDestinations, ∀ x, Carries x r := by
  intro r hr x
  cases l <;> cases hr
  trivial

theorem carries_activateNext {asset : AssetCode} {l : List PayoutDestination} :
    ∀ r ∈ (some (activateNext asset l)).map Call.plan, ∀ x, Carries x r := by
  intro r hr x
  cases hr
  cases l <;> trivial

theorem activateDue_advances {c : ActivateCall} {o : Option ActivateCall} (h : Cooled s)
    (ht : Ticks s (.activateDueDestinations c) a)
    (he : activateDueDestinations s c a = .ok (s', o)) :
    Advances s (s'.tick a.createdAt) (o.map .activateDueDestinations) := by
  cases c with
  | listDue =>
    cases he
    exact h.tick ht (fun r hr => carries_activateRest r hr _)
  | activate due rest =>
    simp only [activateDueDestinations, bind_eq_ok, pure_eq_ok] at he
    obtain ⟨db, hd, he⟩ := he
    cases he
    exact activate_advances h ht hd carries_activateRest

theorem planTransaction_due {x : Answer} {db db' : Database} {asset : AssetCode}
    {policy : PayoutPolicySetting} (h : planTransaction rt x db asset policy = .ok db') :
    db' = db ∨ ∃ batch items, Created x db db' batch items ∧ batch.id = x.newId 0 ∧
      batch.asset = asset ∧ batch.createdAt = x.createdAt ∧
      ∀ i ∈ items, ∃ d ∈ db.payoutDestinations.rows, d.asset = asset ∧ d.effectiveAt ≤ x.now ∧
        i.customerId = some d.customerId ∧ i.destination = d.address := by
  rw [planTransaction] at h
  dsimp only at h
  split at h
  · cases h
    exact .inl rfl
  · refine .inr ⟨_, _, createBatch_ok h, rfl, rfl, rfl, fun i hi => ?_⟩
    obtain ⟨d, hd, hp⟩ := List.mem_filterMap.mp hi
    have hd := List.mem_of_mem_take hd
    rw [List.mem_insertionSort, List.mem_filter] at hd
    obtain ⟨hm, hf⟩ := hd
    simp only [decide_eq_true_eq, Bool.decide_and, Bool.and_eq_true] at hf
    refine ⟨d, (x.destinationOrder.perm _).mem_iff.mp hm, hf.1, hf.2.2.1, ?_⟩
    unfold planItem at hp
    dsimp only at hp
    split at hp <;> cases hp
    exact ⟨rfl, rfl⟩

theorem plan_advances {c : PlanCall} {db : Database} {o : Option PlanCall} (h : Cooled s)
    (ht : Ticks s (.plan c) a) (he : stepPlan rt s.db c a.toAnswer = .ok (db, o)) :
    Advances s ((s.store db).tick a.createdAt) (o.map .plan) := by
  cases c with
  | listDue asset =>
    cases he
    exact h.tick ht (fun r hr => carries_activateNext r hr _)
  | activate asset due rest =>
    simp only [stepPlan, bind_eq_ok, pure_eq_ok] at he
    obtain ⟨db, hd, he⟩ := he
    cases he
    exact activate_advances h ht hd carries_activateNext
  | readPolicy asset =>
    cases he
    apply h.tick ht
    rintro r ⟨⟩
    trivial
  | transaction asset policy =>
    simp only [stepPlan, bind_eq_ok, pure_eq_ok] at he
    obtain ⟨db, hd, he⟩ := he
    cases he
    have hl : Later s ((s.store db).tick a.createdAt) := later_tick rfl ht
    obtain rfl | ⟨batch, items, hnew, hid, hasset, hat, hi⟩ := planTransaction_due hd
    · exact h.tick ht (fun _ h => by cases h)
    · refine ⟨h.create hl hnew hid rfl (fun i him => ?_), hl, fun _ h => by cases h⟩
      obtain ⟨d, hdm, hda, hdue, hcust, hdest⟩ := hi i him
      rw [hcust, hdest, hasset, hat, ← hda]
      -- due at the reading, the item is created a day after the submission
      exact (h.destinations d hdm).later hl (sub_le_sub_right (hdue.trans ht.2) day)

theorem update_advances {c : UpdateCall} {o : Option UpdateCall} (h : Cooled s)
    (hc : Carries s (.updateOperatorPayout c)) (ht : Ticks s (.updateOperatorPayout c) a)
    (he : updateOperatorPayout minimum s c a = .ok (s', o)) :
    Advances s (s'.tick a.createdAt) (o.map .updateOperatorPayout) := by
  cases c with
  | receive dto =>
    simp only [updateOperatorPayout] at he
    split at he
    · cases he
      apply h.submit ht
      rintro r ⟨⟩
      apply submitted_submit s _
      rw [add_sub_cancel_right]
    · split at he
      · cases he
      · cases he
        apply h.submit ht
        rintro r ⟨⟩
        exact submitted_submit s _ ht.2
  | validateAddress dto =>
    simp only [updateOperatorPayout] at he
    split at he
    · cases he
      apply h.tick ht
      rintro r ⟨⟩
      apply Submitted.later hc (later_tick rfl ht)
      rw [add_sub_cancel_right]
      exact ht.1
    · cases he
  | upsert dto effectiveAt =>
    cases he
    have hl : Later s ((s.pend dto.asset (some ⟨dto.setting minimum, effectiveAt⟩)).tick
      a.createdAt) := later_tick rfl ht
    have hk : Cooled (s.tick a.createdAt) := h.keep_db hl rfl rfl
    refine ⟨⟨hk.destinations, fun asset p hp => ?_, hk.operator, hk.items⟩, hl,
      fun _ h => by cases h⟩
    simp only [Office.pend, Office.tick, Function.update_apply] at hp
    split at hp
    · subst asset
      cases hp
      exact Submitted.later hc hl (le_refl _)
    · exact hk.pending asset p hp

theorem carries_readRest {planFor : Option AssetCode} {l : List AssetCode} :
    ∀ r ∈ continueOperator planFor (readRest l), ∀ x, Carries x r := by
  intro r hr x
  cases l with
  | nil =>
    obtain ⟨asset, _, rfl⟩ := Option.map_eq_some_iff.mp hr
    trivial
  | cons asset rest =>
    cases hr
    trivial

theorem activateOperator_advances {c : OperatorActivation} {planFor : Option AssetCode}
    {o : Option OperatorActivation} (h : Cooled s)
    (hc : Carries s (.activateDueOperatorPayouts c planFor))
    (ht : Ticks s (.activateDueOperatorPayouts c planFor) a)
    (he : activateDueOperatorPayouts s c a = .ok (s', o)) :
    Advances s (s'.tick a.createdAt) (continueOperator planFor o) := by
  cases c with
  | readPending asset rest =>
    simp only [activateDueOperatorPayouts] at he
    split at he
    · cases he
      exact h.tick ht (fun r hr => carries_readRest r hr _)
    · rename_i pending hpending
      split at he
      · cases he
        exact h.tick ht (fun r hr => carries_readRest r hr _)
      · rename_i hdue
        cases he
        apply h.tick ht
        rintro r ⟨⟩
        apply (h.pending asset pending hpending).later (later_tick rfl ht)
        exact sub_le_sub_right ((not_lt.mp hdue).trans ht.2) day
  | activate asset pending rest =>
    simp only [activateDueOperatorPayouts, bind_eq_ok, pure_eq_ok] at he
    obtain ⟨_, _, he⟩ := he
    cases he
    have hl : Later s ((((s.store (withOperatorPayout s.db asset pending.setting)).pend asset
      none)).tick a.createdAt) := later_tick rfl ht
    have hk : Cooled (s.tick a.createdAt) := h.keep_db hl rfl rfl
    refine ⟨⟨hk.destinations, fun asset' p hp => ?_, fun asset' => ?_, hk.items⟩, hl,
      fun r hr => carries_readRest r hr _⟩
    · simp only [Office.pend, Office.store, Office.tick, Function.update_apply] at hp
      split at hp
      · cases hp
      · exact hk.pending asset' p hp
    · simp only [Office.pend, Office.store, Office.tick, withOperatorPayout, Function.update_apply]
      split
      · subst asset'
        exact .inr (Submitted.later hc hl (sub_le_sub_right hl.2 day))
      · exact hk.operator asset'

theorem planOperatorTransaction_item {x : Answer} {db db' : Database} {asset : AssetCode}
    {setting : OperatorPayoutSetting} {policy : PayoutPolicySetting}
    (h : planOperatorTransaction rt x db asset setting policy = .ok db') :
    db' = db ∨ ∃ batch amount, Created x db db' batch [⟨none, setting.address, amount⟩] ∧
      batch.id = x.newId 0 ∧ batch.asset = asset ∧ batch.createdAt = x.createdAt := by
  rw [planOperatorTransaction] at h
  dsimp only at h
  split at h
  · cases h
    exact .inl rfl
  · exact .inr ⟨_, _, createBatch_ok h, rfl, rfl, rfl⟩

theorem planOperator_advances {c : OperatorCall} {db : Database} {o : Option OperatorCall}
    (h : Cooled s) (hc : Carries s (.planOperator c)) (ht : Ticks s (.planOperator c) a)
    (he : stepOperator rt s.db c a.toAnswer = .ok (db, o)) :
    Advances s ((s.store db).tick a.createdAt) (o.map .planOperator) := by
  have hday : s.clock - day ≤ a.createdAt - day := sub_le_sub_right (ht.1.trans ht.2) day
  cases c with
  | readSetting asset =>
    cases he
    apply h.tick ht
    rintro r ⟨⟩
    exact (h.operator asset).imp_right (fun hs => hs.later (later_tick rfl ht) hday)
  | readPolicy asset setting =>
    simp only [stepOperator] at he
    split at he
    · cases he
    · rename_i hpays
      cases he
      apply h.tick ht
      rintro r ⟨⟩
      exact Submitted.later (Or.resolve_left hc hpays) (later_tick rfl ht) hday
  | transaction asset setting policy =>
    simp only [stepOperator, bind_eq_ok, pure_eq_ok] at he
    obtain ⟨db, hd, he⟩ := he
    cases he
    have hl : Later s ((s.store db).tick a.createdAt) := later_tick rfl ht
    obtain rfl | ⟨batch, amount, hnew, hid, hasset, hat⟩ := planOperatorTransaction_item hd
    · exact h.tick ht (fun _ h => by cases h)
    · refine ⟨h.create hl hnew hid rfl (fun i hi => ?_), hl, fun _ h => by cases h⟩
      rw [List.mem_singleton.mp hi, hasset, hat]
      exact Submitted.later hc hl hday

theorem effect_advances {r : Call} {o : Option Call} (h : Cooled s) (hc : Carries s r)
    (ht : Ticks s r a) (he : effect rt minimum s r a = .ok (s', o)) : Advances s s' o := by
  obtain ⟨⟨s₁, o₁⟩, hserve, he⟩ := map_eq_ok.mp he
  cases he
  cases r with
  | createDestination c =>
    obtain ⟨⟨s₂, o₂⟩, hs, he⟩ := map_eq_ok.mp hserve
    cases he
    exact create_advances h hc ht hs
  | requestDestination c =>
    obtain ⟨⟨s₂, o₂⟩, hs, he⟩ := map_eq_ok.mp hserve
    cases he
    exact request_advances h hc ht hs
  | activateDueDestinations c =>
    obtain ⟨⟨s₂, o₂⟩, hs, he⟩ := map_eq_ok.mp hserve
    cases he
    exact activateDue_advances h ht hs
  | plan c =>
    obtain ⟨⟨db, o₂⟩, hs, he⟩ := map_eq_ok.mp hserve
    cases he
    exact plan_advances h ht hs
  | updateOperatorPayout c =>
    obtain ⟨⟨s₂, o₂⟩, hs, he⟩ := map_eq_ok.mp hserve
    cases he
    exact update_advances h hc ht hs
  | activateDueOperatorPayouts c planFor =>
    obtain ⟨⟨s₂, o₂⟩, hs, he⟩ := map_eq_ok.mp hserve
    cases he
    exact activateOperator_advances h hc ht hs
  | planOperator c =>
    obtain ⟨⟨db, o₂⟩, hs, he⟩ := map_eq_ok.mp hserve
    cases he
    exact planOperator_advances h hc ht hs

end Effects

theorem elsewhere_cooled {s : Office} (h : Cooled s) (e : Elsewhere) : Cooled (elsewhere s e) := by
  cases e with
  | customers t | policy p | ledger accounts journal =>
    exact h.keep (Later.refl s) rfl rfl (fun b hb => ⟨b, hb, rfl, rfl, rfl⟩) rfl rfl
  | progress state =>
    refine h.keep (Later.refl s) rfl rfl (fun b hb => ?_) rfl rfl
    exact ⟨_, List.mem_map_of_mem hb, rfl, rfl, rfl⟩

theorem elsewhere_later (s : Office) (e : Elsewhere) : Later s (elsewhere s e) := by
  cases e <;> exact Later.refl s

theorem carries_entry {s : Office} {r : Call} (h : r.entry = true) : Carries s r := by
  unfold Call.entry at h
  split at h <;> trivial

theorem outline (rt : Runtime) (minimum : AssetCode → ℕ) :
    Outline (office rt minimum) (shared (ρ := Call)) Ticks (fun _ _ => True) Cooled Carries
      (fun _ => Later) where
  entry _ _ _ hr := carries_entry hr
  effect s r a s' o h hc ht he := by
    have hadv := effect_advances h hc ht he
    exact ⟨hadv.cooled, hadv.later, hadv.carries, fun _ _ h => by cases h⟩
  handler _ _ _ _ _ _ h := by cases h
  background _ _ _ _ hc := hc
  event s e h _ := ⟨elsewhere_cooled h e, fun _ hc => hc.later (elsewhere_later s e)⟩
  stable _ _ _ _ _ hg _ hc := hc.later hg

theorem cooled_opening {s : Office} (h : s.Opening) : Cooled s where
  destinations d hd := by
    rw [h.destinations] at hd
    cases hd
  pending asset p hp := by
    rw [h.pending] at hp
    cases hp
  operator asset := .inl (.inl (h.operator asset).1)
  items i hi := by
    rw [h.items] at hi
    cases hi

/-- Whoever is paid, the address of every item was submitted for the payee and
the asset of its batch at least a day before the item was created. -/
theorem payout_addresses_cooled {rt : Runtime} {minimum : AssetCode → ℕ} {s₀ : Office}
    (h₀ : s₀.Opening) {c : Config Office Call}
    (hc : (office rt minimum).Run (Allowed (shared (ρ := Call)) Ticks (fun _ _ => True))
      (.idle s₀) c) :
    ∀ i ∈ c.shared.db.payoutItems.rows, ∃ b ∈ c.shared.db.payoutBatches.rows, b.id = i.batchId ∧
      ∃ x ∈ c.shared.submissions, x.payee = i.customerId ∧ x.asset = b.asset ∧
        x.address = i.destination ∧ x.submittedAt ≤ b.createdAt - 24 * 60 * 60000 :=
  ((outline rt minimum).run (keyed_shared _) (Outline.idle (cooled_opening h₀)) hc).inv.items

section Sample

def creditedOffice : Office :=
  sampleOffice.store (sampleOffice.db.withLedger .empty (.single
    ⟨1, .btc, .allocation, .allocationBatch 1,
      [⟨⟨.btc, .allocationClearing⟩, .debit, 1000⟩, ⟨⟨.btc, .customerLiability 1⟩, .credit, 800⟩,
        ⟨⟨.btc, .operatorRevenue⟩, .credit, 200⟩]⟩))

theorem creditedOffice_opening : creditedOffice.Opening :=
  ⟨rfl, rfl, fun _ => ⟨rfl, rfl⟩, fun _ => rfl⟩

def answerAt (t : Instant) : Action Call Reply Elsewhere := .resolve 0 { now := t, createdAt := t }

def paidNextDay : List (Action Call Reply Elsewhere) :=
  .call 0 (.createDestination (.receive 1 ⟨.btc, " bc1qpayee ", none⟩)) ::
    [0, 1, 2].map answerAt ++
  [.resolve 0 { now := 3, createdAt := 3, newId := fun _ => 1 },
    .call 0 (.updateOperatorPayout (.receive ⟨.btc, .daily, some "bc1qcold", none⟩))] ++
    [4, 5, 6].map answerAt ++
  .call 0 (.plan (.listDue .btc)) :: [86400002, 86400003, 86400004].map answerAt ++
  [.resolve 0 { now := 86400005, createdAt := 86400005, newId := fun n => n + 10 },
    .call 0 (.activateDueOperatorPayouts (.readPending .btc [.xmr]) (some .btc))] ++
    [86400006, 86400007, 86400008, 86400009, 86400010].map answerAt ++
  [.resolve 0 { now := 86400011, createdAt := 86400011, newId := fun n => n + 20 }]

def destinationsPaid (c : Config Office Call) : List (Option Id × String) :=
  c.shared.db.payoutItems.rows.map (fun i => (i.customerId, i.destination))

theorem payout_addresses_cooled_sample : ∃ c, (office sampleOfficeRuntime (fun _ => 1)).Run
    (Allowed (shared (ρ := Call)) Ticks (fun _ _ => True)) (.idle creditedOffice) c ∧
    destinationsPaid c = [(some 1, "bc1qpayee"), (none, "bc1qcold")] ∧
    ∀ i ∈ c.shared.db.payoutItems.rows, ∃ b ∈ c.shared.db.payoutBatches.rows, b.id = i.batchId ∧
      ∃ x ∈ c.shared.submissions, x.payee = i.customerId ∧ x.asset = b.asset ∧
        x.address = i.destination ∧ x.submittedAt ≤ b.createdAt - 24 * 60 * 60000 := by
  have h : ((office sampleOfficeRuntime (fun _ => 1)).execAlone
      (fun s _ a => s.clock ≤ a.now ∧ a.now ≤ a.createdAt) (.idle creditedOffice)
        paidNextDay).map destinationsPaid =
      some [(some 1, "bc1qpayee"), (none, "bc1qcold")] := by decide +kernel
  obtain ⟨c, hc, hv⟩ := Option.map_eq_some_iff.mp h
  have hrun := (Machine.execAlone_run (shared (ρ := Call)) (P := Ticks) (Q := fun _ _ => True)
    (fun _ _ _ ht => by simpa [Ticks] using ht) (fun _ _ => rfl) hc).1
  exact ⟨c, hrun, hv, payout_addresses_cooled creditedOffice_opening hrun⟩

end Sample

end Bitmine.Cooling
