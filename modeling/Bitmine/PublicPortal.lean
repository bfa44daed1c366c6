import Bitmine.BatchPlanning

namespace Bitmine.PublicPortal

open Bitmine.Lib.UniqueTable Bitmine.Lib.Throwing Bitmine.Lib.Await
open Bitmine.Schema Bitmine.Deployment Bitmine.Ledger Bitmine.Payouts
open Bitmine.DestinationCycle Bitmine.LatestDue Bitmine.BatchPlanning

section Summary

def reservedPayoutStates : List PayoutState :=
  [.planned, .approvalRequired, .autoApproved, .signed, .broadcast, .failed]

structure Balance where
  asset : AssetCode
  confirmedAtomic : ℤ
  reservedAtomic : ℤ
  payableAtomic : ℤ
  pendingAcceptedShares : ℕ
  pendingAcceptedWork : ℚ

structure SafeDestination where
  id : Id
  asset : AssetCode
  address : String
  status : DestinationStatus
  effectiveAt : Instant
  minPayoutAtomic : ℕ

structure SummaryBalance extends Balance where
  minimumAtomic : ℕ
  eligibleAtNextRun : Bool
  autoApprovalConfigured : Bool
  activeDestination : Option SafeDestination
  pendingDestination : Option SafeDestination

def maskAddress (address : String) : String :=
  let cs := address.toList
  let ends (n : ℕ) := String.ofList (cs.take n ++ '…' :: cs.drop (cs.length - n))
  if cs.length ≤ 16 then ends 4 else ends 8

def safeDestination (d : PayoutDestination) : SafeDestination :=
  ⟨d.id, d.asset, maskAddress d.address, d.status, d.effectiveAt, d.minPayoutAtomic⟩

def balance (db : Database) (customerId : Id) (asset : AssetCode) : Balance :=
  let confirmed := customerBalance db customerId asset
  let reservedAtomic := ((db.payoutItems.rows.filter (fun i => i.customerId = some customerId ∧
    db.payoutBatches.rows.any (fun b => b.id = i.batchId ∧ b.asset = asset ∧
      b.state ∈ reservedPayoutStates))).map PayoutItem.grossAtomic).sum
  let pending := db.shareEvents.rows.filter (fun e => e.customerId = customerId ∧
    e.asset = asset ∧ e.status = .accepted ∧ e.allocationBatchId = none)
  let payableAtomic := confirmed - reservedAtomic
  ⟨asset, confirmed, reservedAtomic, if 0 < payableAtomic then payableAtomic else 0,
    pending.length, (pending.map ShareEvent.normalizedWork).sum⟩

def destinations (a : Answer) (db : Database) (customerId : Id) : List PayoutDestination :=
  ((a.destinationOrder.arrange db.payoutDestinations.rows).filter (fun d =>
    d.customerId = customerId ∧ d.status ≠ .revoked)).insertionSort
      (fun d e => e.createdAt ≤ d.createdAt)

/-- What `summary` adds to a balance. -/
def summaryBalance (policy : PayoutPolicySetting) (destinations : List PayoutDestination)
    (balance : Balance) : SummaryBalance :=
  let assetDestinations := destinations.filter (fun d => d.asset = balance.asset)
  let active := assetDestinations.find? (fun d => d.status = .active)
  let pending := assetDestinations.find? (fun d => d.status = .pending)
  let policyMinimum := policy.minimumAtomic balance.asset
  let effectiveMinimum : ℕ := match active with
    | some d => if policyMinimum < d.minPayoutAtomic then d.minPayoutAtomic else policyMinimum
    | none => policyMinimum
  { balance with
    minimumAtomic := effectiveMinimum
    eligibleAtNextRun := active.isSome && decide ((effectiveMinimum : ℤ) ≤ balance.payableAtomic)
    autoApprovalConfigured := decide (0 < policy.dailyAutoLimitAtomic balance.asset)
    activeDestination := active.map safeDestination
    pendingDestination := pending.map safeDestination }

def summary (a : Answer) (db : Database) (customerId : Id) : List SummaryBalance :=
  [.btc, .xmr].map (fun asset =>
    summaryBalance db.payoutPolicy (destinations a db customerId) (balance db customerId asset))

end Summary

section Next

def shownActive (a : Answer) (db : Database) (customerId : Id) (asset : AssetCode) :
    Option PayoutDestination :=
  ((destinations a db customerId).filter (fun d => d.asset = asset)).find?
    (fun d => d.status = .active)

/-- What is available for a customer reaches the minimum of a destination and that of the
policy. -/
def Reaches (db : Database) (asset : AssetCode) (amount : ℤ) (d : PayoutDestination) : Prop :=
  ((max d.minPayoutAtomic (db.payoutPolicy.minimumAtomic asset) : ℕ) : ℤ) ≤ amount

/-- The destination shown as active reaches its minimum, counting no less than nothing. -/
def ShownReaches (a : Answer) (db : Database) (customerId : Id) (asset : AssetCode) : Prop :=
  ∃ d ∈ shownActive a db customerId asset, Reaches db asset (max 0 (available db customerId asset)) d

def lastFor (l : List PayoutDestination) (customerId : Id) (asset : AssetCode) :
    Option PayoutDestination :=
  (l.filter (fun d => d.customerId = customerId ∧ d.asset = asset)).getLast?

/-- The due destination that is listed last, or else an active one in effect, reaches its
minimum. -/
def NextReaches (a : Answer) (db : Database) (customerId : Id) (asset : AssetCode) : Prop :=
  match lastFor (dueRows a db.payoutDestinations) customerId asset with
  | some w => Reaches db asset (available db customerId asset) w
  | none => ∃ d ∈ db.payoutDestinations.rows, d.customerId = customerId ∧ d.asset = asset ∧
      d.status = .active ∧ d.effectiveAt ≤ a.now ∧
        Reaches db asset (available db customerId asset) d

variable {a x : Answer} {db db' : Database} {customerId : Id} {asset : AssetCode}

theorem mem_destinations {d : PayoutDestination} : d ∈ destinations a db customerId ↔
    d ∈ db.payoutDestinations.rows ∧ d.customerId = customerId ∧ d.status ≠ .revoked := by
  rw [destinations, List.mem_insertionSort, List.mem_filter,
    (a.destinationOrder.perm _).mem_iff, decide_eq_true_eq]

theorem mem_shownActive {d : PayoutDestination} (h : shownActive a db customerId asset = some d) :
    d ∈ db.payoutDestinations.rows ∧ d.customerId = customerId ∧ d.asset = asset ∧
      d.status = .active := by
  obtain ⟨hm, hasset⟩ := List.mem_filter.mp (List.mem_of_find?_eq_some h)
  obtain ⟨hd, hcustomer, _⟩ := mem_destinations.mp hm
  exact ⟨hd, hcustomer, of_decide_eq_true hasset,
    of_decide_eq_true (List.find?_some (p := fun d : PayoutDestination => decide (d.status = .active)) h)⟩

theorem payable_eq (db : Database) (customerId : Id) (asset : AssetCode) :
    (balance db customerId asset).payableAtomic = max 0 (available db customerId asset) := by
  have hamount : (balance db customerId asset).payableAtomic =
      if 0 < available db customerId asset then available db customerId asset else 0 := rfl
  rw [hamount]
  split <;> omega

/-- A summary promises what the destination that it shows as active allows. -/
theorem eligible_iff {b : SummaryBalance} (hb : b ∈ summary a db customerId)
    (hasset : b.asset = asset) :
    b.payableAtomic = max 0 (available db customerId asset) ∧
      (b.eligibleAtNextRun = true ↔ ShownReaches a db customerId asset) := by
  obtain ⟨asset', _, rfl⟩ := List.mem_map.mp hb
  obtain rfl : asset' = asset := hasset
  refine ⟨payable_eq db customerId asset', ?_⟩
  have hpay := payable_eq db customerId asset'
  unfold ShownReaches Reaches shownActive
  rw [← hpay]
  simp only [summaryBalance]
  have hbal : (balance db customerId asset').asset = asset' := rfl
  rw [hbal]
  cases hs : ((destinations a db customerId).filter (fun d => d.asset = asset')).find?
      (fun d => d.status = .active) with
  | none => simp
  | some d =>
    have hmax : (if db.payoutPolicy.minimumAtomic asset' < d.minPayoutAtomic then
        d.minPayoutAtomic else db.payoutPolicy.minimumAtomic asset') =
          max d.minPayoutAtomic (db.payoutPolicy.minimumAtomic asset') := by
      split <;> omega
    simp [hmax]

theorem lastOf_eq (l : List PayoutDestination) (d : PayoutDestination) :
    lastOf l d = lastFor l d.customerId d.asset := rfl

theorem mem_of_lastFor {l : List PayoutDestination} {w : PayoutDestination}
    (h : lastFor l customerId asset = some w) :
    w ∈ l ∧ w.customerId = customerId ∧ w.asset = asset := by
  have hm := List.mem_filter.mp (List.mem_of_getLast? h)
  exact ⟨hm.1, of_decide_eq_true hm.2⟩

/-- Once the due destinations are activated, a customer has an active one in effect that
reaches its minimum exactly when the next one does. -/
theorem reaches_iff_next {t' : Table PayoutDestination}
    (h : Completed a db.payoutDestinations t') :
    (∃ d ∈ t'.rows, d.customerId = customerId ∧ d.asset = asset ∧ d.status = .active ∧
      d.effectiveAt ≤ a.now ∧ Reaches db asset (available db customerId asset) d) ↔
      NextReaches a db customerId asset := by
  rw [NextReaches]
  cases hl : lastFor (dueRows a db.payoutDestinations) customerId asset with
  | none =>
    -- nothing is due for the customer and asset, so their rows are as they were
    constructor
    · rintro ⟨d', hd', hcustomer, hasset, hactive, heffective, hreach⟩
      obtain ⟨d, hd, xs, rfl, hstatus⟩ := h.status hd'
      obtain ⟨hdc, hda⟩ := (activatedBy_keeps xs d).2
      obtain ⟨hde, hmin⟩ := activatedBy_terms xs d
      have hc : d.customerId = customerId := hdc.symm.trans hcustomer
      have ha : d.asset = asset := hda.symm.trans hasset
      rw [lastOf_eq, hc, ha, hl] at hstatus
      rw [hde] at heffective
      rw [Reaches, hmin] at hreach
      exact ⟨d, hd, hc, ha, hstatus.symm.trans hactive, heffective, hreach⟩
    · rintro ⟨d, hd, rfl, rfl, hactive, heffective, hreach⟩
      obtain ⟨xs, hd', hstatus⟩ := h.row hd
      obtain ⟨hdc, hda⟩ := (activatedBy_keeps xs d).2
      obtain ⟨hde, hmin⟩ := activatedBy_terms xs d
      rw [lastOf_eq, hl] at hstatus
      refine ⟨_, hd', hdc, hda, hstatus.trans hactive, ?_, ?_⟩
      · rwa [hde]
      · rwa [Reaches, hmin]
  | some w =>
    obtain ⟨hw, rfl, rfl⟩ := mem_of_lastFor hl
    constructor
    · rintro ⟨d', hd', hcustomer, hasset, hactive, _, hreach⟩
      obtain ⟨d, hd, xs, rfl, hstatus⟩ := h.status hd'
      obtain ⟨hdc, hda⟩ := (activatedBy_keeps xs d).2
      have hlast : lastFor (dueRows a db.payoutDestinations) d.customerId d.asset = some w := by
        rw [← hdc, ← hda, hcustomer, hasset, hl]
      rw [lastOf_eq, hlast, hactive] at hstatus
      have hid : w.id = d.id := by
        by_contra hne
        simp only [hne, ↓reduceIte] at hstatus
        split at hstatus <;> cases hstatus
      obtain rfl : w = d := db.payoutDestinations.eq_of_id (mem_dueRows.mp hw).1 hd hid
      rwa [Reaches, (activatedBy_terms xs w).2] at hreach
    · intro hreach
      obtain ⟨ws, hw', _, hactive⟩ := h.last (d := w) hl
      obtain ⟨_, hsame⟩ := activatedBy_keeps ws w
      obtain ⟨heffective, hmin⟩ := activatedBy_terms ws w
      refine ⟨_, hw', hsame.1, hsame.2, hactive, ?_, ?_⟩
      · rw [heffective]
        exact (mem_dueRows.mp hw).2.2
      · rw [Reaches, hmin]
        exact hreach

end Next

section Agreement

variable {rt : Runtime} {a x : Answer} {db db' : Database} {customerId : Id} {asset : AssetCode}
  {t : Table PayoutDestination} {now : Instant}

def addedItems (db db' : Database) : List PayoutItem :=
  db'.payoutItems.rows.drop db.payoutItems.rows.length

def inPlay (now : Instant) (db : Database) (asset : AssetCode) : List PayoutDestination :=
  db.payoutDestinations.rows.filter (fun d => d.asset = asset ∧
    (d.status = .active ∨ d.status = .pending ∧ d.effectiveAt ≤ now))

/-- Only what was active or due before can be paid to afterwards. -/
theorem candidates_le_inPlay (h : Completed x db.payoutDestinations t) :
    (candidates a (withDestinations db t) asset).length ≤ (inPlay x.now db asset).length := by
  have hnodup : ((candidates a (withDestinations db t) asset).map PayoutDestination.id).Nodup :=
    nodup_candidates.map_on (fun d hd e he hid =>
      t.eq_of_id (mem_candidates.mp hd).1 (mem_candidates.mp he).1 hid)
  have hsub : (candidates a (withDestinations db t) asset).map PayoutDestination.id ⊆
      (inPlay x.now db asset).map PayoutDestination.id := by
    intro id hid
    obtain ⟨d', hd', rfl⟩ := List.mem_map.mp hid
    obtain ⟨hd', hasset, hactive, _, _⟩ := mem_candidates.mp hd'
    obtain ⟨d, hd, xs, rfl, hstatus⟩ := h.status hd'
    obtain ⟨hdid, hsame⟩ := activatedBy_keeps xs d
    have hbefore : d.status = .active ∨ d.status = .pending ∧ d.effectiveAt ≤ x.now := by
      rw [hactive] at hstatus
      cases hl : lastOf (dueRows x db.payoutDestinations) d with
      | none =>
        rw [hl] at hstatus
        exact .inl hstatus.symm
      | some w =>
        rw [hl] at hstatus
        simp only at hstatus
        split at hstatus
        · rename_i hwd
          obtain ⟨hw, hdue⟩ := mem_dueRows.mp (lastOf_mem hl).1
          obtain rfl : w = d := db.payoutDestinations.eq_of_id hw hd hwd
          exact .inr hdue
        · split at hstatus <;> cases hstatus
    rw [hdid]
    refine List.mem_map_of_mem (List.mem_filter.mpr ⟨hd, decide_eq_true ⟨?_, hbefore⟩⟩)
    exact hsame.2.symm.trans hasset
  have hlen := (List.subperm_of_subset hnodup hsub).length_le
  rwa [List.length_map, List.length_map] at hlen

theorem added_iff (h : planTransaction rt a db asset db.payoutPolicy = .ok db')
    (hfew : (candidates a db asset).length ≤ db.payoutPolicy.maxBatchItems) :
    (∃ i ∈ addedItems db db', i.customerId = some customerId ∧
      i.grossAtomic = max 0 (available db customerId asset)) ↔
    ∃ d ∈ candidates a db asset, d.customerId = customerId ∧ ReachesMinimum db asset d := by
  have hall : (candidates a db asset).take db.payoutPolicy.maxBatchItems = candidates a db asset :=
    List.take_of_length_le hfew
  have hadded : addedItems db db' = (plannedItems a db asset).mapIdx (newItem a) := by
    obtain ⟨hnil, rfl⟩ | ⟨_, batch, _, _, hcreated⟩ := planTransaction_cases h
    · rw [hnil, addedItems, List.drop_length]
      rfl
    · rw [addedItems, hcreated.items, List.drop_left]
  rw [hadded]
  constructor
  · rintro ⟨i, hi, hcustomer, _⟩
    obtain ⟨n, hn, rfl⟩ := List.mem_mapIdx.mp hi
    obtain ⟨d, hd, hreach, he⟩ := mem_plannedItems (List.getElem_mem hn)
    rw [hall] at hd
    refine ⟨d, hd, ?_, hreach⟩
    rw [he] at hcustomer
    exact Option.some.inj hcustomer
  · rintro ⟨d, hd, rfl, hreach⟩
    have hitem : (⟨some d.customerId, d.address, available db d.customerId asset⟩ : NewItem) ∈
        plannedItems a db asset := by
      refine List.mem_filterMap.mpr ⟨d, ?_, ?_⟩
      · rw [eligibleDestinations_eq, hall]
        exact hd
      · rw [planItem, if_pos (by exact hreach)]
    obtain ⟨n, hn, hget⟩ := List.getElem_of_mem hitem
    refine ⟨_, List.mem_mapIdx.mpr ⟨n, hn, rfl⟩, ?_, ?_⟩
    · rw [hget]
      rfl
    · rw [hget]
      have hpositive : 0 ≤ available db d.customerId asset :=
        le_trans (Int.natCast_nonneg _) hreach
      exact (max_eq_right hpositive).symm

/-- At an instant at which `plan` looks at all destinations of an asset, a summary tells an
active customer whether the next run pays exactly when the destination shown as active and
the next one agree on it. -/
theorem portal_agrees_iff {answers : List Answer}
    (hplan : alone (stepPlan rt) db (some (.listDue asset)) (x :: answers) = some db')
    (hinstant : ∀ y ∈ x :: answers, y.now = now)
    (hfew : (inPlay now db asset).length ≤ db.payoutPolicy.maxBatchItems)
    {c : Customer} (hc : c ∈ db.customers.rows) (hactive : c.status = .active)
    {b : SummaryBalance} (hb : b ∈ summary a db c.id) (hasset : b.asset = asset) :
    (b.eligibleAtNextRun = true ↔ ∃ i ∈ addedItems db db', i.customerId = some c.id ∧
      i.grossAtomic = b.payableAtomic) ↔
      (ShownReaches a db c.id asset ↔ NextReaches x db c.id asset) := by
  obtain ⟨hpayable, heligible⟩ := eligible_iff hb hasset
  obtain ⟨x', as, y, z, hanswers, hcompleted, ht⟩ := alone_plan hplan
  obtain ⟨rfl, hrest⟩ := List.cons.inj hanswers
  have hx : x.now = now := hinstant x (List.mem_cons_self ..)
  have hz : z.now = now := hinstant z (by simp [hrest])
  have hlimit : (candidates z (withDestinations db db'.payoutDestinations) asset).length ≤
      db.payoutPolicy.maxBatchItems := (candidates_le_inPlay hcompleted).trans (hx ▸ hfew)
  have hadded := @added_iff rt z _ db' c.id asset ht hlimit
  have hnext : (∃ d ∈ candidates z (withDestinations db db'.payoutDestinations) asset,
      d.customerId = c.id ∧ ReachesMinimum (withDestinations db db'.payoutDestinations) asset d) ↔
        NextReaches x db c.id asset := by
    rw [← reaches_iff_next hcompleted]
    constructor
    · rintro ⟨d, hd, hcustomer, hreach⟩
      obtain ⟨hmem, hda, hds, hde, _⟩ := mem_candidates.mp hd
      refine ⟨d, hmem, hcustomer, hda, hds, ?_, ?_⟩
      · rwa [hx, ← hz]
      · rw [ReachesMinimum, hcustomer] at hreach
        exact hreach
    · rintro ⟨d, hmem, hcustomer, hda, hds, hde, hreach⟩
      refine ⟨d, mem_candidates.mpr ⟨hmem, hda, hds, ?_, ?_⟩, hcustomer, ?_⟩
      · rwa [hz, ← hx]
      · exact customerActive_iff.mpr ⟨c, hc, hcustomer.symm, hactive⟩
      · rw [ReachesMinimum, hcustomer]
        exact hreach
  rw [heligible, hpayable, ← hnext, ← hadded]
  rfl

/-- Where nothing is due and an active destination is the only one and in effect, a
positive minimum makes the two agree. -/
theorem agrees_of_single (hdue : lastFor (dueRows x db.payoutDestinations) customerId asset = none)
    (hsingle : SingleActive db.payoutDestinations.rows)
    (heffective : ∀ d ∈ db.payoutDestinations.rows, d.status = .active → d.effectiveAt ≤ x.now)
    (hmin : 0 < db.payoutPolicy.minimumAtomic asset) :
    ShownReaches a db customerId asset ↔ NextReaches x db customerId asset := by
  have hreaches : ∀ d amount, Reaches db asset (max 0 amount) d ↔ Reaches db asset amount d := by
    intro d amount
    unfold Reaches
    omega
  rw [NextReaches, hdue]
  constructor
  · rintro ⟨d, hd, hreach⟩
    obtain ⟨hmem, hcustomer, hasset, hactive⟩ := mem_shownActive hd
    exact ⟨d, hmem, hcustomer, hasset, hactive, heffective d hmem hactive, (hreaches d _).mp hreach⟩
  · rintro ⟨d, hmem, hcustomer, hasset, hactive, _, hreach⟩
    have hshown : d ∈ (destinations a db customerId).filter (fun d => d.asset = asset) := by
      refine List.mem_filter.mpr ⟨mem_destinations.mpr ⟨hmem, hcustomer, ?_⟩, decide_eq_true hasset⟩
      rw [hactive]
      exact DestinationStatus.noConfusion
    obtain ⟨e, he⟩ := Option.isSome_iff_exists.mp (List.find?_isSome
      (p := fun d : PayoutDestination => decide (d.status = .active)) |>.mpr
        ⟨d, hshown, decide_eq_true hactive⟩)
    obtain ⟨hemem, hec, hea, heactive⟩ := mem_shownActive he
    have hde : d = e := db.payoutDestinations.eq_of_id hmem hemem
      (hsingle d hmem e hemem hactive heactive (hcustomer.trans hec.symm) (hasset.trans hea.symm))
    exact ⟨e, he, (hreaches e _).mpr (hde ▸ hreach)⟩

end Agreement

section Sample

def shownBalance (db : Database) : SummaryBalance :=
  summaryBalance db.payoutPolicy (destinations {} db 2) (balance db 2 .btc)

theorem shownBalance_mem (db : Database) : shownBalance db ∈ summary {} db 2 :=
  List.mem_map_of_mem (List.mem_cons_self ..)

def instantAnswers : List Answer := [{ now := 10 }, { now := 10 }, { now := 10 }]

theorem portal_agrees_sample : ∃ db', alone (stepPlan sampleOfficeRuntime) (twoCustomers 2)
      (some (.listDue .btc)) instantAnswers = some db' ∧
    ((shownBalance (twoCustomers 2)).eligibleAtNextRun = true ↔
      ∃ i ∈ addedItems (twoCustomers 2) db', i.customerId = some 2 ∧
        i.grossAtomic = (shownBalance (twoCustomers 2)).payableAtomic) := by
  have hsome : (alone (stepPlan sampleOfficeRuntime) (twoCustomers 2) (some (.listDue .btc))
      instantAnswers).isSome = true := by decide +kernel
  obtain ⟨db', hdb'⟩ := Option.isSome_iff_exists.mp hsome
  have hinstant : ∀ y ∈ instantAnswers, y.now = 10 := by
    intro y hy
    fin_cases hy <;> rfl
  have hcustomer : (⟨2, .active⟩ : Customer) ∈ (twoCustomers 2).customers.rows :=
    List.mem_cons_of_mem _ (List.mem_cons_self ..)
  refine ⟨db', hdb', (portal_agrees_iff hdb' hinstant (by decide) hcustomer rfl
    (shownBalance_mem (twoCustomers 2)) rfl).mpr ?_⟩
  refine agrees_of_single rfl (twoCustomers_single 2) (fun d hd _ => ?_) (by decide)
  fin_cases hd <;> decide

def firstAddressDue : Database :=
  { twoCustomers 2 with
    payoutDestinations := .single ⟨2, 2, .btc, "bc1qtwo", .pending, 5, 1, 1, none⟩ }

theorem due_address_not_shown : ¬ ∀ (db db' : Database) (asset : AssetCode) (now : Instant)
    (a x : Answer) (answers : List Answer) (c : Customer) (b : SummaryBalance),
    alone (stepPlan sampleOfficeRuntime) db (some (.listDue asset)) (x :: answers) = some db' →
      (∀ y ∈ x :: answers, y.now = now) →
      (inPlay now db asset).length ≤ db.payoutPolicy.maxBatchItems →
      c ∈ db.customers.rows → c.status = .active → b ∈ summary a db c.id → b.asset = asset →
      (b.eligibleAtNextRun = true ↔ ∃ i ∈ addedItems db db', i.customerId = some c.id ∧
        i.grossAtomic = b.payableAtomic) := by
  intro h
  have hview : (alone (stepPlan sampleOfficeRuntime) firstAddressDue (some (.listDue .btc))
      ({ now := 10 } :: instantAnswers)).map (fun db => (addedItems firstAddressDue db).map
        (fun i => (i.customerId, i.grossAtomic))) = some [(some 2, 1000)] := by decide +kernel
  obtain ⟨db', hdb', hitems⟩ := Option.map_eq_some_iff.mp hview
  have hinstant : ∀ y ∈ ({ now := 10 } : Answer) :: instantAnswers, y.now = 10 := by
    intro y hy
    fin_cases hy <;> rfl
  have hcustomer : (⟨2, .active⟩ : Customer) ∈ firstAddressDue.customers.rows :=
    List.mem_cons_of_mem _ (List.mem_cons_self ..)
  have hshown : (shownBalance firstAddressDue).eligibleAtNextRun = false ∧
      (shownBalance firstAddressDue).payableAtomic = 1000 := by decide +kernel
  have hmem : (some 2, (1000 : ℤ)) ∈ (addedItems firstAddressDue db').map
      (fun i => (i.customerId, i.grossAtomic)) := by
    rw [hitems]
    exact List.mem_singleton.mpr rfl
  obtain ⟨i, hi, he⟩ := List.mem_map.mp hmem
  obtain ⟨hc, hgross⟩ := Prod.mk.inj he
  have heligible := (h _ db' .btc 10 {} _ _ ⟨2, .active⟩ _ hdb' hinstant (by decide) hcustomer rfl
    (shownBalance_mem firstAddressDue) rfl).mpr ⟨i, hi, hc, hgross.trans hshown.2.symm⟩
  rw [hshown.1] at heligible
  cases heligible

end Sample

end Bitmine.PublicPortal
