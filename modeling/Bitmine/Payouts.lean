import Bitmine.Deployment
import Bitmine.LedgerPosting

namespace Bitmine.Payouts

open Bitmine.Lib.UniqueTable Bitmine.Lib.Throwing Bitmine.Schema Bitmine.Deployment
open Bitmine.Security Bitmine.Ledger

def openPayoutStates : List PayoutState :=
  [.planned, .approvalRequired, .autoApproved, .signed, .broadcast, .failed]

def transitions : PayoutState → List PayoutState
  | .planned => [.approvalRequired, .autoApproved, .failed, .cancelled]
  | .approvalRequired => [.autoApproved, .failed, .cancelled]
  | .autoApproved => [.signed, .failed, .cancelled]
  | .signed => [.broadcast, .failed]
  | .broadcast => [.confirmed, .failed]
  | .confirmed => []
  | .failed => [.autoApproved, .signed, .broadcast]
  | .cancelled => []

def canTransitionPayout (source target : PayoutState) : Bool :=
  source = target ∨ target ∈ transitions source

def stateText : PayoutState → String
  | .planned => "PLANNED"
  | .approvalRequired => "APPROVAL_REQUIRED"
  | .autoApproved => "AUTO_APPROVED"
  | .signed => "SIGNED"
  | .broadcast => "BROADCAST"
  | .confirmed => "CONFIRMED"
  | .failed => "FAILED"
  | .cancelled => "CANCELLED"

def assertPayoutTransition (source target : PayoutState) : Except String Unit :=
  if canTransitionPayout source target then .ok ()
  else .error ("Invalid payout transition: " ++ stateText source ++ " -> " ++ stateText target)

def withPayouts (db : Database) (batches : Table PayoutBatch) (items : Table PayoutItem) :
    Database :=
  { db with payoutBatches := batches, payoutItems := items }

def withDestinations (db : Database) (destinations : Table PayoutDestination) : Database :=
  { db with payoutDestinations := destinations }

def updateBatch (db : Database) (id : Id) (f : PayoutBatch → PayoutBatch) (hf : KeepsKeys f) :
    Except String Database := do
  let _ ← orThrow recordNotFound (db.payoutBatches.find? (fun b => b.id = id))
  pure (withPayouts db (db.payoutBatches.update (fun b => b.id = id) f hf) db.payoutItems)

section Plan

def inOpenBatch (db : Database) (asset : AssetCode) (batchId : Id) : Bool :=
  db.payoutBatches.rows.any (fun b => b.id = batchId ∧ b.asset = asset ∧ b.state ∈ openPayoutStates)

def reserved (db : Database) (customerId : Id) (asset : AssetCode) : ℤ :=
  ((db.payoutItems.rows.filter (fun i =>
    i.customerId = some customerId ∧ inOpenBatch db asset i.batchId)).map
      PayoutItem.grossAtomic).sum

def available (db : Database) (customerId : Id) (asset : AssetCode) : ℤ :=
  customerBalance db customerId asset - reserved db customerId asset

def operatorReserved (db : Database) (asset : AssetCode) : ℤ :=
  ((db.payoutItems.rows.filter (fun i => i.customerId = none ∧
    db.payoutBatches.rows.any (fun b => b.id = i.batchId ∧ b.asset = asset ∧
      b.kind = .operator ∧ b.state ∈ openPayoutStates))).map PayoutItem.grossAtomic).sum

def customerActive (db : Database) (customerId : Id) : Bool :=
  db.customers.rows.any (fun c => c.id = customerId ∧ c.status = .active)

def eligibleDestinations (a : Answer) (db : Database) (asset : AssetCode)
    (policy : PayoutPolicySetting) : List PayoutDestination :=
  (((a.destinationOrder.arrange db.payoutDestinations.rows).filter (fun d =>
    d.asset = asset ∧ d.status = .active ∧ d.effectiveAt ≤ a.now ∧
      customerActive db d.customerId)).insertionSort
        (fun d e => d.createdAt ≤ e.createdAt)).take policy.maxBatchItems

structure NewItem where
  customerId : Option Id
  destination : String
  grossAtomic : ℤ

def planItem (db : Database) (asset : AssetCode) (policy : PayoutPolicySetting)
    (d : PayoutDestination) : Option NewItem :=
  let minimum : ℕ := max d.minPayoutAtomic (policy.minimumAtomic asset)
  if (minimum : ℤ) ≤ available db d.customerId asset then
    some ⟨some d.customerId, d.address, available db d.customerId asset⟩
  else none

def canAutoApprove (rt : Runtime) (now : Instant) (db : Database) (asset : AssetCode)
    (amount : ℤ) (policy : PayoutPolicySetting) : Bool :=
  let limit : ℤ := policy.dailyAutoLimitAtomic asset
  if limit ≤ 0 ∨ limit < amount then false
  else
    let start := rt.startOfDay policy.timezone now
    let stop := rt.startOfNextDay policy.timezone now
    let used := ((db.payoutBatches.rows.filter (fun b => b.asset = asset ∧
      b.approvalThresholdHit = false ∧ start ≤ b.createdAt ∧ b.createdAt < stop ∧
        b.state ≠ .cancelled)).map PayoutBatch.totalGrossAtomic).sum
    used + amount ≤ limit

def newBatch (a : Answer) (asset : AssetCode) (kind : PayoutKind) (auto : Bool) (total : ℤ)
    (snapshot : PolicySnapshot) : PayoutBatch :=
  ⟨a.newId 0, asset, kind, if auto then .autoApproved else .approvalRequired, total, 0, total, [],
    none, !auto, some snapshot, none, none, none, none, none, none, a.createdAt⟩

def newItem (a : Answer) (index : ℕ) (i : NewItem) : PayoutItem :=
  ⟨a.newId (index + 1), a.newId 0, i.customerId, i.destination, i.grossAtomic, 0, i.grossAtomic,
    none⟩

def createBatch (a : Answer) (db : Database) (batch : PayoutBatch) (items : List NewItem) :
    Except String Database := do
  let batches ← orThrow uniqueViolation (db.payoutBatches.insert batch)
  let rows ← orThrow uniqueViolation (db.payoutItems.insertAll (items.mapIdx (newItem a)))
  pure (withPayouts db batches rows)

/-- The serializable transaction of `plan`. -/
def planTransaction (rt : Runtime) (a : Answer) (db : Database) (asset : AssetCode)
    (policy : PayoutPolicySetting) : Except String Database :=
  let items := (eligibleDestinations a db asset policy).filterMap (planItem db asset policy)
  if items.isEmpty then .ok db
  else
    let total := (items.map NewItem.grossAtomic).sum
    let auto := canAutoApprove rt a.now db asset total policy
    createBatch a db (newBatch a asset .customer auto total
      ⟨some policy.feePayer, some policy.maxFeeBps⟩) items

/-- The serializable transaction of `planOperator`. -/
def planOperatorTransaction (rt : Runtime) (a : Answer) (db : Database) (asset : AssetCode)
    (setting : OperatorPayoutSetting) (policy : PayoutPolicySetting) : Except String Database :=
  let amount := operatorBalance db asset - operatorReserved db asset
  if amount < setting.minPayoutAtomic then .ok db
  else
    let auto := canAutoApprove rt a.now db asset amount policy
    createBatch a db (newBatch a asset .operator auto amount
      ⟨some .customer, some policy.maxFeeBps⟩) [⟨none, setting.address, amount⟩]

theorem revoked_keepsKeys (now : Instant) : KeepsKeys
    (fun d : PayoutDestination => { d with status := .revoked, revokedAt := some now }) :=
  fun _ => ⟨rfl, rfl⟩

def activateDestination (db : Database) (now : Instant) (due : PayoutDestination) :
    Except String Database := do
  let revoked := db.payoutDestinations.update
    (fun d => d.customerId = due.customerId ∧ d.asset = due.asset ∧ d.status = .active)
    (fun d => { d with status := .revoked, revokedAt := some now }) (revoked_keepsKeys now)
  let _ ← orThrow recordNotFound (revoked.find? (fun d => d.id = due.id))
  pure (withDestinations db (revoked.update (fun d => d.id = due.id)
    (fun d => { d with status := .active }) (fun _ => ⟨rfl, rfl⟩)))

/-- The awaited effects of `plan`. -/
inductive PlanCall where
  | listDue (asset : AssetCode)
  | activate (asset : AssetCode) (due : PayoutDestination) (rest : List PayoutDestination)
  | readPolicy (asset : AssetCode)
  | transaction (asset : AssetCode) (policy : PayoutPolicySetting)

def PlanCall.entry : PlanCall → Bool
  | .listDue _ => true
  | _ => false

def activateNext (asset : AssetCode) : List PayoutDestination → PlanCall
  | [] => .readPolicy asset
  | due :: rest => .activate asset due rest

def stepPlan (rt : Runtime) (db : Database) (call : PlanCall) (a : Answer) :
    Except String (Database × Option PlanCall) :=
  match call with
  | .listDue asset =>
    let due := (a.destinationOrder.arrange db.payoutDestinations.rows).filter
      (fun d => d.status = .pending ∧ d.effectiveAt ≤ a.now)
    .ok (db, some (activateNext asset due))
  | .activate asset due rest => do
    let db' ← activateDestination db a.now due
    pure (db', some (activateNext asset rest))
  | .readPolicy asset => .ok (db, some (.transaction asset db.payoutPolicy))
  | .transaction asset policy => do
    let db' ← planTransaction rt a db asset policy
    pure (db', none)

/-- The awaited effects of `planOperator`. -/
inductive OperatorCall where
  | readSetting (asset : AssetCode)
  | readPolicy (asset : AssetCode) (setting : OperatorPayoutSetting)
  | transaction (asset : AssetCode) (setting : OperatorPayoutSetting) (policy : PayoutPolicySetting)

def OperatorCall.entry : OperatorCall → Bool
  | .readSetting _ => true
  | _ => false

def stepOperator (rt : Runtime) (db : Database) (call : OperatorCall) (a : Answer) :
    Except String (Database × Option OperatorCall) :=
  match call with
  | .readSetting asset => .ok (db, some (.readPolicy asset (db.operatorPayout asset)))
  | .readPolicy asset setting =>
    if setting.mode = .retain ∨ setting.address = "" then
      .error "Operator revenue is configured to remain in treasury"
    else .ok (db, some (.transaction asset setting db.payoutPolicy))
  | .transaction asset setting policy => do
    let db' ← planOperatorTransaction rt a db asset setting policy
    pure (db', none)

end Plan

section Approve

/-- The awaited effects of `approve`. -/
inductive ApproveCall where
  | assertTotp (id adminId : Id) (totpCode : String)
  | readBatch (id adminId : Id)
  | write (id adminId : Id) (nextState : PayoutState)

def ApproveCall.entry : ApproveCall → Bool
  | .assertTotp _ _ _ => true
  | _ => false

def approveBatch (now : Instant) (adminId : Id) (nextState : PayoutState) (b : PayoutBatch) :
    PayoutBatch :=
  { b with
    state := nextState
    approvedById := some adminId
    approvedAt := some now
    errorCode := none
    errorMessage := none }

def stepApprove (rt : Runtime) (w : World) (call : ApproveCall) (a : Answer) :
    Except String (World × Option ApproveCall) :=
  match call with
  | .assertTotp id adminId totpCode => do
    assertTotp rt.primitives w.db adminId totpCode a.now
    pure (w.observe (.totpPassed id adminId), some (.readBatch id adminId))
  | .readBatch id adminId => do
    let batch ← orThrow "Payout batch not found" (w.db.payoutBatches.find? (fun b => b.id = id))
    if batch.state ≠ .approvalRequired ∧ batch.state ≠ .failed then
      .error ("Payout cannot be approved from " ++ stateText batch.state)
    else
      let nextState :=
        if batch.state = .failed ∧ (truthy batch.signedPayload).isSome then .signed
        else .autoApproved
      assertPayoutTransition batch.state nextState
      pure (w, some (.write id adminId nextState))
  | .write id adminId nextState => do
    let db ← updateBatch w.db id (approveBatch a.now adminId nextState) (fun _ => ⟨rfl, rfl⟩)
    pure (w.store db, none)

end Approve

section Reconcile

/-- The awaited effects of `reconcile`. -/
inductive ReconcileCall where
  | listBroadcast
  | query (batch : PayoutBatch) (rest : List PayoutBatch)
  | write (batch : PayoutBatch) (rest : List PayoutBatch)

def ReconcileCall.entry : ReconcileCall → Bool
  | .listBroadcast => true
  | _ => false

def confirmBatch (now : Instant) (b : PayoutBatch) : PayoutBatch :=
  { b with state := .confirmed, confirmedAt := some now }

def queryNext : List PayoutBatch → Option ReconcileCall
  | [] => none
  | batch :: rest => some (.query batch rest)

def stepReconcile (rt : Runtime) (db : Database) (call : ReconcileCall) (a : Answer) :
    Except String (Database × Option ReconcileCall) :=
  match call with
  | .listBroadcast => .ok (db, queryNext
      ((a.batchOrder.arrange db.payoutBatches.rows).filter (fun b => b.state = .broadcast)))
  | .query batch rest =>
    let confirmations := batch.transactionIds.map a.confirmations
    if ¬ confirmations.isEmpty ∧ ∀ n ∈ confirmations, rt.requiredConfirmations batch.asset ≤ n then do
      assertPayoutTransition batch.state .confirmed
      pure (db, some (.write batch rest))
    else .ok (db, queryNext rest)
  | .write batch rest => do
    let db' ← updateBatch db batch.id (confirmBatch a.now) (fun _ => ⟨rfl, rfl⟩)
    pure (db', queryNext rest)

end Reconcile

section Inversion

variable {rt : Runtime} {a : Answer} {db db' : Database} {asset : AssetCode}
  {policy : PayoutPolicySetting}

structure Created (a : Answer) (db db' : Database) (batch : PayoutBatch) (items : List NewItem) :
    Prop where
  batches : db'.payoutBatches.rows = db.payoutBatches.rows ++ [batch]
  fresh : ∀ b ∈ db.payoutBatches.rows, ¬ Clash b batch
  items : db'.payoutItems.rows = db.payoutItems.rows ++ items.mapIdx (newItem a)
  frame : db' = withPayouts db db'.payoutBatches db'.payoutItems

/-- What both planners insert: a batch over available amounts, automatic only
within the limit of the day. -/
structure Planned (rt : Runtime) (a : Answer) (db db' : Database) (asset : AssetCode)
    (policy : PayoutPolicySetting) (kind : PayoutKind) (payer : NetworkFeePayer)
    (items : List NewItem) : Prop where
  created : Created a db db' (newBatch a asset kind
    (canAutoApprove rt a.now db asset (items.map NewItem.grossAtomic).sum policy)
    (items.map NewItem.grossAtomic).sum ⟨some payer, some policy.maxFeeBps⟩) items
  gross : ∀ i ∈ items, 0 ≤ i.grossAtomic
  available : ∀ i ∈ items, ∀ c, i.customerId = some c → i.grossAtomic = available db c asset

theorem createBatch_ok {batch : PayoutBatch} {items : List NewItem}
    (h : createBatch a db batch items = .ok db') : Created a db db' batch items := by
  simp only [createBatch, bind_eq_ok, orThrow_eq_ok, pure_eq_ok] at h
  obtain ⟨batches, hb, rows, hi, rfl⟩ := h
  obtain ⟨hrows, hnew⟩ := Table.insert_eq_some hb
  exact ⟨hrows, hnew, Table.insertAll_eq_some hi, rfl⟩

theorem planItem_some {d : PayoutDestination} {i : NewItem}
    (h : planItem db asset policy d = some i) :
    0 ≤ i.grossAtomic ∧ ∀ c, i.customerId = some c → i.grossAtomic = available db c asset := by
  unfold planItem at h
  dsimp only at h
  split at h
  · rename_i hm
    cases h
    refine ⟨le_trans (Int.natCast_nonneg _) hm, ?_⟩
    rintro c ⟨⟩
    rfl
  · cases h

theorem planTransaction_ok (h : planTransaction rt a db asset policy = .ok db') :
    db' = db ∨ ∃ items, Planned rt a db db' asset policy .customer policy.feePayer items := by
  rw [planTransaction] at h
  dsimp only at h
  split at h
  · cases h
    exact .inl rfl
  · refine .inr ⟨_, createBatch_ok h, ?_, ?_⟩ <;> intro i hi <;>
      obtain ⟨d, _, hd⟩ := List.mem_filterMap.mp hi
    · exact (planItem_some hd).1
    · exact (planItem_some hd).2

theorem planOperatorTransaction_ok {setting : OperatorPayoutSetting}
    (h : planOperatorTransaction rt a db asset setting policy = .ok db') :
    db' = db ∨ ∃ items, Planned rt a db db' asset policy .operator .customer items := by
  rw [planOperatorTransaction] at h
  dsimp only at h
  split at h
  · cases h
    exact .inl rfl
  · rename_i hm
    refine .inr ⟨[⟨none, setting.address, operatorBalance db asset - operatorReserved db asset⟩],
      ?_, ?_, ?_⟩
    · simpa only [List.map_singleton, List.sum_singleton] using createBatch_ok h
    · intro i hi
      rw [List.mem_singleton.mp hi]
      exact le_trans (Int.natCast_nonneg _) (not_lt.mp hm)
    · intro i hi c hc
      rw [List.mem_singleton.mp hi] at hc
      cases hc

/-- A planner touches destinations, or inserts a batch in its last effect. -/
theorem stepPlan_ok {call : PlanCall} {o : Option PlanCall}
    (h : stepPlan rt db call a = .ok (db', o)) :
    ((∃ t, db' = withDestinations db t) ∧
      ∀ asset policy, o = some (.transaction asset policy) → policy = db.payoutPolicy) ∨
    ∃ asset policy items, call = .transaction asset policy ∧ o = none ∧
      Planned rt a db db' asset policy .customer policy.feePayer items := by
  have hnext : ∀ {asset : AssetCode} {l : List PayoutDestination} {asset' policy},
      some (activateNext asset l) ≠ some (PlanCall.transaction asset' policy) := by
    intro asset l asset' policy hn
    cases l <;> cases hn
  cases call with
  | listDue asset =>
    cases h
    exact .inl ⟨⟨_, rfl⟩, fun _ _ ho => absurd ho hnext⟩
  | activate asset due rest =>
    simp only [stepPlan, activateDestination, bind_eq_ok, pure_eq_ok] at h
    obtain ⟨_, ⟨_, _, rfl⟩, he⟩ := h
    cases he
    exact .inl ⟨⟨_, rfl⟩, fun _ _ ho => absurd ho hnext⟩
  | readPolicy asset =>
    cases h
    refine .inl ⟨⟨_, rfl⟩, fun _ _ ho => ?_⟩
    cases ho
    rfl
  | transaction asset policy =>
    simp only [stepPlan, bind_eq_ok, pure_eq_ok] at h
    obtain ⟨_, ht, he⟩ := h
    cases he
    obtain rfl | ⟨items, hp⟩ := planTransaction_ok ht
    · exact .inl ⟨⟨_, rfl⟩, fun _ _ ho => by cases ho⟩
    · exact .inr ⟨asset, policy, items, rfl, rfl, hp⟩

theorem stepOperator_ok {call : OperatorCall} {o : Option OperatorCall}
    (h : stepOperator rt db call a = .ok (db', o)) :
    (db' = db ∧ ∀ asset setting policy, o = some (.transaction asset setting policy) →
      policy = db.payoutPolicy) ∨
    ∃ asset setting policy items, call = .transaction asset setting policy ∧ o = none ∧
      Planned rt a db db' asset policy .operator .customer items := by
  cases call with
  | readSetting asset =>
    cases h
    exact .inl ⟨rfl, fun _ _ _ ho => by cases ho⟩
  | readPolicy asset setting =>
    simp only [stepOperator] at h
    split at h
    · cases h
    · cases h
      refine .inl ⟨rfl, fun _ _ _ ho => ?_⟩
      cases ho
      rfl
  | transaction asset setting policy =>
    simp only [stepOperator, bind_eq_ok, pure_eq_ok] at h
    obtain ⟨_, ht, he⟩ := h
    cases he
    obtain rfl | ⟨items, hp⟩ := planOperatorTransaction_ok ht
    · exact .inl ⟨rfl, fun _ _ _ ho => by cases ho⟩
    · exact .inr ⟨asset, setting, policy, items, rfl, rfl, hp⟩

/-- Everything a resolved effect of an approval can do. -/
inductive Approved (rt : Runtime) (w : World) (a : Answer) :
    ApproveCall → World → Option ApproveCall → Prop where
  | assertTotp {id adminId : Id} {code : String}
      (ht : assertTotp rt.primitives w.db adminId code a.now = .ok ()) :
      Approved rt w a (.assertTotp id adminId code) (w.observe (.totpPassed id adminId))
        (some (.readBatch id adminId))
  | readBatch {id adminId : Id} {next : PayoutState} (hn : next = .signed ∨ next = .autoApproved) :
      Approved rt w a (.readBatch id adminId) w (some (.write id adminId next))
  | write {id adminId : Id} {next : PayoutState} {db : Database}
      (hd : updateBatch w.db id (approveBatch a.now adminId next) (fun _ => ⟨rfl, rfl⟩) = .ok db) :
      Approved rt w a (.write id adminId next) (w.store db) none

theorem stepApprove_ok {w w' : World} {call : ApproveCall} {o : Option ApproveCall}
    (h : stepApprove rt w call a = .ok (w', o)) : Approved rt w a call w' o := by
  cases call with
  | assertTotp id adminId code =>
    simp only [stepApprove, bind_eq_ok, pure_eq_ok] at h
    obtain ⟨⟨⟩, ht, he⟩ := h
    cases he
    exact .assertTotp ht
  | readBatch id adminId =>
    simp only [stepApprove, bind_eq_ok] at h
    obtain ⟨b, _, h⟩ := h
    split at h
    · cases h
    · simp only [bind_eq_ok, pure_eq_ok] at h
      obtain ⟨_, _, he⟩ := h
      cases he
      refine .readBatch ?_
      split
      · exact .inl rfl
      · exact .inr rfl
  | write id adminId next =>
    simp only [stepApprove, bind_eq_ok, pure_eq_ok] at h
    obtain ⟨db, hd, he⟩ := h
    cases he
    exact .write hd

/-- Everything a resolved effect of the reconciliation can do. -/
inductive Reconciled (db : Database) (a : Answer) :
    ReconcileCall → Database → Option ReconcileCall → Prop where
  | list {l : List PayoutBatch} (hl : ∀ b ∈ l, b ∈ db.payoutBatches.rows ∧ b.state = .broadcast) :
      Reconciled db a .listBroadcast db (queryNext l)
  | pass {batch : PayoutBatch} {rest : List PayoutBatch} :
      Reconciled db a (.query batch rest) db (queryNext rest)
  | enough {batch : PayoutBatch} {rest : List PayoutBatch} :
      Reconciled db a (.query batch rest) db (some (.write batch rest))
  | write {batch : PayoutBatch} {rest : List PayoutBatch} {db' : Database}
      (hd : updateBatch db batch.id (confirmBatch a.now) (fun _ => ⟨rfl, rfl⟩) = .ok db') :
      Reconciled db a (.write batch rest) db' (queryNext rest)

theorem stepReconcile_ok {call : ReconcileCall} {o : Option ReconcileCall}
    (h : stepReconcile rt db call a = .ok (db', o)) : Reconciled db a call db' o := by
  cases call with
  | listBroadcast =>
    cases h
    refine .list (fun b hb => ?_)
    obtain ⟨hm, hs⟩ := List.mem_filter.mp hb
    exact ⟨(a.batchOrder.perm _).mem_iff.mp hm, by simpa using hs⟩
  | query batch rest =>
    simp only [stepReconcile] at h
    split at h
    · simp only [bind_eq_ok, pure_eq_ok] at h
      obtain ⟨_, _, he⟩ := h
      cases he
      exact .enough
    · cases h
      exact .pass
  | write batch rest =>
    simp only [stepReconcile, bind_eq_ok, pure_eq_ok] at h
    obtain ⟨db₁, hd, he⟩ := h
    cases he
    exact .write hd

theorem queryNext_all {P : PayoutBatch → Prop} {Q : ReconcileCall → Prop}
    (hquery : ∀ batch rest, (∀ b ∈ batch :: rest, P b) → Q (.query batch rest)) {l : List PayoutBatch}
    (hl : ∀ b ∈ l, P b) : ∀ c ∈ queryNext l, Q c := by
  intro c hc
  cases l with
  | nil => cases hc
  | cons batch rest =>
    cases hc
    exact hquery batch rest hl

theorem updateBatch_ok {id : Id} {f : PayoutBatch → PayoutBatch} {hf : KeepsKeys f}
    (h : updateBatch db id f hf = .ok db') :
    (∃ b ∈ db.payoutBatches.rows, b.id = id) ∧
      db'.payoutBatches.rows = db.payoutBatches.rows.map (fun b => if b.id = id then f b else b) ∧
      db' = withPayouts db db'.payoutBatches db.payoutItems := by
  simp only [updateBatch, bind_eq_ok, orThrow_eq_ok, pure_eq_ok] at h
  obtain ⟨b, hb, rfl⟩ := h
  obtain ⟨hm, hi⟩ := Table.find?_mem hb
  refine ⟨⟨b, hm, by simpa using hi⟩, ?_, rfl⟩
  simp only [withPayouts, Table.update_rows, decide_eq_true_eq]

end Inversion

end Bitmine.Payouts
