import Bitmine.Lib.Await
import Bitmine.Payouts

namespace Bitmine.Destinations

open Bitmine.Lib.UniqueTable Bitmine.Lib.Throwing Bitmine.Lib.Await
open Bitmine.Schema Bitmine.Deployment Bitmine.Security Bitmine.Payouts

def day : ℤ := 24 * 60 * 60000

def trim (s : String) : String :=
  String.ofList ((s.toList.dropWhile isSpace).reverse.dropWhile isSpace).reverse

/-- The setting stored under `operator.payout.pending.<asset>`. -/
structure PendingOperator where
  setting : OperatorPayoutSetting
  effectiveAt : Instant

structure Submission where
  payee : Option Id
  asset : AssetCode
  address : String
  submittedAt : Instant

/-- The database with the pending settings of the operator, the clock, and every
address that was ever submitted. -/
structure Office where
  db : Database
  pendingOperator : AssetCode → Option PendingOperator
  clock : Instant
  submissions : List Submission

def Office.store (s : Office) (db : Database) : Office := { s with db := db }

def Office.submit (s : Office) (x : Submission) : Office :=
  { s with submissions := s.submissions ++ [x] }

def Office.pend (s : Office) (asset : AssetCode) (p : Option PendingOperator) : Office :=
  { s with pendingOperator := Function.update s.pendingOperator asset p }

/-- The answers of the database and of the wallet, the customer whose slug and
access code a portal request presents, and the verdict on an address. -/
structure Reply extends Answer where
  credentials : Option Id := none
  valid : Bool := true

structure DestinationDto where
  asset : AssetCode
  address : String
  minPayoutAtomic : Option ℕ

structure UpdateOperatorPayoutDto where
  asset : AssetCode
  mode : OperatorPayoutMode
  address : Option String
  minPayoutAtomic : Option ℕ

def newDestination (a : Reply) (customerId : Id) (asset : AssetCode) (address : String)
    (effectiveAt : Instant) (minPayoutAtomic : ℕ) : PayoutDestination :=
  ⟨a.newId 0, customerId, asset, address, .pending, effectiveAt, minPayoutAtomic, a.createdAt, none⟩

/-- The awaited effects of `createDestination`. -/
inductive CreateCall where
  | receive (customerId : Id) (dto : DestinationDto)
  | get (customerId : Id) (dto : DestinationDto)
  | validateAddress (customerId : Id) (dto : DestinationDto)
  | create (customerId : Id) (dto : DestinationDto) (effectiveAt : Instant)

def createDestination (minimum : AssetCode → ℕ) (s : Office) (call : CreateCall) (a : Reply) :
    Except String (Office × Option CreateCall) :=
  match call with
  | .receive customerId dto =>
    .ok (s.submit ⟨some customerId, dto.asset, trim dto.address, a.now⟩, some (.get customerId dto))
  | .get customerId dto => do
    let _ ← orThrow "Customer not found" (s.db.customers.find? (fun c => c.id = customerId))
    pure (s, some (.validateAddress customerId dto))
  | .validateAddress customerId dto =>
    if a.valid then .ok (s, some (.create customerId dto (a.now + day)))
    else .error "Invalid payout address for selected asset"
  | .create customerId dto effectiveAt => do
    let destinations ← orThrow uniqueViolation (s.db.payoutDestinations.insert
      (newDestination a customerId dto.asset (trim dto.address) effectiveAt
        (dto.minPayoutAtomic.getD (minimum dto.asset))))
    pure (s.store (withDestinations s.db destinations), none)

/-- The awaited effects of `requestDestination`. -/
inductive RequestCall where
  | authenticate (dto : DestinationDto)
  | validateAddress (customerId : Id) (dto : DestinationDto)
  | readPolicy (customerId : Id) (dto : DestinationDto)
  | transaction (customerId : Id) (dto : DestinationDto) (minPayoutAtomic : ℕ)
      (effectiveAt : Instant)

def revokePending (t : Table PayoutDestination) (now : Instant) (customerId : Id)
    (asset : AssetCode) : Table PayoutDestination :=
  t.update (fun d => d.customerId = customerId ∧ d.asset = asset ∧ d.status = .pending)
    (fun d => { d with status := .revoked, revokedAt := some now }) (revoked_keepsKeys now)

def requestDestination (s : Office) (call : RequestCall) (a : Reply) :
    Except String (Office × Option RequestCall) :=
  match call with
  | .authenticate dto => do
    let customer ← orThrow "Invalid portal credentials"
      (s.db.customers.find? (fun c => a.credentials = some c.id ∧ c.status = .active))
    pure (s.submit ⟨some customer.id, dto.asset, trim dto.address, a.now⟩,
      some (.validateAddress customer.id dto))
  | .validateAddress customerId dto =>
    if a.valid then .ok (s, some (.readPolicy customerId dto))
    else .error "Invalid payout address for selected asset"
  | .readPolicy customerId dto =>
    let globalMinimum := s.db.payoutPolicy.minimumAtomic dto.asset
    let requestedMinimum := dto.minPayoutAtomic.getD globalMinimum
    if requestedMinimum ≤ 0 then .error "Payout minimum must be positive"
    else .ok (s, some (.transaction customerId dto (max requestedMinimum globalMinimum)
      (a.now + day)))
  | .transaction customerId dto minPayoutAtomic effectiveAt => do
    let revoked := revokePending s.db.payoutDestinations a.now customerId dto.asset
    let destinations ← orThrow uniqueViolation (revoked.insert
      (newDestination a customerId dto.asset (trim dto.address) effectiveAt minPayoutAtomic))
    pure (s.store (withDestinations s.db destinations), none)

/-- The awaited effects of `activateDueDestinations`. -/
inductive ActivateCall where
  | listDue
  | activate (due : PayoutDestination) (rest : List PayoutDestination)

def activateRest : List PayoutDestination → Option ActivateCall
  | [] => none
  | due :: rest => some (.activate due rest)

def activateDueDestinations (s : Office) (call : ActivateCall) (a : Reply) :
    Except String (Office × Option ActivateCall) :=
  match call with
  | .listDue => .ok (s, activateRest ((a.destinationOrder.arrange s.db.payoutDestinations.rows).filter
      (fun d => d.status = .pending ∧ d.effectiveAt ≤ a.now)))
  | .activate due rest => do
    let db ← activateDestination s.db a.now due
    pure (s.store db, activateRest rest)

/-- The awaited effects of `updateOperatorPayout`. -/
inductive UpdateCall where
  | receive (dto : UpdateOperatorPayoutDto)
  | validateAddress (dto : UpdateOperatorPayoutDto)
  | upsert (dto : UpdateOperatorPayoutDto) (effectiveAt : Instant)

def UpdateOperatorPayoutDto.trimmed (dto : UpdateOperatorPayoutDto) : String :=
  (dto.address.map trim).getD ""

def UpdateOperatorPayoutDto.setting (minimum : AssetCode → ℕ) (dto : UpdateOperatorPayoutDto) :
    OperatorPayoutSetting :=
  ⟨dto.mode, dto.trimmed, dto.minPayoutAtomic.getD (minimum dto.asset)⟩

def updateOperatorPayout (minimum : AssetCode → ℕ) (s : Office) (call : UpdateCall) (a : Reply) :
    Except String (Office × Option UpdateCall) :=
  match call with
  | .receive dto =>
    let s' := s.submit ⟨none, dto.asset, dto.trimmed, a.now⟩
    if dto.mode = .retain then .ok (s', some (.upsert dto (a.now + day)))
    else if dto.trimmed = "" then .error "Operator payout address is required"
    else .ok (s', some (.validateAddress dto))
  | .validateAddress dto =>
    if a.valid then .ok (s, some (.upsert dto (a.now + day)))
    else .error "Invalid operator payout address for selected asset"
  | .upsert dto effectiveAt =>
    .ok (s.pend dto.asset (some ⟨dto.setting minimum, effectiveAt⟩), none)

/-- The awaited effects of `activateDueOperatorPayouts`, asset by asset. -/
inductive OperatorActivation where
  | readPending (asset : AssetCode) (rest : List AssetCode)
  | activate (asset : AssetCode) (pending : PendingOperator) (rest : List AssetCode)

def readRest : List AssetCode → Option OperatorActivation
  | [] => none
  | asset :: rest => some (.readPending asset rest)

def withOperatorPayout (db : Database) (asset : AssetCode) (setting : OperatorPayoutSetting) :
    Database :=
  { db with operatorPayout := Function.update db.operatorPayout asset setting }

def activateDueOperatorPayouts (s : Office) (call : OperatorActivation) (a : Reply) :
    Except String (Office × Option OperatorActivation) :=
  match call with
  | .readPending asset rest =>
    match s.pendingOperator asset with
    | none => .ok (s, readRest rest)
    | some pending =>
      if a.now < pending.effectiveAt then .ok (s, readRest rest)
      else .ok (s, some (.activate asset pending rest))
  | .activate asset pending rest => do
    -- the delete in the same transaction throws when the key is gone
    let _ ← orThrow recordNotFound (s.pendingOperator asset)
    pure ((s.store (withOperatorPayout s.db asset pending.setting)).pend asset none, readRest rest)

/-- The services that handle payout addresses, each at its awaited effect. An
activation of the operator's settings may be the beginning of `planOperator`. -/
inductive Call where
  | createDestination (c : CreateCall)
  | requestDestination (c : RequestCall)
  | activateDueDestinations (c : ActivateCall)
  | plan (c : PlanCall)
  | updateOperatorPayout (c : UpdateCall)
  | activateDueOperatorPayouts (c : OperatorActivation) (planFor : Option AssetCode)
  | planOperator (c : OperatorCall)

def Call.entry : Call → Bool
  | .createDestination (.receive _ _) => true
  | .requestDestination (.authenticate _) => true
  | .activateDueDestinations .listDue => true
  | .plan (.listDue _) => true
  | .updateOperatorPayout (.receive _) => true
  | .activateDueOperatorPayouts (.readPending .btc [.xmr]) _ => true
  | _ => false

def continueOperator (planFor : Option AssetCode) : Option OperatorActivation → Option Call
  | some c => some (.activateDueOperatorPayouts c planFor)
  | none => planFor.map (fun asset => .planOperator (.readSetting asset))

def serve (rt : Runtime) (minimum : AssetCode → ℕ) (s : Office) (call : Call) (a : Reply) :
    Except String (Office × Option Call) :=
  match call with
  | .createDestination c =>
    (createDestination minimum s c a).map (fun r => (r.1, r.2.map .createDestination))
  | .requestDestination c =>
    (requestDestination s c a).map (fun r => (r.1, r.2.map .requestDestination))
  | .activateDueDestinations c =>
    (activateDueDestinations s c a).map (fun r => (r.1, r.2.map .activateDueDestinations))
  | .plan c => (stepPlan rt s.db c a.toAnswer).map (fun r => (s.store r.1, r.2.map .plan))
  | .updateOperatorPayout c =>
    (updateOperatorPayout minimum s c a).map (fun r => (r.1, r.2.map .updateOperatorPayout))
  | .activateDueOperatorPayouts c planFor =>
    (activateDueOperatorPayouts s c a).map (fun r => (r.1, continueOperator planFor r.2))
  | .planOperator c =>
    (stepOperator rt s.db c a.toAnswer).map (fun r => (s.store r.1, r.2.map .planOperator))

def Office.tick (s : Office) (now : Instant) : Office := { s with clock := now }

def effect (rt : Runtime) (minimum : AssetCode → ℕ) (s : Office) (call : Call) (a : Reply) :
    Except String (Office × Option Call) :=
  (serve rt minimum s call a).map (fun r => (r.1.tick a.createdAt, r.2))

/-- What the other services change meanwhile: the customers, the policy, the
journal, and how far the batches have come. -/
inductive Elsewhere where
  | customers (t : Table Customer)
  | policy (p : PayoutPolicySetting)
  | ledger (accounts : Table LedgerAccount) (journal : Table JournalTransaction)
  | progress (state : Id → PayoutState)

def advanceBatches (db : Database) (state : Id → PayoutState) : Database :=
  withPayouts db (db.payoutBatches.update (fun _ => true)
    (fun b => { b with state := state b.id }) (fun _ => ⟨rfl, rfl⟩)) db.payoutItems

def elsewhere (s : Office) : Elsewhere → Office
  | .customers t => s.store { s.db with customers := t }
  | .policy p => s.store { s.db with payoutPolicy := p }
  | .ledger accounts journal => s.store (s.db.withLedger accounts journal)
  | .progress state => s.store (advanceBatches s.db state)

def office (rt : Runtime) (minimum : AssetCode → ℕ) : Machine Office Call Reply Elsewhere :=
  ⟨Call.entry, effect rt minimum, fun _ _ => none, fun _ r _ => r, elsewhere⟩

/-- Before the first address is submitted. -/
structure Office.Opening (s : Office) : Prop where
  destinations : s.db.payoutDestinations.rows = []
  items : s.db.payoutItems.rows = []
  operator : ∀ asset, (s.db.operatorPayout asset).mode = .retain ∧
    (s.db.operatorPayout asset).address = ""
  pending : ∀ asset, s.pendingOperator asset = none

/-- The calls about customers' destinations touch nothing else that is stored. -/
structure Redirects (s s' : Office) : Prop where
  db : ∃ t, s'.db = withDestinations s.db t
  pendingOperator : s'.pendingOperator = s.pendingOperator

section Redirecting

variable {minimum : AssetCode → ℕ} {s s' : Office} {a : Reply}

theorem createDestination_redirects {c : CreateCall} {o : Option CreateCall}
    (h : createDestination minimum s c a = .ok (s', o)) : Redirects s s' := by
  cases c with
  | receive =>
    cases h
    exact ⟨⟨_, rfl⟩, rfl⟩
  | get =>
    simp only [createDestination, bind_eq_ok, pure_eq_ok] at h
    obtain ⟨_, _, h⟩ := h
    cases h
    exact ⟨⟨_, rfl⟩, rfl⟩
  | validateAddress =>
    simp only [createDestination] at h
    split at h <;> cases h
    exact ⟨⟨_, rfl⟩, rfl⟩
  | create =>
    simp only [createDestination, bind_eq_ok, pure_eq_ok] at h
    obtain ⟨t, _, h⟩ := h
    cases h
    exact ⟨⟨t, rfl⟩, rfl⟩

theorem requestDestination_redirects {c : RequestCall} {o : Option RequestCall}
    (h : requestDestination s c a = .ok (s', o)) : Redirects s s' := by
  cases c with
  | authenticate =>
    simp only [requestDestination, bind_eq_ok, pure_eq_ok] at h
    obtain ⟨_, _, h⟩ := h
    cases h
    exact ⟨⟨_, rfl⟩, rfl⟩
  | validateAddress | readPolicy =>
    simp only [requestDestination] at h
    split at h <;> cases h
    exact ⟨⟨_, rfl⟩, rfl⟩
  | transaction =>
    simp only [requestDestination, bind_eq_ok, pure_eq_ok] at h
    obtain ⟨t, _, h⟩ := h
    cases h
    exact ⟨⟨t, rfl⟩, rfl⟩

theorem activateDestination_db {db db' : Database} {now : Instant} {due : PayoutDestination}
    (h : activateDestination db now due = .ok db') : ∃ t, db' = withDestinations db t := by
  simp only [activateDestination, bind_eq_ok, pure_eq_ok] at h
  obtain ⟨_, _, rfl⟩ := h
  exact ⟨_, rfl⟩

theorem activateDueDestinations_redirects {c : ActivateCall} {o : Option ActivateCall}
    (h : activateDueDestinations s c a = .ok (s', o)) : Redirects s s' := by
  cases c with
  | listDue =>
    cases h
    exact ⟨⟨_, rfl⟩, rfl⟩
  | activate =>
    simp only [activateDueDestinations, bind_eq_ok, pure_eq_ok] at h
    obtain ⟨db, hactivate, h⟩ := h
    cases h
    exact ⟨activateDestination_db hactivate, rfl⟩

end Redirecting

end Bitmine.Destinations
