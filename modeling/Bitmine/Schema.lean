import Bitmine.Lib.UniqueTable
import Bitmine.Lib.GroupSum
import Bitmine.Lib.Throwing

namespace Bitmine.Schema

open Bitmine.Lib.UniqueTable

inductive AssetCode where
  | btc | xmr
  deriving DecidableEq

inductive EntityStatus where
  | active | disabled | archived
  deriving DecidableEq

inductive ShareStatus where
  | pending | accepted | rejected | unknown
  deriving DecidableEq

inductive DepositStatus where
  | observed | confirmed | allocated | reorged | ignored
  deriving DecidableEq

inductive LedgerAccountType where
  | asset | liability | revenue | expense | clearing
  deriving DecidableEq

inductive LedgerDirection where
  | debit | credit
  deriving DecidableEq

inductive JournalType where
  | deposit | allocation | payout | networkFee | adjustment | reversal
  deriving DecidableEq

inductive PayoutState where
  | planned | approvalRequired | autoApproved | signed | broadcast | confirmed | failed | cancelled
  deriving DecidableEq

inductive PayoutKind where
  | customer | operator
  deriving DecidableEq

inductive DestinationStatus where
  | pending | active | revoked
  deriving DecidableEq

inductive NetworkFeePayer where
  | customer | operator
  deriving DecidableEq

inductive OperatorPayoutMode where
  | retain | daily | weekly | manual
  deriving DecidableEq

abbrev Id := ℕ

abbrev Instant := ℤ

structure Admin where
  id : Id
  totpEnabled : Bool
  totpSecretCiphertext : Option String

structure Customer where
  id : Id
  status : EntityStatus

structure SplitPolicyVersion where
  id : Id
  customerId : Id
  asset : AssetCode
  customerBps : ℤ
  effectiveAt : Instant

structure Upstream where
  id : Id
  accountKey : String
  asset : AssetCode
  priority : ℤ
  enabled : Bool
  receiveAddress : Option String

structure ConnectionSession where
  id : Id
  acceptedCount : ℤ
  rejectedCount : ℤ

structure ShareEvent where
  id : Id
  asset : AssetCode
  customerId : Id
  workerId : Id
  upstreamId : Id
  connectionId : Id
  splitPolicyId : Id
  requestKey : String
  status : ShareStatus
  difficulty : ℚ
  normalizedWork : ℚ
  submittedAt : Instant
  resolvedAt : Option Instant
  upstreamLatencyMs : Option ℤ
  rejectReason : Option String
  allocationBatchId : Option Id

structure Deposit where
  id : Id
  asset : AssetCode
  upstreamId : Id
  txid : String
  outputRef : String
  amountAtomic : ℤ
  confirmations : ℤ
  locked : Bool
  status : DepositStatus
  confirmedAt : Option Instant
  allocatedAt : Option Instant

structure AllocationItem where
  customerId : Id
  splitPolicyId : Id
  work : ℚ
  grossAtomic : ℤ
  customerAtomic : ℤ
  operatorAtomic : ℤ

structure AllocationBatch where
  id : Id
  asset : AssetCode
  upstreamId : Id
  depositId : Id
  totalAtomic : ℤ
  customerTotalAtomic : ℤ
  operatorTotalAtomic : ℤ
  items : List AllocationItem

/-- Account codes: the five system accounts of an asset and
`customer:<id>:liability`. -/
inductive AccountCode where
  | treasury
  | allocationClearing
  | operatorRevenue
  | networkFee
  | networkFeeRecovery
  | customerLiability (customerId : Id)
  deriving DecidableEq

structure AccountRef where
  asset : AssetCode
  code : AccountCode
  deriving DecidableEq

structure LedgerAccount where
  asset : AssetCode
  code : AccountCode
  customerId : Option Id
  name : String
  type : LedgerAccountType

def ShareEvent.stamp (batchId : Id) (s : ShareEvent) : ShareEvent :=
  { s with allocationBatchId := some batchId }

def Deposit.allocate (now : Instant) (d : Deposit) : Deposit :=
  { d with status := .allocated, allocatedAt := some now }

def LedgerAccount.ref (a : LedgerAccount) : AccountRef := ⟨a.asset, a.code⟩

structure JournalEntry where
  account : AccountRef
  direction : LedgerDirection
  amountAtomic : ℤ

/-- The pair `referenceType`, `referenceId` of a journal transaction:
`Deposit` and the deposit, `AllocationBatch` and the batch, `PayoutItem` and
`<batch>:<customer>`, `OperatorPayout` and the batch. -/
inductive Reference where
  | deposit (depositId : Id)
  | allocationBatch (batchId : Id)
  | payoutItem (batchId customerId : Id)
  | operatorPayout (batchId : Id)
  deriving DecidableEq

structure JournalTransaction where
  id : Id
  asset : AssetCode
  type : JournalType
  reference : Reference
  entries : List JournalEntry

structure PayoutDestination where
  id : Id
  customerId : Id
  asset : AssetCode
  address : String
  status : DestinationStatus
  effectiveAt : Instant
  minPayoutAtomic : ℕ
  createdAt : Instant
  revokedAt : Option Instant

structure PolicySnapshot where
  feePayer : Option NetworkFeePayer
  maxFeeBps : Option ℕ

structure PayoutBatch where
  id : Id
  asset : AssetCode
  kind : PayoutKind
  state : PayoutState
  totalGrossAtomic : ℤ
  totalFeeAtomic : ℤ
  totalNetAtomic : ℤ
  transactionIds : List String
  signedPayload : Option String
  approvalThresholdHit : Bool
  policySnapshot : Option PolicySnapshot
  approvedById : Option Id
  approvedAt : Option Instant
  broadcastAt : Option Instant
  confirmedAt : Option Instant
  errorCode : Option String
  errorMessage : Option String
  createdAt : Instant

structure PayoutItem where
  id : Id
  batchId : Id
  customerId : Option Id
  destination : String
  grossAtomic : ℤ
  allocatedFeeAtomic : ℤ
  netAtomic : ℤ
  journalTransactionId : Option Id

structure PayoutPolicySetting where
  timezone : String
  feePayer : NetworkFeePayer
  maxFeeBps : ℕ
  maxBatchItems : ℕ
  minimumAtomic : AssetCode → ℕ
  dailyAutoLimitAtomic : AssetCode → ℕ

structure OperatorPayoutSetting where
  mode : OperatorPayoutMode
  address : String
  minPayoutAtomic : ℕ

instance : Row Admin := ⟨Id, Unit, Admin.id, fun _ => none⟩
instance : Row Customer := ⟨Id, Unit, Customer.id, fun _ => none⟩
instance : Row SplitPolicyVersion := ⟨Id, Unit, SplitPolicyVersion.id, fun _ => none⟩
instance : Row Upstream := ⟨Id, Unit, Upstream.id, fun _ => none⟩
instance : Row ConnectionSession := ⟨Id, Unit, ConnectionSession.id, fun _ => none⟩
instance : Row ShareEvent := ⟨Id × Instant, Id × String × Instant,
  fun s => (s.id, s.submittedAt), fun s => some (s.connectionId, s.requestKey, s.submittedAt)⟩
instance : Row Deposit := ⟨Id, AssetCode × String × String,
  Deposit.id, fun d => some (d.asset, d.txid, d.outputRef)⟩
instance : Row AllocationBatch := ⟨Id, Id, AllocationBatch.id, fun b => some b.depositId⟩
instance : Row LedgerAccount := ⟨AccountRef, Unit, LedgerAccount.ref, fun _ => none⟩
instance : Row JournalTransaction := ⟨Id, AssetCode × JournalType × Reference,
  JournalTransaction.id, fun t => some (t.asset, t.type, t.reference)⟩
instance : Row PayoutDestination := ⟨Id, Unit, PayoutDestination.id, fun _ => none⟩
instance : Row PayoutBatch := ⟨Id, Unit, PayoutBatch.id, fun _ => none⟩
instance : Row PayoutItem := ⟨Id, Id × Id,
  PayoutItem.id, fun i => i.customerId.map (fun c => (i.batchId, c))⟩

structure Database where
  admins : Table Admin
  customers : Table Customer
  splitPolicies : Table SplitPolicyVersion
  upstreams : Table Upstream
  connections : Table ConnectionSession
  shareEvents : Table ShareEvent
  deposits : Table Deposit
  allocationBatches : Table AllocationBatch
  ledgerAccounts : Table LedgerAccount
  journalTransactions : Table JournalTransaction
  payoutDestinations : Table PayoutDestination
  payoutBatches : Table PayoutBatch
  payoutItems : Table PayoutItem
  payoutPolicy : PayoutPolicySetting
  operatorPayout : AssetCode → OperatorPayoutSetting

def Database.empty (policy : PayoutPolicySetting) (operator : AssetCode → OperatorPayoutSetting) :
    Database :=
  ⟨.empty, .empty, .empty, .empty, .empty, .empty, .empty, .empty, .empty, .empty, .empty, .empty,
    .empty, policy, operator⟩

def Database.withLedger (db : Database) (accounts : Table LedgerAccount)
    (journal : Table JournalTransaction) : Database :=
  { db with ledgerAccounts := accounts, journalTransactions := journal }

@[simp] theorem Database.withLedger_ledgerAccounts (db : Database) (a : Table LedgerAccount)
    (j : Table JournalTransaction) : (db.withLedger a j).ledgerAccounts = a := rfl

@[simp] theorem Database.withLedger_journalTransactions (db : Database) (a : Table LedgerAccount)
    (j : Table JournalTransaction) : (db.withLedger a j).journalTransactions = j := rfl

def Database.withAllocation (db : Database) (batches : Table AllocationBatch)
    (shares : Table ShareEvent) (deposits : Table Deposit) : Database :=
  { db with allocationBatches := batches, shareEvents := shares, deposits := deposits }

/-- Before the first deposit: accounts, customers and settings may exist, but
nothing has been received, credited, allocated or paid. -/
structure Database.Fresh (db : Database) : Prop where
  shareEvents : db.shareEvents.rows = []
  deposits : db.deposits.rows = []
  allocationBatches : db.allocationBatches.rows = []
  journalTransactions : db.journalTransactions.rows = []
  payoutBatches : db.payoutBatches.rows = []
  payoutItems : db.payoutItems.rows = []

def uniqueViolation : String := "Unique constraint failed"
def recordNotFound : String := "No record was found"

end Bitmine.Schema
