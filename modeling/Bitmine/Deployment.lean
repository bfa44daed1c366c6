import Bitmine.Security

namespace Bitmine.Deployment

open Bitmine.Lib.GroupSum Bitmine.Schema Bitmine.Security

structure WalletReceipt where
  txid : String
  outputRef : String
  address : String
  amountAtomic : ℤ
  confirmations : ℤ
  locked : Bool

structure PreparedItem where
  id : Id
  allocatedFeeAtomic : ℤ
  netAtomic : ℤ

structure PreparedPayout where
  signedPayload : String
  transactionIds : List String
  feeAtomic : ℤ
  items : List PreparedItem

/-- What the deployment fixes: cryptography, the calendar (local midnights of a
time zone) and the required confirmations. -/
structure Runtime where
  primitives : Primitives
  startOfDay : String → Instant → Instant
  startOfNextDay : String → Instant → Instant
  requiredConfirmations : AssetCode → ℤ

/-- Everything an awaited effect may learn from outside the database: clocks,
fresh identifiers, row orders the query leaves open, and answers of the wallet. -/
structure Answer where
  now : Instant := 0
  createdAt : Instant := 0
  newId : ℕ → Id := fun n => n
  groupOrder : Order ((Id × Id) × ℚ) := .asStored
  itemOrder : Order PayoutItem := .asStored
  destinationOrder : Order PayoutDestination := .asStored
  upstreamOrder : Order Upstream := .asStored
  policyOrder : Order SplitPolicyVersion := .asStored
  batchOrder : Order PayoutBatch := .asStored
  iv : String := ""
  prepared : PreparedPayout := ⟨"", [], 0, []⟩
  known : String → Bool := fun _ => false
  relayed : List String := []
  confirmations : String → ℤ := fun _ => 0
  receipts : List WalletReceipt := []

inductive Observation where
  | received (asset : AssetCode) (receipt : WalletReceipt)
  | signed (batchId : Id) (stored : String) (transactionIds : List String)
  | broadcast (batchId : Id) (payload : String)
  | totpPassed (batchId adminId : Id)

/-- The database, the lock key `payout:execute:wallets`, and the past. -/
structure World where
  db : Database
  lock : Option Id
  log : List Observation

def World.observe (w : World) (o : Observation) : World := { w with log := w.log ++ [o] }

def World.store (w : World) (db : Database) : World := { w with db := db }

@[simp] theorem World.observe_db (w : World) (o : Observation) : (w.observe o).db = w.db := rfl
@[simp] theorem World.observe_log (w : World) (o : Observation) :
    (w.observe o).log = w.log ++ [o] := rfl
@[simp] theorem World.store_db (w : World) (db : Database) : (w.store db).db = db := rfl
@[simp] theorem World.store_log (w : World) (db : Database) : (w.store db).log = w.log := rfl

end Bitmine.Deployment
