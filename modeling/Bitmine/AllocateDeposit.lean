import Bitmine.LedgerPosting
import Bitmine.Allocation

namespace Bitmine.AllocateDeposit

open Bitmine.Lib.UniqueTable Bitmine.Lib.GroupSum Bitmine.Lib.Throwing Bitmine.Lib.Rounding
open Bitmine.Schema Bitmine.Ledger Bitmine.Allocation

def openShare (endpointIds : List Id) (s : ShareEvent) : Bool :=
  s.upstreamId ∈ endpointIds ∧ s.status = .accepted ∧ s.allocationBatchId = none

structure WorkGroup where
  customerId : Id
  splitPolicyId : Id
  work : ℚ

def accountEndpoints (db : Database) (asset : AssetCode) (accountKey : String) : List Id :=
  (db.upstreams.rows.filter (fun u => u.asset = asset ∧ u.accountKey = accountKey)).map Upstream.id

def shareGroups (shares : List ShareEvent) : List ((Id × Id) × ℚ) :=
  groupSum (fun s => (s.customerId, s.splitPolicyId)) ShareEvent.normalizedWork shares

def workGroups (order : Order ((Id × Id) × ℚ)) (db : Database) (endpointIds : List Id) :
    List WorkGroup :=
  ((order.arrange (shareGroups (db.shareEvents.rows.filter (openShare endpointIds)))).map
    (fun g => ⟨g.1.1, g.1.2, g.2⟩)).filter (fun g => 0 < g.work)

def allocationItem (db : Database) (a : AllocatedItem WorkGroup) : Except String AllocationItem := do
  let policy ← orThrow ("Missing split policy " ++ toString a.key.splitPolicyId)
    (db.splitPolicies.find? (fun p => p.id = a.key.splitPolicyId))
  let split ← splitBasisPoints a.amount policy.customerBps
  pure ⟨a.key.customerId, a.key.splitPolicyId, roundPlaces 18 a.key.work, a.amount,
    split.customer, split.operator⟩

def customerTotal (items : List AllocationItem) : ℤ := (items.map AllocationItem.customerAtomic).sum

def operatorTotal (items : List AllocationItem) : ℤ := (items.map AllocationItem.operatorAtomic).sum

def allocationItems (order : Order ((Id × Id) × ℚ)) (db : Database) (deposit : Deposit)
    (endpointIds : List Id) : Except String (List AllocationItem) := do
  let groups := workGroups order db endpointIds
  if groups.isEmpty then .error "No accepted unallocated work for this upstream"
  else
    let gross ← largestRemainder decimalRound deposit.amountAtomic
      (groups.map (fun g => ⟨g, g.work⟩))
    let items ← gross.mapM (allocationItem db)
    if customerTotal items + operatorTotal items ≠ deposit.amountAtomic then
      .error "Allocation invariant failed"
    else pure items

def depositEntries (deposit : Deposit) : List JournalEntry :=
  [⟨⟨deposit.asset, .treasury⟩, .debit, deposit.amountAtomic⟩,
    ⟨⟨deposit.asset, .allocationClearing⟩, .credit, deposit.amountAtomic⟩]

def liabilityTotals (items : List AllocationItem) : List (Id × ℤ) :=
  (groupSum AllocationItem.customerId AllocationItem.customerAtomic items).filter (fun t => 0 < t.2)

def allocationEntries (deposit : Deposit) (items : List AllocationItem) : List JournalEntry :=
  [⟨⟨deposit.asset, .allocationClearing⟩, .debit, deposit.amountAtomic⟩] ++
  (liabilityTotals items).map (fun t => ⟨liabilityRef deposit.asset t.1, .credit, t.2⟩) ++
  (if 0 < operatorTotal items then
    [⟨⟨deposit.asset, .operatorRevenue⟩, .credit, operatorTotal items⟩]
  else [])

structure AllocationIds where
  batchId : Id
  depositJournalId : Id
  allocationJournalId : Id

def allocationBatch (ids : AllocationIds) (deposit : Deposit) (items : List AllocationItem) :
    AllocationBatch :=
  ⟨ids.batchId, deposit.asset, deposit.upstreamId, deposit.id, deposit.amountAtomic,
    customerTotal items, operatorTotal items, items⟩

def depositJournal (ids : AllocationIds) (deposit : Deposit) : JournalTransaction :=
  ⟨ids.depositJournalId, deposit.asset, .deposit, .deposit deposit.id, depositEntries deposit⟩

def allocationJournal (ids : AllocationIds) (deposit : Deposit) (items : List AllocationItem) :
    JournalTransaction :=
  ⟨ids.allocationJournalId, deposit.asset, .allocation, .allocationBatch ids.batchId,
    allocationEntries deposit items⟩

/-- The writing half of the transaction, once the items are known. -/
def commitAllocation (db : Database) (ids : AllocationIds) (now : Instant) (deposit : Deposit)
    (endpointIds : List Id) (items : List AllocationItem) : Except String Database := do
  let batches ← orThrow uniqueViolation
    (db.allocationBatches.insert (allocationBatch ids deposit items))
  let shares := db.shareEvents.update (openShare endpointIds)
    (ShareEvent.stamp ids.batchId) (fun _ => ⟨rfl, rfl⟩)
  let db ← ensureSystemAccounts (db.withAllocation batches shares db.deposits) deposit.asset
  let db ← post db (depositJournal ids deposit)
  let db ← (liabilityTotals items).foldlM (fun db t => ensureLiability db deposit.asset t.1) db
  let db ← post db (allocationJournal ids deposit items)
  let deposits := db.deposits.update (fun d => d.id = deposit.id)
    (Deposit.allocate now) (fun _ => ⟨rfl, rfl⟩)
  pure (db.withAllocation db.allocationBatches db.shareEvents deposits)

def allocateDeposit (order : Order ((Id × Id) × ℚ)) (ids : AllocationIds) (now : Instant)
    (db : Database) (depositId : Id) : Except String (AllocationBatch × Database) := do
  let deposit ← orThrow "Deposit not found" (db.deposits.find? (fun d => d.id = depositId))
  if deposit.status = .allocated then
    let existing ← orThrow "Deposit state is inconsistent"
      (db.allocationBatches.find? (fun b => b.depositId = depositId))
    pure (existing, db)
  else if deposit.status ≠ .confirmed then .error "Deposit is not confirmed"
  else
    let upstream ← orThrow recordNotFound
      (db.upstreams.find? (fun u => u.id = deposit.upstreamId))
    let endpointIds := accountEndpoints db deposit.asset upstream.accountKey
    let items ← allocationItems order db deposit endpointIds
    let db' ← commitAllocation db ids now deposit endpointIds items
    pure (allocationBatch ids deposit items, db')

end Bitmine.AllocateDeposit
