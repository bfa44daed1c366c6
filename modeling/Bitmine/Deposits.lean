import Bitmine.Deployment
import Bitmine.AllocationSpec

namespace Bitmine.Deposits

open Bitmine.Lib.UniqueTable Bitmine.Lib.Throwing Bitmine.Schema Bitmine.Deployment
open Bitmine.Security Bitmine.AllocateDeposit

abbrev AddressMap := List (String × Upstream)

def lookup (byAddress : AddressMap) (address : String) : Option Upstream :=
  (byAddress.find? (fun e => e.1 = address)).map Prod.snd

def assign (byAddress : AddressMap) (address : String) (u : Upstream) : AddressMap :=
  byAddress.filter (fun e => e.1 ≠ address) ++ [(address, u)]

def addUpstream (byAddress : AddressMap) (u : Upstream) : Except String AddressMap :=
  match truthy u.receiveAddress with
  | none => .ok byAddress
  | some address =>
    match lookup byAddress address with
    | some existing =>
      if existing.accountKey ≠ u.accountKey then
        .error ("Receive address " ++ address ++ " is assigned to multiple pool accounts")
      else if u.priority < existing.priority then .ok (assign byAddress address u)
      else .ok byAddress
    | none => .ok (assign byAddress address u)

structure Scan where
  asset : AssetCode
  byAddress : AddressMap
  receipts : List WalletReceipt

/-- The awaited effects of `scanAsset`. -/
inductive ScanCall where
  | readUpstreams (asset : AssetCode)
  | scanReceipts (asset : AssetCode) (byAddress : AddressMap)
  | readDeposit (scan : Scan) (receipt : WalletReceipt) (upstream : Upstream)
  | reorg (scan : Scan) (receipt : WalletReceipt) (existing : Deposit)
  | upsert (scan : Scan) (receipt : WalletReceipt) (upstream : Upstream) (existing : Option Deposit)
  | allocate (scan : Scan) (depositId : Id)

def ScanCall.entry : ScanCall → Bool
  | .readUpstreams _ => true
  | _ => false

def proceed (asset : AssetCode) (byAddress : AddressMap) : List WalletReceipt → Option ScanCall
  | [] => none
  | receipt :: receipts =>
    match lookup byAddress receipt.address with
    | some upstream => some (.readDeposit ⟨asset, byAddress, receipts⟩ receipt upstream)
    | none => proceed asset byAddress receipts

def Scan.next (s : Scan) : Option ScanCall := proceed s.asset s.byAddress s.receipts

def sameOutput (asset : AssetCode) (receipt : WalletReceipt) (d : Deposit) : Bool :=
  d.asset = asset ∧ d.txid = receipt.txid ∧ d.outputRef = receipt.outputRef

def receiptStatus (receipt : WalletReceipt) : DepositStatus :=
  if receipt.locked then .observed else .confirmed

def markReorged (receipt : WalletReceipt) (d : Deposit) : Deposit :=
  { d with status := .reorged, confirmations := receipt.confirmations, locked := true }

def createDeposit (a : Answer) (asset : AssetCode) (receipt : WalletReceipt) (u : Upstream) :
    Deposit :=
  ⟨a.newId 0, asset, u.id, receipt.txid, receipt.outputRef, receipt.amountAtomic,
    receipt.confirmations, receipt.locked, receiptStatus receipt,
    if receiptStatus receipt = .confirmed then some a.now else none, none⟩

/-- The update branch works from the row that was read before, which may be stale or missing. -/
def refresh (now : Instant) (receipt : WalletReceipt) (existing : Option Deposit) (d : Deposit) :
    Deposit :=
  { d with
    confirmations := receipt.confirmations
    locked := receipt.locked
    status := if existing.map Deposit.status = some .allocated then .allocated
      else receiptStatus receipt
    confirmedAt := match existing with
      | some e => if receiptStatus receipt = .confirmed then some (e.confirmedAt.getD now)
        else e.confirmedAt
      | none => if receiptStatus receipt = .confirmed then some now else d.confirmedAt }

def withDeposits (db : Database) (deposits : Table Deposit) : Database :=
  { db with deposits := deposits }

def allocationIds (a : Answer) : AllocationIds := ⟨a.newId 0, a.newId 1, a.newId 2⟩

def step (w : World) (call : ScanCall) (a : Answer) : Except String (World × Option ScanCall) :=
  match call with
  | .readUpstreams asset => do
    let upstreams := (a.upstreamOrder.arrange w.db.upstreams.rows).filter
      (fun u => u.asset = asset ∧ u.enabled ∧ u.receiveAddress ≠ none)
    let byAddress ← upstreams.foldlM addUpstream []
    pure (w, some (.scanReceipts asset byAddress))
  | .scanReceipts asset byAddress => .ok (w, proceed asset byAddress a.receipts)
  | .readDeposit scan receipt upstream =>
    let existing := w.db.deposits.find? (sameOutput scan.asset receipt)
    match existing with
    | some d =>
      if d.status = .allocated ∧ receipt.locked then .ok (w, some (.reorg scan receipt d))
      else .ok (w, some (.upsert scan receipt upstream existing))
    | none => .ok (w, some (.upsert scan receipt upstream none))
  | .reorg scan receipt existing => do
    let _ ← orThrow recordNotFound (w.db.deposits.find? (fun d => d.id = existing.id))
    let deposits := w.db.deposits.update (fun d => d.id = existing.id) (markReorged receipt)
      (fun _ => ⟨rfl, rfl⟩)
    pure (w.store (withDeposits w.db deposits), scan.next)
  | .upsert scan receipt upstream existing => do
    let deposits ← orThrow uniqueViolation (w.db.deposits.upsert (sameOutput scan.asset receipt)
      (createDeposit a scan.asset receipt upstream) (refresh a.now receipt existing)
      (fun _ => ⟨rfl, rfl⟩))
    let w' := (w.store (withDeposits w.db deposits)).observe (.received scan.asset receipt)
    match deposits.find? (sameOutput scan.asset receipt) with
    | some d =>
      if d.status = .confirmed then pure (w', some (.allocate scan d.id)) else pure (w', scan.next)
    | none => pure (w', scan.next)
  | .allocate scan depositId => do
    let (_, db) ← allocateDeposit a.groupOrder (allocationIds a) a.now w.db depositId
    pure (w.store db, scan.next)

def handler : ScanCall → Option ScanCall
  | .allocate scan _ => scan.next
  | _ => none

section Inversion

variable {w : World} {a : Answer}

/-- Everything a resolved effect of a scan can do. -/
inductive Scanned (w : World) (a : Answer) : ScanCall → World → Option ScanCall → Prop where
  | readUpstreams {asset : AssetCode} {byAddress : AddressMap} :
      Scanned w a (.readUpstreams asset) w (some (.scanReceipts asset byAddress))
  | scanReceipts {asset : AssetCode} {byAddress : AddressMap} :
      Scanned w a (.scanReceipts asset byAddress) w (proceed asset byAddress a.receipts)
  | locked {scan : Scan} {receipt : WalletReceipt} {upstream : Upstream} {d : Deposit}
      (hm : d ∈ w.db.deposits.rows) (hk : sameOutput scan.asset receipt d = true)
      (hs : d.status = .allocated) (hl : receipt.locked = true) :
      Scanned w a (.readDeposit scan receipt upstream) w (some (.reorg scan receipt d))
  | read {scan : Scan} {receipt : WalletReceipt} {upstream : Upstream} {existing : Option Deposit}
      (he : w.db.deposits.find? (sameOutput scan.asset receipt) = existing)
      (hn : ∀ d, existing = some d → ¬ (d.status = .allocated ∧ receipt.locked = true)) :
      Scanned w a (.readDeposit scan receipt upstream) w (some (.upsert scan receipt upstream existing))
  | reorg {scan : Scan} {receipt : WalletReceipt} {existing : Deposit} {deposits : Table Deposit}
      (hd : deposits = w.db.deposits.update (fun d => d.id = existing.id) (markReorged receipt)
        (fun _ => ⟨rfl, rfl⟩)) :
      Scanned w a (.reorg scan receipt existing) (w.store (withDeposits w.db deposits)) scan.next
  | upsert {scan : Scan} {receipt : WalletReceipt} {upstream : Upstream} {existing : Option Deposit}
      {deposits : Table Deposit} {o : Option ScanCall}
      (hd : w.db.deposits.upsert (sameOutput scan.asset receipt)
        (createDeposit a scan.asset receipt upstream) (refresh a.now receipt existing)
        (fun _ => ⟨rfl, rfl⟩) = some deposits)
      (ho : o = scan.next ∨ ∃ d, o = some (.allocate scan d)) :
      Scanned w a (.upsert scan receipt upstream existing)
        ((w.store (withDeposits w.db deposits)).observe (.received scan.asset receipt)) o
  | allocate {scan : Scan} {depositId : Id} {batch : AllocationBatch} {db : Database}
      (hd : allocateDeposit a.groupOrder (allocationIds a) a.now w.db depositId = .ok (batch, db)) :
      Scanned w a (.allocate scan depositId) (w.store db) scan.next

theorem step_scanned {call : ScanCall} {w' : World} {o : Option ScanCall}
    (h : step w call a = .ok (w', o)) : Scanned w a call w' o := by
  cases call with
  | readUpstreams asset =>
    simp only [step, bind_eq_ok, pure_eq_ok] at h
    obtain ⟨byAddress, _, he⟩ := h
    cases he
    exact .readUpstreams
  | scanReceipts asset byAddress =>
    cases h
    exact .scanReceipts
  | readDeposit scan receipt upstream =>
    simp only [step] at h
    cases hf : w.db.deposits.find? (sameOutput scan.asset receipt) with
    | none =>
      rw [hf] at h
      cases h
      exact .read hf (by simp)
    | some d =>
      rw [hf] at h
      dsimp only at h
      split at h
      · rename_i hc
        cases h
        obtain ⟨hm, hk⟩ := Table.find?_mem hf
        exact .locked hm hk hc.1 hc.2
      · rename_i hc
        cases h
        refine .read hf (fun d' hd' => ?_)
        cases hd'
        exact hc
  | reorg scan receipt existing =>
    simp only [step, bind_eq_ok, pure_eq_ok] at h
    obtain ⟨_, _, he⟩ := h
    cases he
    exact .reorg rfl
  | upsert scan receipt upstream existing =>
    simp only [step, bind_eq_ok, orThrow_eq_ok] at h
    obtain ⟨deposits, hd, h⟩ := h
    split at h
    · split at h
      · cases h
        exact .upsert hd (.inr ⟨_, rfl⟩)
      · cases h
        exact .upsert hd (.inl rfl)
    · cases h
      exact .upsert hd (.inl rfl)
  | allocate scan depositId =>
    simp only [step, bind_eq_ok, pure_eq_ok] at h
    obtain ⟨⟨batch, db⟩, hd, he⟩ := h
    cases he
    exact .allocate hd

end Inversion

end Bitmine.Deposits
